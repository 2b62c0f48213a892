import Mathlib
import Monkey.Shell

namespace Monkey

namespace Sink

/-- Whether as many bytes have been written as may be. -/
def IsFull (s : Sink) : Prop :=
  s.limit = some s.written.size

theorem accepts_of_limit_eq_none {s : Sink} (h : s.limit = none) (size : Nat) : s.accepts size := by
  intro limit hlimit
  rw [h] at hlimit
  exact nomatch hlimit

theorem accepts_some {limit size : Nat} {written : ByteArray} :
    accepts ⟨some limit, written⟩ size ↔ size ≤ limit - written.size := by
  simp [accepts]

theorem write_of_limit_eq_none {s : Sink} (h : s.limit = none) (text : String) :
    s.write text = (true, ⟨none, s.written ++ text.toUTF8⟩) := by
  rw [write, if_pos (accepts_of_limit_eq_none h _), h]

section limited

variable {limit : Nat} {written : ByteArray} {text : String}

theorem write_of_fits (h : (written ++ text.toUTF8).size ≤ limit) :
    write ⟨some limit, written⟩ text = (true, ⟨some limit, written ++ text.toUTF8⟩) := by
  rw [ByteArray.size_append] at h
  rw [write, if_pos (accepts_some.2 (by omega))]

/-- A text that does not fit is cut off at the limit. -/
theorem write_of_overflows (hfits : written.size ≤ limit) (h : limit < (written ++ text.toUTF8).size) :
    write ⟨some limit, written⟩ text =
      (false, ⟨some limit, (written ++ text.toUTF8).extract 0 limit⟩) := by
  rw [ByteArray.size_append] at h
  have hrefused : ¬ accepts ⟨some limit, written⟩ text.toUTF8.size := by
    rw [accepts_some]
    omega
  have hkept : written.extract 0 limit = written := by
    have hmax : max limit written.size = limit := Nat.max_eq_left hfits
    rw [← hmax, ByteArray.extract_zero_max_size]
  rw [write, if_neg hrefused, ByteArray.extract_append, hkept, Nat.zero_sub]
  rfl

/-- Then only the empty text is accepted, and nothing changes. -/
theorem write_of_isFull {s : Sink} (h : s.IsFull) (htext : text.toUTF8.size ≠ 0) :
    s.write text = (false, s) := by
  obtain ⟨limit, written⟩ := s
  obtain rfl : limit = some written.size := h
  have hsize : written.size < (written ++ text.toUTF8).size := by
    rw [ByteArray.size_append]
    omega
  rw [write_of_overflows (Nat.le_refl _) hsize, ByteArray.extract_append_eq_left rfl]

end limited

end Sink

/-- The same machine, with a limit on what may be written in all. -/
def Machine.limited (limit : Nat) (m : Machine) : Machine :=
  { m with sink := ⟨some limit, m.sink.written⟩ }

namespace Action

variable {α β : Type} {limit : Nat}

/-- What is known of an action that on an unlimited sink leads from a machine to another one with a result.
On a limited sink it ends in the same way if the limit suffices. Otherwise it ends too, with just as many
bytes written as the limit allows, and with a result that passes the failure on. -/
structure Cut (limit : Nat) (kept cut : α → Prop) (x : Action α) (m : Machine) (a : α) (m' : Machine) :
    Prop where
  kept : kept a
  unlimited : m'.sink.limit = none
  written_eq : ∃ more, m'.sink.written = m.sink.written ++ more
  fits : m'.sink.written.size ≤ limit → x (m.limited limit) = some (a, m'.limited limit)
  overflows : m.sink.written.size ≤ limit → limit < m'.sink.written.size →
    ∃ b n, x (m.limited limit) = some (b, n) ∧ cut b ∧
      n.sink = ⟨some limit, m'.sink.written.extract 0 limit⟩

/-- A limit does no more to the action than to cut off what it writes. -/
def Truncates (limit : Nat) (kept cut : α → Prop) (x : Action α) : Prop :=
  ∀ m a m', m.sink.limit = none → x m = some (a, m') → x.Cut limit kept cut m a m'

/-- Once the sink is full the action writes nothing more and only passes the failure on. -/
def PassesOn (cut : α → Prop) (x : Action α) : Prop :=
  ∀ n : Machine, n.sink.IsFull → ∃ a n', x n = some (a, n') ∧ cut a ∧ n'.sink = n.sink

theorem passesOn_pure {cut : α → Prop} {a : α} (h : cut a) : PassesOn cut (pure a) :=
  fun n _ => ⟨a, n, rfl, h, rfl⟩

variable {kept cut : α → Prop} {kept' cut' : β → Prop} {x : Action α} {f : α → Action β}

/-- An action that neither reads nor changes the sink runs in the same way on every sink. -/
theorem truncates_of_blind
    (h : ∀ m s, x { m with sink := s } = (x m).map fun (a, m') => (a, { m' with sink := s })) :
    Truncates limit (fun _ => True) cut x := by
  intro m a m' hm hx
  have hself := h m m.sink
  rw [show { m with sink := m.sink } = m from rfl, hx, Option.map_some, Option.some_inj,
    Prod.mk.injEq] at hself
  have hsink : m'.sink = m.sink := by
    have hsame := congrArg Machine.sink hself.2
    exact hsame
  constructor
  · trivial
  · rw [hsink, hm]
  · exact ⟨.empty, by rw [hsink, ByteArray.append_empty]⟩
  · intro _
    unfold Machine.limited
    rw [h, hx, Option.map_some, hsink]
  · intro hfits hover
    rw [hsink] at hover
    omega

theorem truncates_pure {a : α} (h : kept a) : Truncates limit kept cut (pure a) := by
  intro m b m' hm hb
  obtain ⟨rfl, rfl⟩ := pure_eq_some.1 hb
  exact ⟨h, hm, ⟨.empty, ByteArray.append_empty.symm⟩, fun _ => rfl, fun hfits hover => by omega⟩

theorem Truncates.bind (hx : Truncates limit kept cut x)
    (hf : ∀ a, kept a → Truncates limit kept' cut' (f a)) (hcut : ∀ b, cut b → PassesOn cut' (f b)) :
    Truncates limit kept' cut' (x >>= f) := by
  intro m c m' hm hc
  obtain ⟨a, m₁, hxa, hfa⟩ := bind_eq_some.1 hc
  have hfirst := hx m a m₁ hm hxa
  have hsecond := hf a hfirst.kept m₁ c m' hfirst.unlimited hfa
  obtain ⟨more, hmore⟩ := hsecond.written_eq
  have hsize : m'.sink.written.size = m₁.sink.written.size + more.size := by
    rw [hmore, ByteArray.size_append]
  constructor
  · exact hsecond.kept
  · exact hsecond.unlimited
  · obtain ⟨before, hbefore⟩ := hfirst.written_eq
    exact ⟨before ++ more, by rw [hmore, hbefore, ByteArray.append_assoc]⟩
  · intro hfits
    exact bind_eq_some.2 ⟨a, _, hfirst.fits (by omega), hsecond.fits hfits⟩
  · intro hfits hover
    by_cases hmid : m₁.sink.written.size ≤ limit
    · obtain ⟨b, n, hfb, hb, hn⟩ := hsecond.overflows hmid hover
      exact ⟨b, n, bind_eq_some.2 ⟨a, _, hfirst.fits hmid, hfb⟩, hb, hn⟩
    -- the limit is reached within the first action, and the second one writes nothing
    · obtain ⟨b, n, hxb, hb, hn⟩ := hfirst.overflows hfits (by omega)
      have hfull : n.sink.IsFull := by
        rw [hn, Sink.IsFull, ByteArray.size_extract, Option.some_inj]
        omega
      obtain ⟨d, n', hfd, hd, hn'⟩ := hcut b hb n hfull
      have hempty : more.extract (0 - m₁.sink.written.size) (limit - m₁.sink.written.size) = .empty := by
        rw [ByteArray.extract_eq_empty_iff]
        omega
      refine ⟨d, n', bind_eq_some.2 ⟨b, n, hxb, hfd⟩, hd, ?_⟩
      rw [hn', hn, hmore, ByteArray.extract_append, hempty, ByteArray.append_empty]

/-- After an action that cannot fail there is no failure to pass on. -/
theorem Truncates.andThen (hx : Truncates limit kept (fun _ => False) x)
    (hf : ∀ a, kept a → Truncates limit kept' cut' (f a)) : Truncates limit kept' cut' (x >>= f) :=
  hx.bind hf fun _ h => h.elim

/-- The one action that looks at the sink. -/
theorem truncates_write (text : String) : Truncates limit (· = true) (· = false) (write text) := by
  intro m accepted m' hm h
  obtain ⟨rfl, rfl⟩ := write_eq_some.1 h
  rw [Sink.write_of_limit_eq_none hm]
  constructor
  · rfl
  · rfl
  · exact ⟨text.toUTF8, rfl⟩
  · intro hfits
    rw [write_apply, Machine.limited, Sink.write_of_fits hfits]
    rfl
  · intro hfits hover
    refine ⟨false, { m with sink := ⟨some limit, (m.sink.written ++ text.toUTF8).extract 0 limit⟩ }, ?_⟩
    rw [write_apply, Machine.limited, Sink.write_of_overflows hfits hover]
    exact ⟨rfl, rfl, rfl⟩

theorem truncates_writeLine (v : Value) : Truncates limit (· = true) (· = false) (writeLine v) := by
  intro m accepted m' hm h
  have hwrite : Truncates limit (· = true) (· = false) (write (v.line m.order)) := truncates_write _
  have hcut := hwrite m accepted m' hm h
  exact ⟨hcut.kept, hcut.unlimited, hcut.written_eq, hcut.fits, hcut.overflows⟩

end Action

/-- The result of evaluation when the output takes no more. -/
def sinkFailure : Value :=
  .error (.outputFailed .sinkFull)

/-- A limit only cuts off what the evaluation writes, and its result then tells of that. -/
def Action.Fails (limit : Nat) (x : Action Value) : Prop :=
  x.Truncates limit (fun _ => True) (· = sinkFailure)

theorem Action.fails_pure {limit : Nat} (v : Value) : Action.Fails limit (pure v) :=
  truncates_pure trivial

/-- The same where an error leaves at once. `failure` tells that no more could be written, `usual` are the
errors that there are without a limit, and `results` are what else tells of the failure. -/
def Interrupts {ε α : Type} (limit : Nat) (failure : ε) (usual : ε → Prop) (results : α → Prop)
    (g : ExceptT ε Action α) : Prop :=
  Action.Truncates limit
    (fun
      | .ok _ => True
      | .error e => usual e)
    (fun
      | .ok a => results a
      | .error e => e = failure)
    g.run

section interrupts

variable {ε α β : Type} {limit : Nat} {failure : ε} {usual : ε → Prop} {results : α → Prop}
  {results' : β → Prop}

theorem interrupts_pure (a : α) : Interrupts limit failure usual results (pure a) :=
  Action.truncates_pure trivial

theorem interrupts_throw {e : ε} (h : usual e) : Interrupts limit failure usual results (throw e) :=
  Action.truncates_pure h

theorem Interrupts.bind {g : ExceptT ε Action α} {f : α → ExceptT ε Action β}
    (hg : Interrupts limit failure usual (fun _ => False) g)
    (hf : ∀ a, Interrupts limit failure usual results' (f a)) :
    Interrupts limit failure usual results' (g >>= f) := by
  refine Action.Truncates.bind hg (fun out hout => ?_) fun out hout => ?_
  · cases out with
    | ok a => exact hf a
    | error e => exact Action.truncates_pure hout
  · cases out with
    | ok a => exact hout.elim
    | error e => exact Action.passesOn_pure hout

theorem interrupts_lift {kept cut : α → Prop} {x : Action α} (hx : x.Truncates limit kept cut)
    (hcut : ∀ a, cut a → results a) :
    Interrupts limit failure usual results (x : ExceptT ε Action α) :=
  Action.Truncates.bind hx (fun _ _ => Action.truncates_pure trivial) fun a ha =>
    Action.passesOn_pure (hcut a ha)

end interrupts

namespace Guarded

variable {α : Type} {limit : Nat}

/-- Evaluation that is guarded against signals lets the failure leave as one of them. -/
def Truncates (limit : Nat) (results : α → Prop) (g : Guarded α) : Prop :=
  Interrupts limit sinkFailure (fun _ => True) results g

theorem truncates_plain {x : Action Value} (hx : x.Fails limit) :
    Truncates limit (fun _ => False) (plain x) := by
  unfold Truncates Interrupts
  rw [run_plain]
  refine Action.Truncates.bind hx (fun v _ => Action.truncates_pure ?_) fun v hv => ?_
  · split <;> trivial
  · rw [hv]
    exact Action.passesOn_pure rfl

end Guarded

theorem Interrupts.result {limit : Nat} {g : Guarded Value}
    (hg : Interrupts limit sinkFailure (fun _ => True) (· = sinkFailure) g) :
    (Guarded.result g).Fails limit := by
  refine Action.Truncates.bind hg (fun out _ => ?_) fun out hout => ?_
  · cases out with
    | ok v | error v => exact Action.fails_pure v
  · cases out with
    | ok v | error v => exact Action.passesOn_pure hout

section actions

variable {limit : Nat}

theorem Action.truncates_lookup? {cut : Option Value → Prop} (scope : Scope) (name : String) :
    Truncates limit (fun _ => True) cut (lookup? scope name) :=
  truncates_of_blind fun _ _ => rfl

theorem Action.truncates_define {cut : Unit → Prop} (scope : Scope) (name : String) (v : Value) :
    Truncates limit (fun _ => True) cut (define scope name v) :=
  truncates_of_blind fun _ _ => rfl

theorem Action.truncates_newGlobal {cut : Scope → Prop} :
    Truncates limit (fun _ => True) cut newGlobal :=
  truncates_of_blind fun _ _ => rfl

theorem Action.truncates_newChild {cut : Scope → Prop} (outer : Scope) :
    Truncates limit (fun _ => True) cut (newChild outer) :=
  truncates_of_blind fun _ _ => rfl

theorem Action.fails_newArray (elements : List Value) : (newArray elements).Fails limit :=
  truncates_of_blind fun _ _ => rfl

theorem Action.fails_newHash (entries : Entries) : (newHash entries).Fails limit :=
  truncates_of_blind fun _ _ => rfl

theorem Action.fails_newFunction (closure : Closure) : (newFunction closure).Fails limit :=
  truncates_of_blind fun _ _ => rfl

namespace Builtin

theorem fails_withOne (args : List Value) {f : Value → Action Value} (hf : ∀ v, (f v).Fails limit) :
    (withOne args f).Fails limit := by
  unfold withOne
  split
  · exact hf _
  · exact Action.fails_pure _

theorem fails_withArray (b : Builtin) (args : List Value) {f : List Value → Action Value}
    (hf : ∀ elements, (f elements).Fails limit) : (withArray b args f).Fails limit := by
  refine fails_withOne args fun v => ?_
  split
  · exact hf _
  · exact Action.fails_pure _

/-- A write that is cut off is the last one. -/
theorem fails_putAll (args : List Value) : (putAll args).Fails limit := by
  induction args with
  | nil => exact Action.fails_pure _
  | cons v args ih =>
    refine Action.Truncates.bind (Action.truncates_writeLine v) (fun accepted h => ?_) fun accepted h => ?_
    · rw [h]
      exact ih
    · rw [h]
      exact Action.passesOn_pure rfl

theorem fails_call (b : Builtin) (args : List Value) : (b.call args).Fails limit := by
  cases b with
  | len =>
    refine fails_withOne args fun v => ?_
    split <;> exact Action.fails_pure _
  | first | last => exact fails_withArray _ args fun elements => Action.fails_pure _
  | rest =>
    refine fails_withArray _ args fun elements => ?_
    split
    · exact Action.fails_pure _
    · exact Action.fails_newArray _
  | push =>
    simp only [call]
    split
    · exact Action.fails_newArray _
    · exact Action.fails_pure _
    · exact Action.fails_pure _
  | puts => exact fails_putAll args

end Builtin

end actions

namespace Eval
open Guarded

variable {limit : Nat} {ev : Scope → Expr → Action Value} (hev : ∀ scope e, (ev scope e).Fails limit)
include hev

theorem truncates_values (scope : Scope) (es : List Expr) :
    Truncates limit (fun _ => False) (values ev scope es) := by
  induction es with
  | nil => exact interrupts_pure _
  | cons e es ih =>
    exact (truncates_plain (hev scope e)).bind fun v => ih.bind fun vs => interrupts_pure _

theorem truncates_entries (scope : Scope) (pairs : List (Expr × Expr)) (acc : Entries) :
    Truncates limit (fun _ => False) (entries ev scope pairs acc) := by
  induction pairs generalizing acc with
  | nil => exact interrupts_pure _
  | cons pair pairs ih =>
    refine (truncates_plain (hev scope pair.1)).bind fun key => ?_
    split
    · exact interrupts_throw trivial
    · exact (truncates_plain (hev scope pair.2)).bind fun v => ih _

theorem fails_statement (scope : Scope) (s : Stmt) : (statement ev scope s).Fails limit := by
  cases s with
  | bind name e =>
    exact ((truncates_plain (hev scope e)).bind fun v =>
      (interrupts_lift (Action.truncates_define scope _ v) fun _ h => h).bind fun _ =>
        interrupts_pure v).result
  | give e => exact ((truncates_plain (hev scope e)).bind fun v => interrupts_pure _).result
  | expr e => exact hev scope e

/-- The failure is a signal, so it ends the block. -/
theorem fails_block (scope : Scope) (stmts : List Stmt) (last : Value) :
    (block ev scope stmts last).Fails limit := by
  induction stmts generalizing last with
  | nil => exact Action.fails_pure _
  | cons s stmts ih =>
    refine Action.Truncates.bind (fails_statement hev scope s) (fun v _ => ?_) fun v hv => ?_
    · split
      · exact Action.fails_pure v
      · exact ih v
    · rw [hv]
      exact Action.passesOn_pure rfl

/-- Unwrapping leaves the failure alone. -/
theorem fails_unwrapped (scope : Scope) (stmts : List Stmt) :
    Action.Fails limit (do return (← block ev scope stmts .null).unwrapped) := by
  refine Action.Truncates.bind (fails_block hev scope stmts .null) (fun v _ => Action.fails_pure _) ?_
  intro v hv
  rw [hv]
  exact Action.passesOn_pure rfl

theorem fails_program (scope : Scope) (stmts : List Stmt) : (program ev scope stmts).Fails limit :=
  fails_unwrapped hev scope stmts

omit hev in
theorem truncates_bindAll {cut : Unit → Prop} (scope : Scope) (params : List Ident)
    (args : List Value) : Action.Truncates limit (fun _ => True) cut (bindAll scope params args) := by
  induction params generalizing args with
  | nil => exact Action.truncates_pure trivial
  | cons p ps ih =>
    cases args with
    | nil => exact Action.truncates_pure trivial
    | cons v vs =>
      exact (Action.truncates_define scope p.name v).andThen fun _ _ => ih vs

theorem fails_apply (f : Value) (args : List Value) : (apply ev f args).Fails limit := by
  cases f with
  | function mark c =>
    rw [apply_function]
    split
    · exact Action.fails_pure _
    · exact (Action.truncates_newChild c.scope).andThen fun scope _ =>
        (truncates_bindAll scope c.params args).andThen fun _ _ => fails_unwrapped hev scope c.body
  | builtinAt _ b => exact Builtin.fails_call b args
  | _ => exact Action.fails_pure _

omit hev in
theorem fails_ident (scope : Scope) (name : String) : (ident scope name).Fails limit := by
  refine (Action.truncates_lookup? scope name).andThen fun found _ => ?_
  split
  · exact Action.fails_pure _
  · split <;> exact Action.fails_pure _

theorem fails_expression (scope : Scope) (e : Expr) : (expression ev scope e).Fails limit := by
  cases e with
  | ident id => exact fails_ident scope id.name
  | int n | string s | bool b => exact Action.fails_pure _
  | unary op right =>
    exact ((truncates_plain (hev scope right)).bind fun v => interrupts_pure _).result
  | binary left op right =>
    exact ((truncates_plain (hev scope left)).bind fun a =>
      (truncates_plain (hev scope right)).bind fun b => interrupts_pure _).result
  | cond test yes no =>
    refine ((truncates_plain (hev scope test)).bind fun v => ?_).result
    split
    · exact interrupts_lift (fails_block hev scope yes .null) fun _ h => h
    · split
      · exact interrupts_lift (fails_block hev scope _ .null) fun _ h => h
      · exact interrupts_pure _
  | function params body => exact Action.fails_newFunction _
  | call callee args =>
    exact ((truncates_plain (hev scope callee)).bind fun f =>
      (truncates_values hev scope args).bind fun vs =>
        interrupts_lift (fails_apply hev f vs) fun _ h => h).result
  | array elements =>
    exact ((truncates_values hev scope elements).bind fun vs =>
      interrupts_lift (Action.fails_newArray vs) fun _ h => h).result
  | index left index =>
    exact ((truncates_plain (hev scope left)).bind fun a =>
      (truncates_plain (hev scope index)).bind fun b => interrupts_pure _).result
  | hash pairs =>
    exact ((truncates_entries hev scope pairs []).bind fun es =>
      interrupts_lift (Action.fails_newHash es) fun _ h => h).result

end Eval

theorem fails_eval (limit depth : Nat) (scope : Scope) (e : Expr) : (eval depth scope e).Fails limit := by
  induction depth generalizing scope e with
  | zero =>
    intro m v m' _ h
    exact nomatch (h : none = some (v, m'))
  | succ depth ih => exact Eval.fails_expression ih scope e

namespace Shell

variable {limit : Nat}

/-- A limit only cuts off what the shell writes, which then fails with the error of the sink and else never
does. -/
def Truncates (limit : Nat) {α : Type} (x : Shell α) : Prop :=
  Interrupts limit .sinkFull (· ≠ .sinkFull) (fun _ => False) x

theorem run_accepted (act : Action Bool) :
    (accepted act).run = act >>= fun all => pure (if all then .ok () else .error .sinkFull) := by
  rw [accepted, Action.run_lift_bind]
  apply congrArg
  funext all
  cases all <;> rfl

theorem truncates_accepted {act : Action Bool} (h : act.Truncates limit (· = true) (· = false)) :
    Truncates limit (accepted act) := by
  unfold Truncates Interrupts
  rw [run_accepted]
  refine Action.Truncates.bind h (fun all h => ?_) fun all h => ?_
  · rw [h]
    exact Action.truncates_pure trivial
  · rw [h]
    exact Action.passesOn_pure rfl

theorem truncates_write (text : String) : Truncates limit (write text) :=
  truncates_accepted (Action.truncates_write text)

theorem truncates_writeLine (v : Value) : Truncates limit (writeLine v) :=
  truncates_accepted (Action.truncates_writeLine v)

theorem truncates_printErrors (errors : List String) : Truncates limit (printErrors errors) := by
  induction errors with
  | nil => exact interrupts_pure ()
  | cons e es ih => exact (truncates_write _).bind fun _ => ih

/-- A failure of the evaluation is found again when its result is to be shown. -/
theorem passesOn_writeLine {cut : Except IoError Unit → Prop} (hcut : cut (.error .sinkFull))
    {v : Value} (h : ∀ order, (v.line order).toUTF8.size ≠ 0) :
    Action.PassesOn cut (writeLine v).run := by
  intro n hn
  refine ⟨.error .sinkFull, n, ?_, hcut, rfl⟩
  rw [writeLine, run_accepted]
  refine Action.bind_eq_some.2 ⟨false, n, ?_, rfl⟩
  rw [Action.writeLine_apply, Action.write_apply, Sink.write_of_isFull hn (h n.order)]

theorem truncates_answer (depth : Nat) (scope : Scope) (line : String) :
    Truncates limit (answer depth scope line) := by
  refine (truncates_printErrors _).bind fun _ => ?_
  split
  · exact interrupts_pure ()
  · have hprogram := Eval.fails_program (fails_eval limit depth) scope (parse line).program
    unfold Interrupts
    rw [Action.run_lift_bind]
    refine Action.Truncates.bind hprogram (fun v _ => truncates_writeLine v) fun v hv => ?_
    rw [hv]
    apply passesOn_writeLine
    · rfl
    · intro order
      rw [sinkFailure, Value.line, Value.display]
      decide

theorem truncates_answerBytes (depth : Nat) (scope : Scope) (line : ByteArray) :
    Truncates limit (answerBytes depth scope line) := by
  unfold answerBytes
  split
  · exact truncates_answer depth scope _
  · exact interrupts_throw (by decide)

theorem truncates_converse (depth : Nat) (prompt : String) (scope : Scope) (lines : List (List UInt8)) :
    Truncates limit (converse depth prompt scope lines) := by
  induction lines with
  | nil => exact truncates_write prompt
  | cons line rest ih =>
    exact (truncates_write prompt).bind fun _ => (truncates_answerBytes depth scope _).bind fun _ => ih

theorem truncates_start (depth : Nat) (prompt : String) (input : ByteArray) :
    Truncates limit (start depth prompt input) :=
  (interrupts_lift Action.truncates_newGlobal fun _ h => h).bind fun scope =>
    truncates_converse depth prompt scope _

end Shell

theorem runSource_fits (limit depth : Nat) (source : String) :
    Action.Truncates limit (fun _ => True) (· = .ok sinkFailure) (runSource depth source) := by
  simp only [runSource]
  split
  · refine Action.truncates_newGlobal.andThen fun scope _ => ?_
    refine Action.Truncates.bind (Eval.fails_program (fails_eval limit depth) scope _) ?_ fun v hv => ?_
    · exact fun v _ => Action.truncates_pure trivial
    · rw [hv]
      exact Action.passesOn_pure rfl
  · exact Action.truncates_pure trivial

/-- What a limit makes of a run that ends: the output is cut off at the limit, and only a run that does not
fit ends differently. -/
theorem Action.Truncates.run {α : Type} {limit : Nat} {kept cut : α → Prop} {x : Action α}
    (hx : x.Truncates limit kept cut) {order : Arrangement} {a : α} {m : Machine}
    (h : x (.new none order) = some (a, m)) :
    ∃ b m', x (.new (some limit) order) = some (b, m') ∧
      m'.sink.written = m.sink.written.extract 0 (min limit m.sink.written.size) ∧
      (m.sink.written.size ≤ limit → b = a ∧ kept a) ∧ (limit < m.sink.written.size → cut b) := by
  have hcut := hx _ a m rfl h
  by_cases hfits : m.sink.written.size ≤ limit
  · refine ⟨a, m.limited limit, hcut.fits hfits, ?_, fun _ => ⟨rfl, hcut.kept⟩, fun hover => by omega⟩
    rw [Nat.min_eq_right hfits, ByteArray.extract_zero_size]
    rfl
  · have hover : limit < m.sink.written.size := by omega
    obtain ⟨b, m', hb, hcutb, hm'⟩ := hcut.overflows (Nat.zero_le _) hover
    refine ⟨b, m', hb, ?_, fun h => absurd h hfits, fun _ => hcutb⟩
    rw [hm', Nat.min_eq_left (Nat.le_of_lt hover)]

/-- A sink that fails after some bytes only cuts off the output. A script whose output does not fit ends with
an error that tells why, a conversation fails with the error of the sink, and all others end as they would. -/
theorem limit_truncates (limit : Nat) (order : Arrangement) (depth : Nat) :
    (∀ source result m, runSource depth source (.new none order) = some (result, m) →
      ∃ m', runSource depth source (.new (some limit) order) =
          some (if m.sink.written.size ≤ limit then result else .ok sinkFailure, m') ∧
        m'.sink.written = m.sink.written.extract 0 (min limit m.sink.written.size)) ∧
    (∃ e, sinkFailure = .error e ∧ e.message = "could not write output: sink full") ∧
    ∀ prompt input outcome m, (Shell.start depth prompt input).run (.new none order) = some (outcome, m) →
      ∃ outcome' m', (Shell.start depth prompt input).run (.new (some limit) order) = some (outcome', m') ∧
        m'.sink.written = m.sink.written.extract 0 (min limit m.sink.written.size) ∧
        (outcome' = .error .sinkFull ↔ limit < m.sink.written.size) ∧
        (m.sink.written.size ≤ limit → outcome' = outcome) := by
  refine ⟨fun source result m h => ?_, ⟨_, rfl, rfl⟩, fun prompt input outcome m h => ?_⟩
  · obtain ⟨b, m', hb, hwritten, hfits, hover⟩ := (runSource_fits limit depth source).run h
    refine ⟨m', ?_, hwritten⟩
    split
    · next hle => rw [hb, (hfits hle).1]
    · next hlt => rw [hb, hover (by omega)]
  · have hstart : Shell.Truncates limit (Shell.start depth prompt input) :=
      Shell.truncates_start depth prompt input
    obtain ⟨b, m', hb, hwritten, hfits, hover⟩ := Action.Truncates.run hstart h
    refine ⟨b, m', hb, hwritten, ⟨fun hfull => ?_, fun hlt => ?_⟩, fun hle => (hfits hle).1⟩
    -- without a limit the shell never fails in this way
    · refine Nat.lt_of_not_le fun hle => ?_
      obtain ⟨rfl, hkept⟩ := hfits hle
      rw [hfull] at hkept
      exact hkept rfl
    · have hfailed := hover hlt
      cases b with
      | ok u => exact hfailed.elim
      | error e => exact congrArg Except.error hfailed

/-- A line of the output is cut within. What is evaluated after it writes nothing, and the shell fails where it
would show the error. -/
theorem limit_truncates_within_line :
    let source := "puts(12);puts(5)"
    let input := "puts(12)\n".toUTF8
    (∃ m m', runSource 3 source (.new none) = some (.ok .null, m) ∧
      m.sink.written = "12\n5\n".toUTF8 ∧
      runSource 3 source (.new (some 1)) = some (.ok sinkFailure, m') ∧
      m'.sink.written = "1".toUTF8) ∧
    ∃ m m', (Shell.start 3 ">" input).run (.new none) = some (.ok (), m) ∧
      m.sink.written = ">12\nnull\n>".toUTF8 ∧
      (Shell.start 3 ">" input).run (.new (some 2)) = some (.error .sinkFull, m') ∧
      m'.sink.written = ">1".toUTF8 := by
  intro source input
  have hrun : ∃ m, runSource 3 source (.new none) = some (.ok .null, m) ∧
      m.sink.written = "12\n5\n".toUTF8 := ⟨_, by cbv, by cbv⟩
  have htalk : ∃ m, (Shell.start 3 ">" input).run (.new none) = some (.ok (), m) ∧
      m.sink.written = ">12\nnull\n>".toUTF8 := ⟨_, by cbv, by cbv⟩
  obtain ⟨m, hm, hwritten⟩ := hrun
  obtain ⟨n, hn, hshown⟩ := htalk
  obtain ⟨m', hm', hcut⟩ := (limit_truncates 1 .sorted 3).1 source (.ok .null) m hm
  obtain ⟨outcome, n', hn', hcut', hfailed, -⟩ := (limit_truncates 2 .sorted 3).2.2 ">" input (.ok ()) n hn
  rw [hwritten] at hm' hcut
  rw [hshown] at hcut' hfailed
  refine ⟨⟨m, m', hm, hwritten, hm', hcut.trans ?_⟩, n, n', hn, hshown, ?_, hcut'.trans ?_⟩
  · decide
  · rw [hn', hfailed.2 (by decide)]
  · decide

end Monkey
