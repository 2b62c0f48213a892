import Monkey.Proofs.Arrangement
import Monkey.Proofs.Trace

namespace Monkey

/-- The values that are to be shown in an event. Only `puts` shows any. -/
def Event.shown : Event → List Value
  | .builtin .puts args => args
  | _ => []

/-- All values that are to be shown in the course of a run, one after the other. -/
def shownIn (seen : List Event) : List Value :=
  seen.flatMap Event.shown

/-- No hash with two or more pairs is shown in the course of a run, nor in its result. -/
def ShowsNoLargeHash (run : List Event × Option (Value × Machine)) : Prop :=
  (∀ v ∈ shownIn run.1, v.showsLargeHash = false) ∧ ∀ v n, run.2 = some (v, n) → v.showsLargeHash = false

theorem shownIn_append (seen rest : List Event) : shownIn (seen ++ rest) = shownIn seen ++ shownIn rest :=
  List.flatMap_append

theorem shownIn_singleton (event : Event) : shownIn [event] = event.shown :=
  List.flatMap_singleton Event.shown event

namespace Sink

theorem write_of_left_eq_zero {s : Sink} (h : s.left = some 0) (text : String) : (s.write text).2 = s := by
  have hroom : s.room = 0 := by
    rw [room_eq_left, h]
    rfl
  unfold write
  dsimp only
  split
  · next haccepts =>
    have hsize : text.toUTF8.size = 0 := Nat.le_zero.1 ((accepts_iff_left s _).1 haccepts 0 h)
    rw [ByteArray.size_eq_zero_iff.1 hsize, ByteArray.append_empty]
  · rw [hroom, ByteArray.extract_same, ByteArray.append_empty]

/-- A sink that has refused a text takes nothing more. -/
theorem writeAll_of_refused {s : Sink} {text : String} (h : (s.write text).1 = false) (texts : List String) :
    (s.write text).2.writeAll texts = (s.write text).2 := by
  have hleft : (s.write text).2.left = some 0 := by
    unfold write at h ⊢
    dsimp only at h ⊢
    split at h
    · exact nomatch h
    · next hrefused =>
      obtain ⟨n, hn, hlt⟩ : ∃ n ∈ s.left, n < text.toUTF8.size := by
        simpa [accepts_iff_left] using hrefused
      rw [if_neg hrefused, left_written, room_eq_left, Option.mem_def.1 hn, Option.map_some, Option.getD_some,
        ByteArray.size_extract]
      exact congrArg some (by omega)
  generalize (s.write text).2 = t at hleft
  induction texts with
  | nil => rfl
  | cons more texts ih => rw [writeAll, write_of_left_eq_zero hleft, ih]

end Sink

namespace Action

variable {α β : Type}

/-- The action writes nothing, and the order of hashes stays as it is. -/
def Silent (x : Action α) : Prop :=
  ∀ m a n, x m = some (a, n) → m.Shows n []

theorem silent_pure (a : α) : Silent (pure a) := by
  intro m b n h
  obtain ⟨-, rfl⟩ := pure_eq_some.1 h
  exact .nil rfl rfl

theorem Silent.bind {x : Action α} {f : α → Action β} (hx : x.Silent) (hf : ∀ a, (f a).Silent) : (x >>= f).Silent := by
  intro m b n h
  obtain ⟨a, m₁, hxm, hfm⟩ := bind_eq_some.1 h
  exact (hx m a m₁ hxm).trans (hf a m₁ b n hfm)

theorem silent_lookup? (scope : Scope) (name : String) : (lookup? scope name).Silent := by
  intro m found n h
  obtain ⟨-, rfl⟩ := lookup?_eq_some.1 h
  exact .nil rfl rfl

theorem silent_define (scope : Scope) (name : String) (v : Value) : (define scope name v).Silent := by
  intro m u n h
  obtain rfl := define_eq_some.1 h
  exact .nil rfl rfl

theorem silent_newGlobal : newGlobal.Silent := by
  intro m scope n h
  obtain ⟨-, rfl⟩ := newGlobal_eq_some.1 h
  exact .nil rfl rfl

theorem silent_newChild (outer : Scope) : (newChild outer).Silent := by
  intro m scope n h
  obtain ⟨-, rfl⟩ := newChild_eq_some.1 h
  exact .nil rfl rfl

theorem silent_newMark : newMark.Silent := by
  intro m mark n h
  obtain ⟨-, rfl⟩ := newMark_eq_some.1 h
  exact .nil rfl rfl

theorem silent_newArray (vs : List Value) : (newArray vs).Silent :=
  silent_newMark.bind fun _ => silent_pure _

theorem silent_newHash (es : Entries) : (newHash es).Silent :=
  silent_newMark.bind fun _ => silent_pure _

theorem silent_newFunction (c : Closure) : (newFunction c).Silent :=
  silent_newMark.bind fun _ => silent_pure _

end Action

namespace Builtin
open Monkey.Action

theorem silent_withOne (args : List Value) {f : Value → Action Value} (hf : ∀ v, (f v).Silent) :
    (withOne args f).Silent := by
  unfold withOne
  split
  · exact hf _
  · exact silent_pure _

theorem silent_withArray (b : Builtin) (args : List Value) {f : List Value → Action Value}
    (hf : ∀ vs, (f vs).Silent) : (withArray b args f).Silent := by
  refine silent_withOne args fun v => ?_
  split
  · exact hf _
  · exact silent_pure _

/-- Where the output takes no more, what is left to show makes no difference. -/
theorem shows_putAll {args : List Value} {m n : Machine} {v : Value} (h : putAll args m = some (v, n)) :
    m.Shows n args := by
  induction args generalizing m with
  | nil => exact silent_pure _ m v n h
  | cons w args ih =>
    obtain ⟨accepted, m₁, hwrite, hrest⟩ := bind_eq_some.1 h
    obtain ⟨haccepted, rfl⟩ := write_eq_some.1 hwrite
    split at hrest
    · have hfirst : m.Shows { m with sink := (m.sink.write (w.line m.order)).2 } [w] := ⟨rfl, rfl⟩
      exact hfirst.trans (ih hrest)
    · next hrefused =>
      obtain ⟨-, rfl⟩ := pure_eq_some.1 hrest
      rw [Bool.not_eq_true] at hrefused
      exact ⟨rfl, (Sink.writeAll_of_refused (haccepted.trans hrefused) _).symm⟩

theorem shows_call {b : Builtin} {args : List Value} {m n : Machine} {v : Value} (h : b.call args m = some (v, n)) :
    m.Shows n (Event.builtin b args).shown := by
  cases b with
  | puts => exact shows_putAll h
  | len =>
    refine silent_withOne args (fun w => ?_) m v n h
    split <;> exact silent_pure _
  | first | last => exact silent_withArray _ args (fun _ => silent_pure _) m v n h
  | rest =>
    refine silent_withArray _ args (fun vs => ?_) m v n h
    split
    · exact silent_pure _
    · exact silent_newArray _
  | push =>
    have hsilent : (call push args).Silent := by
      unfold call
      dsimp only
      split
      · exact silent_newArray _
      · exact silent_pure _
      · exact silent_pure _
    exact hsilent m v n h

end Builtin

namespace Traced

variable {α β : Type}

/-- What a run writes is what is shown in its events. -/
def Tells (x : Traced α) : Prop :=
  ∀ m a n, x.action m = some (a, n) → m.Shows n (shownIn (x m).1)

theorem tells_pure (a : α) : Tells (pure a) :=
  Action.silent_pure a

theorem Tells.bind {x : Traced α} {f : α → Traced β} (hx : x.Tells) (hf : ∀ a, (f a).Tells) : (x >>= f).Tells := by
  intro m b n h
  rw [action_bind] at h
  obtain ⟨a, m₁, hxm, hfm⟩ := Action.bind_eq_some.1 h
  rw [bind_of_some (Prod.ext rfl hxm : x m = ((x m).1, some (a, m₁))), shownIn_append]
  exact (hx m a m₁ hxm).trans (hf a m₁ b n hfm)

theorem tells_step {x : Action α} (hx : x.Silent) : Tells (Host.step x) := by
  intro m a n h
  rw [action_step] at h
  have hrun : (Host.step x : Traced α) m = ([.reached n], some (a, n)) := by
    change step x m = _
    rw [step, h]
  rw [hrun]
  exact hx m a n h

theorem Tells.noting {x : Traced α} (hx : x.Tells) {event : α → Event} (hevent : ∀ a, (event a).shown = []) :
    Tells (Host.noting event x) := by
  refine hx.bind fun a m b n h => ?_
  obtain ⟨-, rfl⟩ := Action.pure_eq_some.1 h
  change m.Shows m (shownIn [event a])
  rw [shownIn_singleton, hevent]
  exact .nil rfl rfl

theorem Tells.before {x : Traced α} (hx : x.Tells) {event : Event} (hevent : event.shown = []) :
    Tells (Host.before event x) := by
  intro m a n h
  change m.Shows n (shownIn ([event] ++ (x m).1))
  rw [shownIn_append, shownIn_singleton, hevent]
  exact hx m a n h

theorem tells_builtin (b : Builtin) (args : List Value) :
    Tells (Host.before (.builtin b args) (Host.step (b.call args))) := by
  intro m v n h
  have hcall : b.call args m = some (v, n) := by rwa [action_before, action_step] at h
  have hrun : (Host.before (.builtin b args) (Host.step (b.call args)) : Traced Value) m =
      ([.builtin b args, .reached n], some (v, n)) := by
    change ([Event.builtin b args] ++ (step (b.call args) m).1, (step (b.call args) m).2) = _
    rw [step, hcall]
    rfl
  rw [hrun, ← List.singleton_append, shownIn_append, shownIn_singleton]
  exact (Builtin.shows_call hcall).trans (.nil rfl rfl)

section guarded

variable {g : ExceptT Value Traced α} {f : α → ExceptT Value Traced β} {x : Traced Value}

theorem Tells.run_bind (hg : Tells g.run) (hf : ∀ a, Tells (f a).run) : Tells (g >>= f).run := by
  refine Tells.bind hg fun out => ?_
  cases out with
  | ok a => exact hf a
  | error v => exact tells_pure _

theorem Tells.run_lift {y : Traced α} (hy : y.Tells) : Tells (y : ExceptT Value Traced α).run :=
  hy.bind fun _ => tells_pure _

theorem Tells.run_plain (hx : x.Tells) : Tells (Guarded.plain x).run := by
  refine hx.run_lift.run_bind fun v => ?_
  split
  · exact tells_pure (Except.error v)
  · exact tells_pure (Except.ok v)

theorem Tells.result {g : ExceptT Value Traced Value} (hg : Tells g.run) : Tells (Guarded.result g) := by
  refine hg.bind fun out => ?_
  cases out <;> exact tells_pure _

theorem tells_run_before {event : Event} (hevent : event.shown = []) (v : Value) :
    Tells (Guarded.before event (pure v : ExceptT Value Traced Value)).run :=
  (tells_pure (Except.ok v)).before hevent

end guarded

section eval
open Eval

variable {ev : Scope → Expr → Traced Value} (hev : ∀ scope e, (ev scope e).Tells)
include hev

theorem tells_values (scope : Scope) (es : List Expr) : Tells (values ev scope es).run := by
  induction es with
  | nil => exact tells_pure (Except.ok [])
  | cons e es ih =>
    exact (hev scope e).run_plain.run_bind fun v => Tells.run_bind ih fun vs => tells_pure (Except.ok (v :: vs))

theorem tells_entries (scope : Scope) (pairs : List (Expr × Expr)) (acc : Entries) :
    Tells (entries ev scope pairs acc).run := by
  induction pairs generalizing acc with
  | nil => exact tells_pure (Except.ok acc)
  | cons pair pairs ih =>
    refine (hev scope pair.1).run_plain.run_bind fun key => ?_
    split
    · exact tells_pure (Except.error _)
    · exact (hev scope pair.2).run_plain.run_bind fun v => ih _

theorem tells_statement (scope : Scope) (s : Stmt) : Tells (statement ev scope s) := by
  cases s with
  | bind name e =>
    refine Tells.noting (Tells.result ?_) fun _ => rfl
    refine (hev scope e).run_plain.run_bind fun v => ?_
    exact (tells_step (Action.silent_define scope name.name v)).run_lift.run_bind fun _ => tells_pure (Except.ok v)
  | give e =>
    refine Tells.noting (Tells.result ?_) fun _ => rfl
    exact (hev scope e).run_plain.run_bind fun v => tells_pure (Except.ok _)
  | expr e => exact hev scope e

theorem tells_block (scope : Scope) (stmts : List Stmt) (last : Value) : Tells (block ev scope stmts last) := by
  induction stmts generalizing last with
  | nil => exact tells_pure last
  | cons s stmts ih =>
    refine (tells_statement hev scope s).bind fun v => ?_
    split
    · exact tells_pure v
    · exact ih v

theorem tells_program (scope : Scope) (stmts : List Stmt) : Tells (program ev scope stmts) :=
  ((tells_block hev scope stmts .null).bind fun _ => tells_pure _).noting fun _ => rfl

omit hev in
theorem tells_bindAll (scope : Scope) (params : List Ident) (args : List Value) :
    Tells (bindAll scope params args) := by
  induction params generalizing args with
  | nil => exact tells_pure ()
  | cons p ps ih =>
    cases args with
    | nil => exact tells_pure ()
    | cons v vs => exact (tells_step (Action.silent_define scope p.name v)).bind fun _ => ih vs

theorem tells_apply (f : Value) (args : List Value) : Tells (apply ev f args) := by
  refine Tells.before (Tells.noting ?_ fun _ => rfl) rfl
  cases f with
  | function mark c =>
    dsimp only
    split
    · exact tells_pure _
    · refine (tells_step (Action.silent_newChild c.scope)).bind fun scope => ?_
      refine (tells_bindAll scope c.params args).bind fun _ => ?_
      exact (tells_block hev scope c.body .null).bind fun _ => tells_pure _
  | builtinAt ref b => exact tells_builtin b args
  | _ => exact tells_pure _

theorem tells_expression (scope : Scope) (e : Expr) : Tells (expression ev scope e) := by
  cases e with
  | ident id =>
    refine tells_step ((Action.silent_lookup? scope id.name).bind fun found => ?_)
    split
    · exact Action.silent_pure _
    · split <;> exact Action.silent_pure _
  | int n | string s | bool b => exact tells_pure _
  | unary op right =>
    exact ((hev scope right).run_plain.run_bind fun v => tells_run_before rfl _).result
  | binary left op right | index left right =>
    exact ((hev scope left).run_plain.run_bind fun a => (hev scope right).run_plain.run_bind fun b =>
      tells_run_before rfl _).result
  | cond test yes no =>
    refine ((hev scope test).run_plain.run_bind fun v => ?_).result
    split
    · exact (tells_block hev scope yes .null).run_lift
    · split
      · exact (tells_block hev scope _ .null).run_lift
      · exact tells_pure (Except.ok _)
  | function params body => exact tells_step (Action.silent_newFunction _)
  | call callee args =>
    exact ((hev scope callee).run_plain.run_bind fun f => (tells_values hev scope args).run_bind fun vs =>
      (tells_apply hev f vs).run_lift).result
  | array elements =>
    exact ((tells_values hev scope elements).run_bind fun vs =>
      (tells_step (Action.silent_newArray vs)).run_lift).result
  | hash pairs =>
    exact ((tells_entries hev scope pairs []).run_bind fun es =>
      (tells_step (Action.silent_newHash es)).run_lift).result

end eval

/-- Evaluation writes what `puts` is called with, whatever the depth. -/
theorem tells_eval (depth : Nat) (scope : Scope) (e : Expr) : Tells (eval depth scope e) := by
  induction depth generalizing scope e with
  | zero => exact fun _ _ _ h => nomatch h
  | succ depth ih => exact (tells_expression ih scope e).noting fun _ => rfl

end Traced

end Monkey
