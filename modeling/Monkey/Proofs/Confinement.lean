import Monkey.Eval

namespace Monkey

/-- What an evaluation may do to a machine. It binds names in frames that it makes itself and in `own`, it
moves no scope to another place, it takes back nothing that was written, and it lets hashes be shown as before. -/
structure Machine.Grows (own : Option Nat) (m m' : Machine) : Prop where
  size_le : m.store.frames.size ≤ m'.store.frames.size
  bindings_eq : ∀ frame < m.store.frames.size, some frame ≠ own →
    m'.store.bindings frame = m.store.bindings frame
  outer_eq : ∀ frame < m.store.frames.size, m'.store.outer? frame = m.store.outer? frame
  written_eq : ∃ more, m'.sink.written = m.sink.written ++ more
  order_eq : m'.order = m.order

namespace Machine.Grows

variable {own : Option Nat} {m m₁ m₂ : Machine}

theorem refl (own : Option Nat) (m : Machine) : m.Grows own m where
  size_le := Nat.le_refl _
  bindings_eq _ _ _ := rfl
  outer_eq _ _ := rfl
  written_eq := ⟨.empty, by simp⟩
  order_eq := rfl

theorem trans (h₁ : m.Grows own m₁) (h₂ : m₁.Grows own m₂) : m.Grows own m₂ where
  size_le := Nat.le_trans h₁.size_le h₂.size_le
  bindings_eq frame hf hown := by
    rw [h₂.bindings_eq frame (Nat.lt_of_lt_of_le hf h₁.size_le) hown, h₁.bindings_eq frame hf hown]
  outer_eq frame hf := by
    rw [h₂.outer_eq frame (Nat.lt_of_lt_of_le hf h₁.size_le), h₁.outer_eq frame hf]
  written_eq := by
    obtain ⟨more₁, hw₁⟩ := h₁.written_eq
    obtain ⟨more₂, hw₂⟩ := h₂.written_eq
    exact ⟨more₁ ++ more₂, by rw [hw₂, hw₁, ByteArray.append_assoc]⟩
  order_eq := h₂.order_eq.trans h₁.order_eq

/-- Old frames that no one may bind names in are safe from those who may bind in `own`. -/
theorem weaken (h : m.Grows none m₁) (own : Option Nat) : m.Grows own m₁ where
  size_le := h.size_le
  bindings_eq frame hf _ := h.bindings_eq frame hf (by simp)
  outer_eq := h.outer_eq
  written_eq := h.written_eq
  order_eq := h.order_eq

/-- Names bound in a frame that was not there before change nothing that was. -/
theorem forget {frame : Nat} (h : m.Grows (some frame) m₁) (hframe : m.store.frames.size ≤ frame) :
    m.Grows none m₁ where
  size_le := h.size_le
  bindings_eq other hother _ := by
    refine h.bindings_eq other hother ?_
    rw [ne_eq, Option.some_inj]
    omega
  outer_eq := h.outer_eq
  written_eq := h.written_eq
  order_eq := h.order_eq

end Machine.Grows

namespace Action

variable {α β : Type}

/-- Whatever machine the action starts in, it binds names in no old frame but `own`. -/
def Confined (own : Option Nat) (x : Action α) : Prop :=
  ∀ m a m', x m = some (a, m') → m.Grows own m'

variable {own : Option Nat}

theorem confined_pure (a : α) : Confined own (pure a) := by
  intro m b m' h
  obtain ⟨-, rfl⟩ := pure_eq_some.1 h
  exact .refl own m

theorem Confined.bind {x : Action α} {f : α → Action β} (hx : Confined own x)
    (hf : ∀ a, Confined own (f a)) : Confined own (x >>= f) := by
  intro m b m' h
  obtain ⟨a, m₁, hxa, hfa⟩ := bind_eq_some.1 h
  exact (hx m a m₁ hxa).trans (hf a m₁ b m' hfa)

theorem Confined.weaken {x : Action α} (hx : Confined none x) : Confined own x := by
  intro m a m' h
  exact (hx m a m' h).weaken own

theorem confined_lookup? (scope : Scope) (name : String) : Confined own (lookup? scope name) := by
  intro m v m' h
  obtain ⟨-, rfl⟩ := lookup?_eq_some.1 h
  exact .refl own m

theorem confined_define (scope : Scope) (name : String) (v : Value) :
    Confined (some scope.frame) (define scope name v) := by
  intro m u m' h
  obtain rfl := define_eq_some.1 h
  constructor
  · exact Nat.le_of_eq (Store.size_set ..).symm
  · intro frame _ hown
    rw [Store.bindings_set, if_neg fun hf => hown (congrArg some hf.1)]
  · intro frame _
    exact Store.outer?_set ..
  · exact ⟨.empty, by simp⟩
  · rfl

theorem confined_newMark : Confined own newMark := by
  intro m n m' h
  obtain ⟨-, rfl⟩ := newMark_eq_some.1 h
  exact ⟨Nat.le_refl _, fun _ _ _ => rfl, fun _ _ => rfl, ⟨.empty, by simp⟩, rfl⟩

theorem confined_write (text : String) : Confined own (write text) := by
  intro m b m' h
  obtain ⟨-, rfl⟩ := write_eq_some.1 h
  exact ⟨Nat.le_refl _, fun _ _ _ => rfl, fun _ _ => rfl, ⟨_, Sink.written_write ..⟩, rfl⟩

theorem confined_writeLine (v : Value) : Confined own (writeLine v) :=
  fun m => confined_write (v.line m.order) m

/-- A new scope is one that was not there before, and the old ones stay where they are. -/
theorem newChild_grows {outer scope : Scope} {m m' : Machine}
    (h : newChild outer m = some (scope, m')) :
    m.Grows none m' ∧ scope.frame = m.store.frames.size := by
  obtain ⟨rfl, rfl⟩ := newChild_eq_some.1 h
  refine ⟨?_, rfl⟩
  constructor
  · rw [Store.newChild, Store.size_push]
    exact Nat.le_succ _
  · intro frame _ _
    rw [Store.newChild, Store.bindings_push]
  · intro frame hf
    rw [Store.newChild, Store.outer?_push, if_neg (Nat.ne_of_lt hf)]
  · exact ⟨.empty, by simp⟩
  · rfl

theorem confined_newArray (elements : List Value) : Confined own (newArray elements) :=
  confined_newMark.bind fun _ => confined_pure _

theorem confined_newHash (entries : Entries) : Confined own (newHash entries) :=
  confined_newMark.bind fun _ => confined_pure _

theorem confined_newFunction (closure : Closure) : Confined own (newFunction closure) :=
  confined_newMark.bind fun _ => confined_pure _

end Action

namespace Guarded

variable {α β : Type} {own : Option Nat}

/-- Whatever machine the evaluation starts in, it binds names in no old frame but `own`. -/
def Confined (own : Option Nat) (g : Guarded α) : Prop :=
  Action.Confined own g.run

theorem confined_pure (a : α) : Confined own (pure a) :=
  Action.confined_pure _

theorem confined_throw (v : Value) : Confined own (throw v : Guarded α) :=
  Action.confined_pure _

theorem Confined.bind {g : Guarded α} {f : α → Guarded β} (hg : Confined own g)
    (hf : ∀ a, Confined own (f a)) : Confined own (g >>= f) := by
  refine Action.Confined.bind hg fun out => ?_
  cases out with
  | ok a => exact hf a
  | error v => exact Action.confined_pure _

theorem confined_lift {x : Action α} (hx : x.Confined own) : Confined own (x : Guarded α) :=
  hx.bind fun _ => Action.confined_pure _

theorem confined_plain {x : Action Value} (hx : x.Confined own) : Confined own (plain x) := by
  refine (confined_lift hx).bind fun v => ?_
  split
  · exact confined_throw v
  · exact confined_pure v

theorem Confined.result {g : Guarded Value} (hg : Confined own g) : (result g).Confined own := by
  refine Action.Confined.bind hg fun out => ?_
  cases out with
  | ok v | error v => exact Action.confined_pure v

end Guarded

theorem Builtin.confined_putAll {own : Option Nat} (args : List Value) : (putAll args).Confined own := by
  induction args with
  | nil => exact Action.confined_pure _
  | cons v args ih =>
    refine (Action.confined_writeLine v).bind fun accepted => ?_
    split
    · exact ih
    · exact Action.confined_pure _

theorem Builtin.confined_withOne {own : Option Nat} (args : List Value) {f : Value → Action Value}
    (hf : ∀ v, (f v).Confined own) : (withOne args f).Confined own := by
  unfold withOne
  split
  · exact hf _
  · exact Action.confined_pure _

theorem Builtin.confined_withArray {own : Option Nat} (b : Builtin) (args : List Value)
    {f : List Value → Action Value} (hf : ∀ elements, (f elements).Confined own) :
    (withArray b args f).Confined own := by
  refine confined_withOne args fun v => ?_
  split
  · exact hf _
  · exact Action.confined_pure _

theorem Builtin.confined_call {own : Option Nat} (b : Builtin) (args : List Value) :
    (b.call args).Confined own := by
  cases b with
  | len =>
    refine confined_withOne args fun v => ?_
    split <;> exact Action.confined_pure _
  | first | last => exact confined_withArray _ args fun elements => Action.confined_pure _
  | rest =>
    refine confined_withArray _ args fun elements => ?_
    split
    · exact Action.confined_pure _
    · exact Action.confined_newArray _
  | push =>
    simp only [call]
    split
    · exact Action.confined_newArray _
    · exact Action.confined_pure _
    · exact Action.confined_pure _
  | puts => exact confined_putAll args

namespace Eval
open Guarded

variable {ev : Scope → Expr → Action Value} (hev : ∀ scope e, (ev scope e).Confined (some scope.frame))
include hev

theorem confined_values (scope : Scope) (es : List Expr) :
    Guarded.Confined (some scope.frame) (values ev scope es) := by
  induction es with
  | nil => exact confined_pure _
  | cons e es ih =>
    exact (confined_plain (hev scope e)).bind fun v => ih.bind fun vs => confined_pure _

theorem confined_entries (scope : Scope) (pairs : List (Expr × Expr)) (acc : Entries) :
    Guarded.Confined (some scope.frame) (entries ev scope pairs acc) := by
  induction pairs generalizing acc with
  | nil => exact confined_pure _
  | cons pair pairs ih =>
    refine (confined_plain (hev scope pair.1)).bind fun key => ?_
    split
    · exact confined_throw _
    · exact (confined_plain (hev scope pair.2)).bind fun v => ih _

theorem confined_statement (scope : Scope) (s : Stmt) :
    (statement ev scope s).Confined (some scope.frame) := by
  cases s with
  | bind name e =>
    exact ((confined_plain (hev scope e)).bind fun v =>
      (confined_lift (Action.confined_define scope _ v)).bind fun _ => confined_pure v).result
  | give e => exact ((confined_plain (hev scope e)).bind fun v => confined_pure _).result
  | expr e => exact hev scope e

theorem confined_block (scope : Scope) (stmts : List Stmt) (last : Value) :
    (block ev scope stmts last).Confined (some scope.frame) := by
  induction stmts generalizing last with
  | nil => exact Action.confined_pure _
  | cons s stmts ih =>
    refine (confined_statement hev scope s).bind fun v => ?_
    split
    · exact Action.confined_pure v
    · exact ih v

theorem confined_program (scope : Scope) (stmts : List Stmt) :
    (program ev scope stmts).Confined (some scope.frame) :=
  (confined_block hev scope stmts .null).bind fun _ => Action.confined_pure _

omit hev in
theorem confined_bindAll (scope : Scope) (params : List Ident) (args : List Value) :
    Action.Confined (some scope.frame) (bindAll scope params args) := by
  fun_induction bindAll (M := Action) scope params args with
  | case1 p ps v vs ih => exact (Action.confined_define scope p.name v).bind fun _ => ih
  | case2 => exact Action.confined_pure _

/-- The body of a function is evaluated in a frame made for the call, so old frames keep their names. -/
theorem confined_apply (f : Value) (args : List Value) : (apply ev f args).Confined none := by
  cases f with
  | function mark c =>
    rw [apply_function]
    split
    · exact Action.confined_pure _
    · intro m v m' h
      obtain ⟨scope, m₁, hchild, hbody⟩ := Action.bind_eq_some.1 h
      have hgrows := Action.newChild_grows hchild
      have hinner := ((confined_bindAll scope c.params args).bind fun _ =>
        (confined_block hev scope c.body .null).bind fun _ => Action.confined_pure _) m₁ v m' hbody
      -- hence only the new frame may have got names, and it is none of the old ones
      exact ((hgrows.1.weaken _).trans hinner).forget (Nat.le_of_eq hgrows.2.symm)
  | builtinAt ref b => exact Builtin.confined_call b args
  | _ => exact Action.confined_pure _

omit hev in
theorem confined_ident {own : Option Nat} (scope : Scope) (name : String) :
    (ident scope name).Confined own := by
  refine (Action.confined_lookup? scope name).bind fun found => ?_
  split
  · exact Action.confined_pure _
  · split <;> exact Action.confined_pure _

theorem confined_expression (scope : Scope) (e : Expr) :
    (expression ev scope e).Confined (some scope.frame) := by
  cases e with
  | ident id => exact confined_ident scope id.name
  | int n | string s | bool b => exact Action.confined_pure _
  | unary op right => exact ((confined_plain (hev scope right)).bind fun v => confined_pure _).result
  | binary left op right =>
    exact ((confined_plain (hev scope left)).bind fun a =>
      (confined_plain (hev scope right)).bind fun b => confined_pure _).result
  | cond test yes no =>
    refine ((confined_plain (hev scope test)).bind fun v => ?_).result
    split
    · exact confined_lift (confined_block hev scope yes .null)
    · split
      · exact confined_lift (confined_block hev scope _ .null)
      · exact confined_pure _
  | function params body => exact Action.confined_newFunction _
  | call callee args =>
    exact ((confined_plain (hev scope callee)).bind fun f =>
      (confined_values hev scope args).bind fun vs =>
        confined_lift (confined_apply hev f vs).weaken).result
  | array elements =>
    exact ((confined_values hev scope elements).bind fun vs =>
      confined_lift (Action.confined_newArray vs)).result
  | index left index =>
    exact ((confined_plain (hev scope left)).bind fun a =>
      (confined_plain (hev scope index)).bind fun b => confined_pure _).result
  | hash pairs =>
    exact ((confined_entries hev scope pairs []).bind fun es =>
      confined_lift (Action.confined_newHash es)).result

end Eval

theorem confined_eval (depth : Nat) (scope : Scope) (e : Expr) :
    (eval depth scope e).Confined (some scope.frame) := by
  induction depth generalizing scope e with
  | zero =>
    intro m v m' h
    exact nomatch (h : none = some (v, m'))
  | succ depth ih => exact Eval.confined_expression ih scope e

/-- A call changes no frame that was there before it. Evaluation in a scope changes, of the frames that were
there, only that of the scope itself. -/
theorem calls_keep_frames (depth : Nat) (m m' : Machine) (v : Value) :
    (∀ f args, Eval.apply (eval depth) f args m = some (v, m') → m.Grows none m') ∧
      ∀ scope,
        (∀ e, eval depth scope e m = some (v, m') → m.Grows (some scope.frame) m') ∧
        (∀ s, Eval.statement (eval depth) scope s m = some (v, m') → m.Grows (some scope.frame) m') ∧
        ∀ stmts, Eval.program (eval depth) scope stmts m = some (v, m') →
          m.Grows (some scope.frame) m' := by
  have hev := confined_eval depth
  refine ⟨fun f args h => Eval.confined_apply hev f args m v m' h, fun scope => ⟨?_, ?_, ?_⟩⟩
  · exact fun e h => hev scope e m v m' h
  · exact fun s h => Eval.confined_statement hev scope s m v m' h
  · exact fun stmts h => Eval.confined_program hev scope stmts m v m' h

/-- The call `fn(x) { let x = 7; }(5)` binds the name twice in a frame of its own and not in the one in which
it stands, where the name keeps its value. -/
theorem calls_keep_frames_of_shadowing :
    let name : Ident := ⟨"x", .first, .first⟩
    let c : Closure := ⟨[name], [.bind name (.int 7)], ⟨0⟩⟩
    let call : Expr := .call (.function c.params c.body) [.int 5]
    let m : Machine := ⟨Store.empty.newGlobal.2.set ⟨0⟩ "x" (.integer 1), 0, .unlimited, .sorted⟩
    ∃ m₁ m₂ m₃ m₄,
      (Eval.apply (eval 1) (.function 0 c) [.integer 5] m = some (.integer 7, m₁) ∧ m.Grows none m₁) ∧
      (eval 2 ⟨0⟩ call m = some (.integer 7, m₂) ∧ m.Grows (some 0) m₂) ∧
      (Eval.statement (eval 2) ⟨0⟩ (.bind name call) m = some (.integer 7, m₃) ∧
        m.Grows (some 0) m₃) ∧
      (Eval.program (eval 2) ⟨0⟩ [.give call] m = some (.integer 7, m₄) ∧ m.Grows (some 0) m₄) := by
  intro name c call m
  refine ⟨_, _, _, _, ⟨rfl, ?_⟩, ⟨rfl, ?_⟩, ⟨rfl, ?_⟩, ⟨rfl, ?_⟩⟩
  · exact (calls_keep_frames 1 m _ _).1 (.function 0 c) [.integer 5] rfl
  · exact ((calls_keep_frames 2 m _ _).2 ⟨0⟩).1 call rfl
  · exact ((calls_keep_frames 2 m _ _).2 ⟨0⟩).2.1 (.bind name call) rfl
  · exact ((calls_keep_frames 2 m _ _).2 ⟨0⟩).2.2 [.give call] rfl

end Monkey
