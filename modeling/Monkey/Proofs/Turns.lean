import Monkey.Proofs.Layers
import Monkey.Proofs.Showing

namespace Monkey

open Traced

/-- With enough depth the call has this result, and these events. -/
def Applies (f : Value) (args : List Value) (m : Machine) (seen : List Event) (v : Value) (m' : Machine) : Prop :=
  ∃ depth, Eval.apply (Traced.eval depth) f args m = (seen, some (v, m'))

/-- The call of a function on one value: what it gives, and what it shows. -/
structure Given where
  arg : Value
  result : Value
  shown : List Value

/-- A call in a run that is given a function to call: of a function of its own, or of the given one. -/
inductive Turn
  | own (h : Value)
  | given (call : Given)

/-- The calls in the events are these, one after the other. Those in a call of the given function do not count. -/
inductive Plays (f : Value) : List Turn → List Event → Prop
  | nil : Plays f [] []
  | quiet {event : Event} {turns : List Turn} {seen : List Event} :
    (∀ h args, event ≠ .called h args) → Plays f turns seen → Plays f turns (event :: seen)
  | own {h : Value} {args : List Value} {turns : List Turn} {seen : List Event} :
    Plays f turns seen → Plays f (.own h :: turns) (.called h args :: seen)
  | given {call : Given} {m m' : Machine} {history seen : List Event} {turns : List Turn} :
    Applies f [call.arg] m history call.result m' → shownIn history = call.shown → Plays f turns seen →
    Plays f (.given call :: turns) (history ++ seen)

section plays

variable {f : Value} {turns more : List Turn} {seen rest : List Event}

theorem Plays.append (h : Plays f turns seen) (h' : Plays f more rest) : Plays f (turns ++ more) (seen ++ rest) := by
  induction h with
  | nil => exact h'
  | quiet hevent _ ih => exact .quiet hevent ih
  | own _ ih => exact .own ih
  | given hcall hshown _ ih =>
    rw [List.append_assoc]
    exact .given hcall hshown ih

theorem plays_gave (v : Value) : Plays f [] [.gave v] :=
  .quiet nofun .nil

theorem plays_left (v : Value) : Plays f [] [.left v] :=
  .quiet nofun .nil

theorem Plays.reached (h : Plays f turns seen) (m : Machine) : Plays f turns (.reached m :: seen) :=
  .quiet nofun h

theorem Applies.ends {h v : Value} {args : List Value} {m m' : Machine} (hcall : Applies h args m seen v m') :
    Ends (fun depth => Eval.apply (Traced.eval depth) h args) m seen v m' := by
  obtain ⟨depth, hcall⟩ := hcall
  exact ⟨depth, fun _ hdepth => within_apply (within_eval hdepth) h args _ _ _ hcall⟩

end plays

namespace Traced
open Eval
open Guarded (plain result)

variable {α β : Type}

/-- With enough depth the action has this result, and these are its calls. -/
def Makes (f : Value) (x : Nat → Traced α) (m : Machine) (turns : List Turn) (a : α) (m' : Machine) : Prop :=
  ∃ seen, Ends x m seen a m' ∧ Plays f turns seen

variable {f : Value} {m m₁ m₂ : Machine} {turns more : List Turn}

theorem makes_pure (a : α) (m : Machine) : Makes f (fun _ => pure a) m [] a m :=
  ⟨[], ends_pure a m, .nil⟩

theorem makes_step {x : Action α} {a : α} (h : x m = some (a, m₁)) : Makes f (fun _ => step x) m [] a m₁ := by
  refine ⟨[.reached m₁], ends_of_eq ?_, Plays.nil.reached m₁⟩
  rw [step, h]

theorem Makes.bind {x : Nat → Traced α} {k : Nat → α → Traced β} {a : α} {b : β} (hx : Makes f x m turns a m₁)
    (hk : Makes f (fun depth => k depth a) m₁ more b m₂) :
    Makes f (fun depth => x depth >>= k depth) m (turns ++ more) b m₂ := by
  obtain ⟨seen, hx, hturns⟩ := hx
  obtain ⟨rest, hk, hmore⟩ := hk
  exact ⟨_, hx.bind hk, hturns.append hmore⟩

theorem Makes.of_turns {x : Nat → Traced α} {a : α} (h : Makes f x m turns a m₁) (hturns : turns = more) :
    Makes f x m more a m₁ :=
  hturns ▸ h

/-- No event but a call is a turn. -/
theorem makes_note (event : Event) (h : ∀ g args, event ≠ .called g args) (m : Machine) :
    Makes f (fun _ => note event) m [] () m :=
  ⟨[event], ends_of_eq rfl, .quiet h .nil⟩

theorem Makes.noting {x : Nat → Traced α} {a : α} (hx : Makes f x m turns a m₁) (event : α → Event)
    (h : ∀ g args, event a ≠ .called g args) : Makes f (fun depth => noting event (x depth)) m turns a m₁ :=
  (hx.bind ((makes_note _ h m₁).bind (makes_pure a m₁))).of_turns (by simp)

section guarded

variable {x : Nat → ExceptT Value Traced α} {k : Nat → α → ExceptT Value Traced β} {v : Value}

theorem Makes.run_bind {a : α} {out : Except Value β} (hx : Makes f (fun depth => (x depth).run) m turns (.ok a) m₁)
    (hk : Makes f (fun depth => (k depth a).run) m₁ more out m₂) :
    Makes f (fun depth => (x depth >>= k depth).run) m (turns ++ more) out m₂ :=
  Makes.bind hx hk

theorem Makes.run_bind_error (hx : Makes f (fun depth => (x depth).run) m turns (.error v) m₁) :
    Makes f (fun depth => (x depth >>= k depth).run) m turns (.error v) m₁ := by
  obtain ⟨seen, hx, hturns⟩ := hx
  exact ⟨seen, hx.run_bind_error, hturns⟩

theorem Makes.run_lift {y : Nat → Traced α} {a : α} (hy : Makes f y m turns a m₁) :
    Makes f (fun depth => ((y depth : Traced α) : ExceptT Value Traced α).run) m turns (.ok a) m₁ := by
  obtain ⟨seen, hy, hturns⟩ := hy
  exact ⟨seen, hy.run_lift, hturns⟩

theorem makes_run_pure (a : α) (m : Machine) :
    Makes f (fun _ => (pure a : ExceptT Value Traced α).run) m [] (.ok a) m :=
  makes_pure (Except.ok a) m

theorem makes_run_before (event : Event) (h : ∀ g args, event ≠ .called g args) (a : α) (m : Machine) :
    Makes f (fun _ => (Guarded.before event (pure a) : ExceptT Value Traced α).run) m [] (.ok a) m :=
  ⟨[event], ends_run_before event a m, .quiet h .nil⟩

variable {y : Nat → Traced Value}

theorem Makes.run_plain (hy : Makes f y m turns v m₁) (hv : v.isSignal = false) :
    Makes f (fun depth => (plain (y depth)).run) m turns (.ok v) m₁ := by
  obtain ⟨seen, hy, hturns⟩ := hy
  exact ⟨seen, hy.run_plain hv, hturns⟩

theorem Makes.run_plain_signal (hy : Makes f y m turns v m₁) (hv : v.isSignal) :
    Makes f (fun depth => (plain (y depth)).run) m turns (.error v) m₁ := by
  obtain ⟨seen, hy, hturns⟩ := hy
  exact ⟨seen, hy.run_plain_signal hv, hturns⟩

theorem Makes.result {g : Nat → ExceptT Value Traced Value}
    (h : Makes f (fun depth => (g depth).run) m turns (.ok v) m₁) :
    Makes f (fun depth => result (g depth)) m turns v m₁ := by
  obtain ⟨seen, h, hturns⟩ := h
  exact ⟨seen, h.result, hturns⟩

theorem Makes.result_error {g : Nat → ExceptT Value Traced Value}
    (h : Makes f (fun depth => (g depth).run) m turns (.error v) m₁) :
    Makes f (fun depth => Guarded.result (g depth)) m turns v m₁ := by
  obtain ⟨seen, h, hturns⟩ := h
  exact ⟨seen, h.result_error, hturns⟩

end guarded

section evaluation

variable {scope : Scope} {v : Value}

theorem Makes.of_expression {e : Expr}
    (h : Makes f (fun depth => Eval.expression (Traced.eval depth) scope e) m turns v m₁) :
    Makes f (fun depth => Traced.eval depth scope e) m turns v m₁ := by
  obtain ⟨seen, h, hturns⟩ := h
  have hall := hturns.append (plays_gave v)
  rw [List.append_nil] at hall
  exact ⟨_, (Evaluates.of_expression h).ends, hall⟩

theorem makes_int (scope : Scope) (n : Int64) (m : Machine) :
    Makes f (fun depth => Traced.eval depth scope (.int n)) m [] (.integer n) m :=
  .of_expression (makes_pure _ m)

theorem makes_ident (id : Ident) (h : m.store.get? scope id.name = some v) :
    Makes f (fun depth => Traced.eval depth scope (.ident id)) m [] v m := by
  refine .of_expression (makes_step (Action.bind_eq_some.2 ⟨some v, m, ?_, rfl⟩))
  rw [Action.lookup?_apply, h]

theorem makes_builtin_ident (id : Ident) {b : Builtin} (hname : id.name = b.name)
    (h : m.store.get? scope b.name = none) :
    Makes f (fun depth => Traced.eval depth scope (.ident id)) m [] (.builtin b) m := by
  refine .of_expression (makes_step (Action.bind_eq_some.2 ⟨none, m, ?_, ?_⟩))
  · rw [Action.lookup?_apply, hname, h]
  · rw [hname, Builtin.named?_name]
    rfl

theorem Makes.binary {left right : Expr} {a b : Value}
    (ha : Makes f (fun depth => Traced.eval depth scope left) m turns a m₁) (hplain : a.isSignal = false)
    (hb : Makes f (fun depth => Traced.eval depth scope right) m₁ more b m₂) (hplain' : b.isSignal = false)
    (op : Token) :
    Makes f (fun depth => Traced.eval depth scope (.binary left op right)) m (turns ++ more) (.binary op a b) m₂ := by
  have hlast := makes_run_before (f := f) (.binary a b) nofun (Value.binary op a b) m₂
  refine .of_expression (Makes.of_turns
    ((ha.run_plain hplain).run_bind ((hb.run_plain hplain').run_bind hlast)).result ?_)
  simp

/-- The values of expressions, with the first signal instead if there is one. -/
theorem makes_values_nil (scope : Scope) (m : Machine) :
    Makes f (fun depth => (Eval.values (Traced.eval depth) scope []).run) m [] (.ok []) m :=
  makes_run_pure [] m

theorem Makes.values_cons {e : Expr} {es : List Expr} {out : Except Value (List Value)}
    (he : Makes f (fun depth => Traced.eval depth scope e) m turns v m₁) (hplain : v.isSignal = false)
    (hes : Makes f (fun depth => (Eval.values (Traced.eval depth) scope es).run) m₁ more out m₂) :
    Makes f (fun depth => (Eval.values (Traced.eval depth) scope (e :: es)).run) m (turns ++ more)
      (out.map (v :: ·)) m₂ := by
  refine (he.run_plain hplain).run_bind ?_
  cases out with
  | error g => exact hes.run_bind_error
  | ok vs =>
    have hall := hes.run_bind (k := fun _ vs => pure (v :: vs)) (makes_run_pure (v :: vs) m₂)
    rwa [List.append_nil] at hall

theorem Makes.values_stop {e : Expr} (he : Makes f (fun depth => Traced.eval depth scope e) m turns v m₁)
    (hsignal : v.isSignal) (es : List Expr) :
    Makes f (fun depth => (Eval.values (Traced.eval depth) scope (e :: es)).run) m turns (.error v) m₁ :=
  (he.run_plain_signal hsignal).run_bind_error

theorem Makes.call {callee : Expr} {args : List Expr} {h : Value} {vs : List Value} {last : List Turn} {m₃ : Machine}
    (hcallee : Makes f (fun depth => Traced.eval depth scope callee) m turns h m₁) (hplain : h.isSignal = false)
    (hargs : Makes f (fun depth => (Eval.values (Traced.eval depth) scope args).run) m₁ more (.ok vs) m₂)
    (happly : Makes f (fun depth => Eval.apply (Traced.eval depth) h vs) m₂ last v m₃) :
    Makes f (fun depth => Traced.eval depth scope (.call callee args)) m (turns ++ (more ++ last)) v m₃ :=
  .of_expression ((hcallee.run_plain hplain).run_bind (hargs.run_bind happly.run_lift)).result

/-- A call is not made if there is a signal among its arguments. -/
theorem Makes.call_stop {callee : Expr} {args : List Expr} {h : Value}
    (hcallee : Makes f (fun depth => Traced.eval depth scope callee) m turns h m₁) (hplain : h.isSignal = false)
    (hargs : Makes f (fun depth => (Eval.values (Traced.eval depth) scope args).run) m₁ more (.error v) m₂) :
    Makes f (fun depth => Traced.eval depth scope (.call callee args)) m (turns ++ more) v m₂ :=
  .of_expression ((hcallee.run_plain hplain).run_bind hargs.run_bind_error).result_error

theorem makes_apply_builtin {b : Builtin} {args : List Value} (h : b.call args m = some (v, m₁)) :
    Makes f (fun depth => Eval.apply (Traced.eval depth) (.builtin b) args) m [.own (.builtin b)] v m₁ := by
  have hnote : Makes f (fun _ => note (.called (.builtin b) args)) m [.own (.builtin b)] () m :=
    ⟨_, ends_of_eq rfl, .own .nil⟩
  have hbuiltin := (makes_note (f := f) (.builtin b args) nofun m).bind (k := fun _ _ => step (b.call args))
    (makes_step h)
  exact hnote.bind (hbuiltin.noting .left nofun)

/-- The call of the given function is one turn, whatever is called in it. -/
theorem makes_given {call : Given} {seen : List Event} (h : Applies f [call.arg] m seen call.result m₁)
    (hshown : shownIn seen = call.shown) :
    Makes f (fun depth => Eval.apply (Traced.eval depth) f [call.arg]) m [.given call] call.result m₁ := by
  have hall : Plays f [.given call] (seen ++ []) := .given h hshown .nil
  rw [List.append_nil] at hall
  exact ⟨seen, h.ends, hall⟩

theorem Makes.applies {h : Value} {args : List Value}
    (hmakes : Makes f (fun depth => Eval.apply (Traced.eval depth) h args) m turns v m₁) :
    ∃ seen, Applies h args m seen v m₁ ∧ Plays f turns seen := by
  obtain ⟨seen, ⟨least, hends⟩, hturns⟩ := hmakes
  exact ⟨seen, ⟨least, hends least (Nat.le_refl _)⟩, hturns⟩

theorem Makes.block_of_expr {e : Expr} (h : Makes f (fun depth => Traced.eval depth scope e) m turns v m₁)
    (last : Value) :
    Makes f (fun depth => Eval.block (Traced.eval depth) scope [.expr e] last) m turns v m₁ := by
  refine (h.bind ?_).of_turns (List.append_nil turns)
  cases v.isSignal <;> exact makes_pure v m₁

theorem Makes.block_of_bind {e : Expr} (name : Ident) {stmts : List Stmt} {w : Value}
    (he : Makes f (fun depth => Traced.eval depth scope e) m turns v m₁) (hplain : v.isSignal = false)
    (hstmts : Makes f (fun depth => Eval.block (Traced.eval depth) scope stmts v)
      { m₁ with store := m₁.store.set scope name.name v } more w m₂) (last : Value) :
    Makes f (fun depth => Eval.block (Traced.eval depth) scope (.bind name e :: stmts) last) m (turns ++ more) w
      m₂ := by
  have hdefine := makes_step (f := f) (Action.define_apply scope name.name v m₁)
  have hrest := hdefine.run_lift.run_bind (k := fun _ _ => pure v) (makes_run_pure v _)
  have hbound : Makes f (fun depth => Eval.statement (Traced.eval depth) scope (.bind name e)) m (turns ++ ([] ++ []))
      v { m₁ with store := m₁.store.set scope name.name v } :=
    ((he.run_plain hplain).run_bind hrest).result.noting _ nofun
  refine (hbound.bind (?_ : Makes f _ _ more w m₂)).of_turns (by simp)
  rw [hplain]
  exact hstmts

theorem makes_function (params : List Ident) (body : List Stmt) (m : Machine) :
    Makes f (fun depth => Traced.eval depth scope (.function params body)) m []
      (.function m.marks ⟨params, body, scope⟩) { m with marks := m.marks + 1 } :=
  .of_expression (makes_step (x := Action.newFunction ⟨params, body, scope⟩) rfl)

theorem makes_empty_array (m : Machine) :
    Makes f (fun depth => Traced.eval depth scope (.array [])) m [] (.array m.marks [])
      { m with marks := m.marks + 1 } := by
  have hmake : Makes f (fun _ => step (Action.newArray [])) m [] (.array m.marks []) { m with marks := m.marks + 1 } :=
    makes_step rfl
  exact .of_expression ((makes_values_nil scope m).run_bind
    (k := fun _ vs => (step (Action.newArray vs) : Traced Value)) hmake.run_lift).result

section cond

variable {test : Expr} {yes no : List Stmt} {w : Value}
  (htest : Makes f (fun depth => Traced.eval depth scope test) m turns v m₁) (hplain : v.isSignal = false)
include htest hplain

theorem Makes.cond_of_truthy (hv : v.truthy)
    (hyes : Makes f (fun depth => Eval.block (Traced.eval depth) scope yes .null) m₁ more w m₂)
    (no : Option (List Stmt)) :
    Makes f (fun depth => Traced.eval depth scope (.cond test yes no)) m (turns ++ more) w m₂ := by
  refine .of_expression ((htest.run_plain hplain).run_bind ?_).result
  simp only [hv, if_true]
  exact hyes.run_lift

theorem Makes.cond_of_not_truthy (hv : v.truthy = false)
    (hno : Makes f (fun depth => Eval.block (Traced.eval depth) scope no .null) m₁ more w m₂) (yes : List Stmt) :
    Makes f (fun depth => Traced.eval depth scope (.cond test yes (some no))) m (turns ++ more) w m₂ := by
  refine .of_expression ((htest.run_plain hplain).run_bind ?_).result
  simp only [hv, Bool.false_eq_true, if_false]
  exact hno.run_lift

end cond

theorem Makes.apply_function {c : Closure} {args : List Value} {opened : List Event}
    (henters : Enters c args m opened scope m₁) (hopened : Plays f [] opened) (hlength : args.length = c.params.length)
    (h : Makes f (fun depth => Eval.block (Traced.eval depth) scope c.body .null) m₁ turns v m₂) (mark : Nat) :
    Makes f (fun depth => Eval.apply (Traced.eval depth) (.function mark c) args) m (.own (.function mark c) :: turns)
      v.unwrapped m₂ := by
  obtain ⟨seen, h, hturns⟩ := h
  refine ⟨_, henters.applies mark hlength h, .own ?_⟩
  have hall := (hopened.append hturns).append (plays_left v.unwrapped)
  rwa [List.nil_append, List.append_nil] at hall

end evaluation

end Traced

end Monkey
