import Monkey.Proofs.Objects
import Monkey.Proofs.Signals
import Monkey.Proofs.Simulation

namespace Monkey

section syntaxTrees

mutual

/-- There is no function literal in the expression. -/
def Expr.isFunctionless : Expr → Bool
  | .ident _ | .int _ | .string _ | .bool _ => true
  | .unary _ right => right.isFunctionless
  | .binary left _ right => left.isFunctionless && right.isFunctionless
  | .cond test yes none => test.isFunctionless && stmtsFunctionless yes
  | .cond test yes (some no) => test.isFunctionless && stmtsFunctionless yes && stmtsFunctionless no
  | .function _ _ => false
  | .call callee args => callee.isFunctionless && areFunctionless args
  | .array elements => areFunctionless elements
  | .index left index => left.isFunctionless && index.isFunctionless
  | .hash pairs => pairsFunctionless pairs

def Stmt.isFunctionless : Stmt → Bool
  | .bind _ value | .give value | .expr value => value.isFunctionless

def areFunctionless : List Expr → Bool
  | [] => true
  | e :: es => e.isFunctionless && areFunctionless es

def pairsFunctionless : List (Expr × Expr) → Bool
  | [] => true
  | (k, v) :: ps => k.isFunctionless && v.isFunctionless && pairsFunctionless ps

def stmtsFunctionless : List Stmt → Bool
  | [] => true
  | s :: ss => s.isFunctionless && stmtsFunctionless ss

end

mutual

/-- The number of expressions and statements on the longest way down the syntax tree. -/
def Expr.depth : Expr → Nat
  | .ident _ | .int _ | .string _ | .bool _ => 1
  | .unary _ right => right.depth + 1
  | .binary left _ right => max left.depth right.depth + 1
  | .cond test yes none => max test.depth (stmtsDepth yes) + 1
  | .cond test yes (some no) => max test.depth (max (stmtsDepth yes) (stmtsDepth no)) + 1
  | .function _ body => stmtsDepth body + 1
  | .call callee args => max callee.depth (depthOf args) + 1
  | .array elements => depthOf elements + 1
  | .index left index => max left.depth index.depth + 1
  | .hash pairs => pairsDepth pairs + 1

def Stmt.depth : Stmt → Nat
  | .bind _ value | .give value | .expr value => value.depth + 1

def depthOf : List Expr → Nat
  | [] => 0
  | e :: es => max e.depth (depthOf es)

def pairsDepth : List (Expr × Expr) → Nat
  | [] => 0
  | (k, v) :: ps => max (max k.depth v.depth) (pairsDepth ps)

def stmtsDepth : List Stmt → Nat
  | [] => 0
  | s :: ss => max s.depth (stmtsDepth ss)

end

end syntaxTrees

namespace Nested

mutual

/-- Evaluates as `eval` does, which counts only expressions inside each other. Here all calls of the evaluator count:
there may be no more of them inside each other than the first argument says. -/
def expression : Nat → Scope → Expr → Action Value
  | 0, _, _ => failure
  | n + 1, scope, e => Eval.form ⟨expression n, values n, entries n, block n, apply n⟩ scope e

def values : Nat → Scope → List Expr → Guarded (List Value)
  | 0, _, _ => (failure : Action (List Value))
  | n + 1, scope, es => Eval.values (expression n) scope es

def entries : Nat → Scope → List (Expr × Expr) → Guarded Entries
  | 0, _, _ => (failure : Action Entries)
  | n + 1, scope, pairs => Eval.entries (expression n) scope pairs []

def statement : Nat → Scope → Stmt → Action Value
  | 0, _, _ => failure
  | n + 1, scope, s => Eval.statement (expression n) scope s

def block : Nat → Scope → List Stmt → Action Value
  | 0, _, _ => failure
  | n + 1, scope, stmts => Eval.sequence (statement n scope) stmts .null

def apply : Nat → Value → List Value → Action Value
  | 0, _, _ => failure
  | n + 1, f, args => Eval.call (block n) f args

end

/-- A whole program, with the call for it. -/
def program : Nat → Scope → List Stmt → Action Value
  | 0, _, _ => failure
  | n + 1, scope, stmts => do
    return (← Eval.sequence (statement n scope) stmts .null).unwrapped

end Nested

instance : OfShared fun w => w.type ≠ .function :=
  ⟨fun _ h => by cases h <;> exact nofun⟩

/-- No function is in the value, at any depth. -/
abbrev Value.Functionless (v : Value) : Prop :=
  v.Every fun w => w.type ≠ .function

/-- From the scope and the scopes around it no function can be reached. -/
def Machine.Functionless (m : Machine) (scope : Scope) : Prop :=
  ∀ f ∈ m.store.chain scope.frame, ∀ name v, (m.store.bindings f).get? name = some v → v.Functionless

theorem Store.chain_congr {s s' : Store} (h : ∀ f, s'.outer? f = s.outer? f) (frame : Nat) :
    s'.chain frame = s.chain frame := by
  induction frame using Nat.strongRecOn with
  | ind frame ih =>
    rw [chain_eq, chain_eq, h]
    cases houter : s.outer? frame with
    | none => rfl
    | some outer => exact congrArg (frame :: ·) (ih outer (s.outer_lt frame outer houter))

namespace Machine.Functionless

variable {m : Machine} {scope : Scope} (hm : m.Functionless scope)
include hm

theorem lookup? {name : String} {v : Value} (h : m.store.get? scope name = some v) : v.Functionless := by
  obtain ⟨f, hf, hv⟩ := List.exists_of_findSome?_eq_some h
  exact hm f hf name v hv

theorem define {v : Value} (hv : v.Functionless) (name : String) :
    ({ m with store := m.store.set scope name v } : Machine).Functionless scope := by
  intro f hf other w hw
  rw [Store.chain_congr (m.store.outer?_set scope name v)] at hf
  rw [Store.bindings_set] at hw
  split at hw
  · rw [Bindings.get?_set] at hw
    split at hw
    · exact Option.some_inj.1 hw ▸ hv
    · exact hm f hf other w hw
  · exact hm f hf other w hw

end Machine.Functionless

namespace Action

variable {α β : Type}

/-- Wherever no function can be reached from the scope, both actions end, with one result, which is as wanted, and no
function can be reached then. -/
def Coincide (scope : Scope) (Q : α → Prop) (x y : Action α) : Prop :=
  ∀ m, m.Functionless scope →
    ∃ a m', x m = some (a, m') ∧ y m = some (a, m') ∧ Q a ∧ m'.Functionless scope

variable {scope : Scope} {Q : α → Prop} {R : β → Prop}

theorem coincide_pure {a : α} (h : Q a) : Coincide scope Q (pure a) (pure a) :=
  fun m hm => ⟨a, m, rfl, rfl, h, hm⟩

theorem Coincide.bind {x y : Action α} {f g : α → Action β} (hx : Coincide scope Q x y)
    (hf : ∀ a, Q a → Coincide scope R (f a) (g a)) : Coincide scope R (x >>= f) (y >>= g) := by
  intro m hm
  obtain ⟨a, m₁, hxa, hya, ha, hm₁⟩ := hx m hm
  obtain ⟨b, m₂, hfb, hgb, hb, hm₂⟩ := hf a ha m₁ hm₁
  exact ⟨b, m₂, bind_eq_some.2 ⟨a, m₁, hxa, hfb⟩, bind_eq_some.2 ⟨a, m₁, hya, hgb⟩, hb, hm₂⟩

theorem coincide_lookup? (scope : Scope) (name : String) :
    Coincide scope (fun found => ∀ v ∈ found, v.Functionless) (lookup? scope name) (lookup? scope name) :=
  fun m hm => ⟨m.store.get? scope name, m, rfl, rfl, fun _ hv => hm.lookup? hv, hm⟩

theorem coincide_define {v : Value} (hv : v.Functionless) (name : String) :
    Coincide scope (fun _ => True) (define scope name v) (define scope name v) :=
  fun _ hm => ⟨(), _, rfl, rfl, trivial, hm.define hv name⟩

theorem coincide_newMark : Coincide scope (fun _ => True) newMark newMark :=
  fun m hm => ⟨m.marks, { m with marks := m.marks + 1 }, rfl, rfl, trivial, hm⟩

theorem coincide_write (text : String) : Coincide scope (fun _ => True) (write text) (write text) :=
  fun m hm => ⟨_, { m with sink := (m.sink.write text).2 }, rfl, rfl, trivial, hm⟩

theorem coincide_writeLine (v : Value) : Coincide scope (fun _ => True) (writeLine v) (writeLine v) :=
  fun m => coincide_write (v.line m.order) m

theorem coincide_newArray {vs : List Value} (h : AllEvery (fun w => w.type ≠ .function) vs) :
    Coincide scope Value.Functionless (newArray vs) (newArray vs) :=
  coincide_newMark.bind fun _ _ => coincide_pure (Value.every_array.2 ⟨nofun, h⟩)

theorem coincide_newHash {es : Entries} (h : EntriesEvery (fun w => w.type ≠ .function) es) :
    Coincide scope Value.Functionless (newHash es) (newHash es) :=
  coincide_newMark.bind fun _ _ => coincide_pure (Value.every_hash.2 ⟨nofun, h⟩)

theorem coincide_putAll (args : List Value) :
    Coincide scope Value.Functionless (Builtin.putAll args) (Builtin.putAll args) := by
  induction args with
  | nil => exact coincide_pure Value.every_null
  | cons v args ih =>
    refine (coincide_writeLine v).bind fun accepted _ => ?_
    split
    · exact ih
    · exact coincide_pure (Value.every_error _)

/-- A builtin function ends, and gives no function that it was not given. -/
theorem coincide_call (b : Builtin) {args : List Value} (h : AllEvery (fun w => w.type ≠ .function) args) :
    Coincide scope Value.Functionless (b.call args) (b.call args) := by
  have hdoes := Builtin.does_call b h
  generalize b.call args = x at hdoes ⊢
  cases hdoes with
  | give hv => exact coincide_pure hv
  | make _ hvs => exact coincide_newArray hvs
  | write vs => exact coincide_putAll vs

end Action

namespace Guarded

variable {α β : Type}

/-- The same, where a signal that leaves has no function in it either. -/
def Coincide (scope : Scope) (Q : α → Prop) (g h : Guarded α) : Prop :=
  Action.Coincide scope (fun
    | .ok a => Q a
    | .error v => v.Functionless) g.run h.run

variable {scope : Scope} {Q : α → Prop} {R : β → Prop}

theorem coincide_pure {a : α} (h : Q a) : Coincide scope Q (pure a) (pure a) :=
  Action.coincide_pure h

theorem coincide_throw {v : Value} (h : v.Functionless) : Coincide scope Q (throw v) (throw v) :=
  Action.coincide_pure h

theorem Coincide.bind {g h : Guarded α} {f k : α → Guarded β} (hg : Coincide scope Q g h)
    (hf : ∀ a, Q a → Coincide scope R (f a) (k a)) : Coincide scope R (g >>= f) (h >>= k) := by
  refine Action.Coincide.bind hg fun out hout => ?_
  cases out with
  | ok a => exact hf a hout
  | error v => exact Action.coincide_pure hout

theorem coincide_lift {x y : Action α} (h : Action.Coincide scope Q x y) :
    Coincide scope Q (x : Guarded α) (y : Guarded α) :=
  Action.Coincide.bind (f := fun a => pure (Except.ok a)) (g := fun a => pure (Except.ok a)) h fun _ ha =>
    Action.coincide_pure ha

theorem coincide_plain {x y : Action Value} (h : Action.Coincide scope Value.Functionless x y) :
    Coincide scope Value.Functionless (plain x) (plain y) := by
  refine (coincide_lift h).bind fun v hv => ?_
  split
  · exact coincide_throw hv
  · exact coincide_pure hv

theorem Coincide.result {g h : Guarded Value} (hg : Coincide scope Value.Functionless g h) :
    Action.Coincide scope Value.Functionless (result g) (result h) := by
  refine Action.Coincide.bind hg fun out hout => ?_
  cases out with
  | ok v | error v => exact Action.coincide_pure hout

end Guarded

theorem Expr.depth_pos (e : Expr) : 0 < e.depth := by
  cases e with
  | cond test yes no => cases no <;> simp [depth]
  | _ => simp [depth]

namespace Eval
open Monkey.Action

variable {scope : Scope}

theorem coincide_ident (name : String) : Coincide scope Value.Functionless (ident scope name) (ident scope name) := by
  refine (coincide_lookup? scope name).bind fun found hfound => ?_
  split
  · exact coincide_pure (hfound _ rfl)
  · split
    · exact coincide_pure (Value.every_builtin _)
    · exact coincide_pure (Value.every_error _)

section parts

variable {ev ev' : Scope → Expr → Action Value} {d : Nat}
  (hev : ∀ e : Expr, e.isFunctionless → e.depth ≤ d → Coincide scope Value.Functionless (ev scope e) (ev' scope e))
include hev

theorem coincide_values (es : List Expr) (hes : areFunctionless es) (hd : depthOf es ≤ d) :
    Guarded.Coincide scope (AllEvery fun w => w.type ≠ .function) (values ev scope es) (values ev' scope es) := by
  induction es with
  | nil => exact Guarded.coincide_pure allEvery_nil
  | cons e es ih =>
    rw [areFunctionless, Bool.and_eq_true] at hes
    rw [depthOf] at hd
    refine (Guarded.coincide_plain (hev e hes.1 (by omega))).bind fun v hv => ?_
    exact (ih hes.2 (by omega)).bind fun vs hvs => Guarded.coincide_pure (allEvery_cons.2 ⟨hv, hvs⟩)

theorem coincide_entries (pairs : List (Expr × Expr)) (hpairs : pairsFunctionless pairs) (hd : pairsDepth pairs ≤ d)
    {acc : Entries} (hacc : EntriesEvery (fun w => w.type ≠ .function) acc) :
    Guarded.Coincide scope (EntriesEvery fun w => w.type ≠ .function) (entries ev scope pairs acc)
      (entries ev' scope pairs acc) := by
  induction pairs generalizing acc with
  | nil => exact Guarded.coincide_pure hacc
  | cons pair pairs ih =>
    obtain ⟨k, e⟩ := pair
    rw [pairsFunctionless, Bool.and_eq_true, Bool.and_eq_true] at hpairs
    rw [pairsDepth] at hd
    refine (Guarded.coincide_plain (hev k hpairs.1.1 (by omega))).bind fun key hkey => ?_
    split
    · exact Guarded.coincide_throw (Value.every_error _)
    · refine (Guarded.coincide_plain (hev e hpairs.1.2 (by omega))).bind fun v hv => ?_
      exact ih hpairs.2 (by omega) (hacc.insert hkey hv)

theorem coincide_statement (s : Stmt) (hs : s.isFunctionless) (hd : s.depth ≤ d) :
    Coincide scope Value.Functionless (statement ev scope s) (statement ev' scope s) := by
  cases s with
  | bind name e =>
    have he := Guarded.coincide_plain (hev e hs (Nat.le_of_succ_le hd))
    refine Guarded.Coincide.result (he.bind fun v hv => ?_)
    exact (Guarded.coincide_lift (coincide_define hv name.name)).bind fun _ _ => Guarded.coincide_pure hv
  | give e =>
    have he := Guarded.coincide_plain (hev e hs (Nat.le_of_succ_le hd))
    exact Guarded.Coincide.result (he.bind fun v hv => Guarded.coincide_pure (Value.every_returned.2 hv))
  | expr e => exact hev e hs (Nat.le_of_succ_le hd)

end parts

theorem coincide_sequence {run : Stmt → Action Value} {ev : Scope → Expr → Action Value} {d : Nat}
    (hrun : ∀ s : Stmt, s.isFunctionless → s.depth ≤ d →
      Coincide scope Value.Functionless (run s) (statement ev scope s))
    (stmts : List Stmt) (hstmts : stmtsFunctionless stmts) (hd : stmtsDepth stmts ≤ d) {last : Value}
    (hlast : last.Functionless) :
    Coincide scope Value.Functionless (sequence run stmts last) (block ev scope stmts last) := by
  induction stmts generalizing last with
  | nil => exact coincide_pure hlast
  | cons s stmts ih =>
    rw [stmtsFunctionless, Bool.and_eq_true] at hstmts
    rw [stmtsDepth] at hd
    refine (hrun s hstmts.1 (by omega)).bind fun v hv => ?_
    split
    · exact coincide_pure hv
    · exact ih hstmts.2 (by omega) hv

/-- Nothing can be called but builtin functions. -/
theorem coincide_apply (n depth : Nat) {f : Value} (hf : f.Functionless) {args : List Value}
    (hargs : AllEvery (fun w => w.type ≠ .function) args) :
    Coincide scope Value.Functionless (Nested.apply (n + 1) f args) (apply (eval depth) f args) := by
  cases f with
  | function mark c => exact absurd rfl (Value.every_function.1 hf)
  | builtinAt ref b => exact coincide_call b hargs
  | _ => exact coincide_pure (Value.every_error _)

section levels

variable {n depth : Nat} (hev : ∀ e : Expr, e.isFunctionless → e.depth ≤ depth → ∀ {k}, n ≤ k →
  Coincide scope Value.Functionless (Nested.expression k scope e) (eval depth scope e))
include hev

theorem coincide_block (stmts : List Stmt) (hstmts : stmtsFunctionless stmts) (hd : stmtsDepth stmts ≤ depth) {k : Nat}
    (hk : n + 2 ≤ k) :
    Coincide scope Value.Functionless (Nested.block k scope stmts) (block (eval depth) scope stmts .null) := by
  obtain ⟨k, rfl⟩ := Nat.exists_eq_add_of_le' hk
  exact coincide_sequence (coincide_statement fun e he hd => hev e he hd (Nat.le_add_left n k)) stmts hstmts hd
    Value.every_null

/-- Between an expression and one inside it there are at most two other calls. -/
theorem coincide_expression (e : Expr) (he : e.isFunctionless) (hd : e.depth ≤ depth + 1) {k : Nat} (hk : n + 3 ≤ k) :
    Coincide scope Value.Functionless (Nested.expression k scope e) (expression (eval depth) scope e) := by
  obtain ⟨k, rfl⟩ := Nat.exists_eq_add_of_le' hk
  have hinner (e : Expr) (he : e.isFunctionless) (hd : e.depth ≤ depth) :=
    Guarded.coincide_plain (hev e he hd (k := k + n + 2) (by omega))
  have hitems (e : Expr) (he : e.isFunctionless) (hd : e.depth ≤ depth) :=
    hev e he hd (k := k + n + 1) (by omega)
  cases e with
  | ident id => exact coincide_ident id.name
  | int m => exact coincide_pure (Value.every_integer m)
  | string s => exact coincide_pure (Value.every_string s)
  | bool b => exact coincide_pure (Value.every_boolean b)
  | unary op right =>
    rw [Expr.depth] at hd
    exact Guarded.Coincide.result ((hinner right he (by omega)).bind fun v _ =>
      Guarded.coincide_pure (Value.every_unary op v))
  | binary left op right =>
    rw [Expr.isFunctionless, Bool.and_eq_true] at he
    rw [Expr.depth] at hd
    exact Guarded.Coincide.result ((hinner left he.1 (by omega)).bind fun a _ =>
      (hinner right he.2 (by omega)).bind fun b _ => Guarded.coincide_pure (Value.every_binary op a b))
  | cond test yes no =>
    have hblock (stmts : List Stmt) (hstmts : stmtsFunctionless stmts) (hd : stmtsDepth stmts ≤ depth) :=
      Guarded.coincide_lift (coincide_block hev stmts hstmts hd (k := k + n + 2) (by omega))
    cases no with
    | none =>
      rw [Expr.isFunctionless, Bool.and_eq_true] at he
      rw [Expr.depth] at hd
      refine Guarded.Coincide.result ((hinner test he.1 (by omega)).bind fun v _ => ?_)
      split
      · exact hblock yes he.2 (by omega)
      · exact Guarded.coincide_pure Value.every_null
    | some no =>
      rw [Expr.isFunctionless, Bool.and_eq_true, Bool.and_eq_true] at he
      rw [Expr.depth] at hd
      refine Guarded.Coincide.result ((hinner test he.1.1 (by omega)).bind fun v _ => ?_)
      split
      · exact hblock yes he.1.2 (by omega)
      · exact hblock no he.2 (by omega)
  | function params body => exact nomatch he
  | call callee args =>
    rw [Expr.isFunctionless, Bool.and_eq_true] at he
    rw [Expr.depth] at hd
    exact Guarded.Coincide.result ((hinner callee he.1 (by omega)).bind fun f hf =>
      (coincide_values hitems args he.2 (by omega)).bind fun vs hvs =>
        Guarded.coincide_lift (coincide_apply _ depth hf hvs))
  | array elements =>
    rw [Expr.depth] at hd
    exact Guarded.Coincide.result ((coincide_values hitems elements he (by omega)).bind fun vs hvs =>
      Guarded.coincide_lift (coincide_newArray hvs))
  | index left index =>
    rw [Expr.isFunctionless, Bool.and_eq_true] at he
    rw [Expr.depth] at hd
    exact Guarded.Coincide.result ((hinner left he.1 (by omega)).bind fun a ha =>
      (hinner index he.2 (by omega)).bind fun b _ => Guarded.coincide_pure (ha.indexed b))
  | hash pairs =>
    rw [Expr.depth] at hd
    exact Guarded.Coincide.result ((coincide_entries hitems pairs he (by omega) EntriesEvery.nil).bind fun es hes =>
      Guarded.coincide_lift (coincide_newHash hes))

end levels

theorem coincide_eval (depth : Nat) (e : Expr) (he : e.isFunctionless) (hd : e.depth ≤ depth) {k : Nat}
    (hk : 3 * depth ≤ k) :
    Coincide scope Value.Functionless (Nested.expression k scope e) (eval depth scope e) := by
  induction depth generalizing e k with
  | zero => exact absurd e.depth_pos (by omega)
  | succ depth ih => exact coincide_expression ih e he hd (by omega)

theorem coincide_program (depth : Nat) (stmts : List Stmt) (hstmts : stmtsFunctionless stmts)
    (hd : stmtsDepth stmts ≤ depth) {k : Nat} (hk : 3 * depth + 2 ≤ k) :
    Coincide scope Value.Functionless (Nested.program k scope stmts) (program (eval depth) scope stmts) := by
  obtain ⟨k, rfl⟩ := Nat.exists_eq_add_of_le' hk
  refine (coincide_sequence ?_ stmts hstmts hd Value.every_null).bind fun v hv => coincide_pure hv.unwrapped
  exact coincide_statement fun e he hd => coincide_eval depth e he hd (Nat.le_add_left (3 * depth) k)

end Eval

/-- Nothing is bound yet in a scope of its own. -/
theorem Machine.functionless_newGlobal (m : Machine) :
    ({ m with store := m.store.newGlobal.2 } : Machine).Functionless m.store.newGlobal.1 := by
  intro f hf name v hv
  have hchain : m.store.newGlobal.2.chain m.store.frames.size = [m.store.frames.size] := by
    rw [Store.chain_eq, Store.newGlobal, Store.outer?_push, if_pos rfl]
    rfl
  obtain rfl := List.mem_singleton.1 (hchain ▸ hf)
  rw [Store.newGlobal, Store.bindings_push, Store.bindings_size] at hv
  exact nomatch hv

/-- Without function literals every program ends, in each scope from which no function can be reached, and none can be
reached from it then or is in the result. No more calls of the evaluator are ever inside each other than thrice the
depth of the syntax tree and two. -/
theorem functionless_ends (scope : Scope) (stmts : List Stmt) (hstmts : stmtsFunctionless stmts) (m : Machine)
    (hm : m.Functionless scope) :
    ∃ v m', (∀ n, 3 * stmtsDepth stmts + 2 ≤ n → Nested.program n scope stmts m = some (v, m')) ∧
      (∀ depth, stmtsDepth stmts ≤ depth → Eval.program (eval depth) scope stmts m = some (v, m')) ∧
      (m.Plain → v.isOutcome) ∧ v.Functionless ∧ m'.Functionless scope := by
  have hcoincide {depth : Nat} (hdepth : stmtsDepth stmts ≤ depth) {n : Nat} (hn : 3 * depth + 2 ≤ n) :=
    Eval.coincide_program depth stmts hstmts hdepth hn m hm
  obtain ⟨v, m', -, hprogram, hv, hm'⟩ := hcoincide (Nat.le_refl _) (Nat.le_refl _)
  have hnested (n : Nat) (hn : 3 * stmtsDepth stmts + 2 ≤ n) : Nested.program n scope stmts m = some (v, m') := by
    obtain ⟨w, m₁, hw, hsame, -⟩ := hcoincide (Nat.le_refl _) hn
    rw [hw, ← hsame, hprogram]
  refine ⟨v, m', hnested, fun depth hdepth => ?_, fun hplain => ?_, hv, hm'⟩
  · obtain ⟨w, m₁, hw, hsame, -⟩ := hcoincide hdepth (Nat.le_refl _)
    rw [hsame, ← hw, hnested _ (by omega)]
  · have hsafe := (Traced.safe_program (Traced.safe_eval (stmtsDepth stmts)) scope stmts m hplain).2
    refine (hsafe v m' ?_).1
    rw [← hprogram, ← Traced.action_program (Traced.action_eval _)]
    rfl

/-- A builtin function is bound under another name, put into an array, and called from there. -/
theorem functionless_ends_of_alias :
    let name (s : String) : Ident := ⟨s, .first, .first⟩
    let m := (Machine.new none).store.newGlobal.2
    let m : Machine := { Machine.new none with store := m.set ⟨0⟩ "count" (.builtin .len) }
    let stmts : List Stmt := [.bind (name "fs") (.array [.ident (name "count")]),
      .expr (.call (.index (.ident (name "fs")) (.int 0)) [.array [.int 7, .int 8]])]
    stmtsFunctionless stmts ∧ m.Functionless ⟨0⟩ ∧ stmtsDepth stmts = 4 ∧
      ∃ v m', (∀ n, 14 ≤ n → Nested.program n ⟨0⟩ stmts m = some (v, m')) ∧
        (∀ depth, 4 ≤ depth → Eval.program (eval depth) ⟨0⟩ stmts m = some (v, m')) ∧
        v = .integer 2 ∧ m'.Functionless ⟨0⟩ := by
  intro name store m stmts
  have hm : m.Functionless ⟨0⟩ :=
    (Machine.new none).functionless_newGlobal.define (Value.every_builtin .len) "count"
  obtain ⟨v, m', hnested, hprogram, -, -, hm'⟩ := functionless_ends ⟨0⟩ stmts rfl m hm
  refine ⟨rfl, hm, rfl, v, m', hnested, hprogram, ?_, hm'⟩
  have hrun := hnested 14 (Nat.le_refl _)
  have hcount : (Nested.program 14 ⟨0⟩ stmts m).map Prod.fst = some (.integer 2) := by with_unfolding_all rfl
  rw [hrun] at hcount
  exact Option.some_inj.1 hcount

end Monkey
