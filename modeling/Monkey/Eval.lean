import Monkey.Builtin.Call
import Monkey.Value.Operator

namespace Monkey

/-- An action that throws nothing comes before one that may. -/
theorem Action.run_lift_bind {ε α β : Type} (act : Action α) (f : α → ExceptT ε Action β) :
    ((act : ExceptT ε Action α) >>= f).run = act >>= fun a => (f a).run := by
  have hlift : (act : ExceptT ε Action α).run = act >>= fun a => pure (.ok a) := rfl
  simp only [ExceptT.run_bind, hlift, bind_assoc, pure_bind]

/-- What can be seen of a running evaluation. -/
inductive Event
  /-- The machine was changed, or evaluation began in it. -/
  | reached (m : Machine)
  /-- An expression, a statement or a block had this result. -/
  | gave (v : Value)
  | unary (v : Value)
  | binary (a b : Value)
  | indexed (a b : Value)
  | called (f : Value) (args : List Value)
  | builtin (b : Builtin) (args : List Value)
  /-- A call or a program had this result. -/
  | left (v : Value)

/-- Where evaluation runs. It acts on the machine there, and what can be seen of it may be noted: what comes before
something is done, and what is made of the result. -/
class Host (M : Type → Type) where
  step {α : Type} : Action α → M α
  before {α : Type} : Event → M α → M α
  noting {α : Type} : (α → Event) → M α → M α

/-- On the machine alone nothing is noted. -/
instance : Host Action where
  step act := act
  before _ act := act
  noting _ act := act

/-- Evaluation that a signal leaves at once, the signal being its result. -/
abbrev Guarded := ExceptT Value Action

namespace Guarded

section

variable {M : Type → Type} [Monad M]

/-- Hands a plain value on; a signal leaves. -/
def plain (act : M Value) : ExceptT Value M Value := do
  let v ← act
  if v.isSignal then throw v else return v

def result (g : ExceptT Value M Value) : M Value := do
  match ← g.run with
  | .ok v | .error v => return v

def before [Host M] {α : Type} (event : Event) (g : ExceptT Value M α) : ExceptT Value M α :=
  ExceptT.mk (Host.before event g.run)

end

theorem run_plain (act : Action Value) :
    (plain act).run = act >>= fun v => pure (if v.isSignal then .error v else .ok v) := by
  rw [plain, Action.run_lift_bind]
  apply congrArg
  funext v
  split <;> rfl

end Guarded

namespace Eval
open Guarded (plain result)

variable {M : Type → Type} [Monad M] [Host M]

/-- A name is looked for in the scope, then among the builtin functions. -/
def ident (scope : Scope) (name : String) : Action Value := do
  match ← Action.lookup? scope name with
  | some v => return v
  | none =>
    match Builtin.named? name with
    | some b => return .builtin b
    | none => return .error (.unboundName name)

/-- Runs statements up to the first that gives a signal. The result is that of the last one. -/
def sequence (run : Stmt → M Value) : List Stmt → Value → M Value
  | [], last => return last
  | s :: ss, _ => do
    let v ← run s
    if v.isSignal then return v else sequence run ss v

/-- Binds parameters to arguments, one after the other. -/
def bindAll (scope : Scope) : List Ident → List Value → M Unit
  | p :: ps, v :: vs => do
    Host.step (Action.define scope p.name v)
    bindAll scope ps vs
  | _, _ => return

/-- Calls a function, where `block` runs the statements of its body. -/
def call (block : Scope → List Stmt → M Value) (f : Value) (args : List Value) : M Value :=
  Host.before (.called f args) <| Host.noting .left <| match f with
  | .function _ c => do
    if args.length ≠ c.params.length then
      return .error (.wrongArity args.length c.params.length)
    let scope ← Host.step (Action.newChild c.scope)
    bindAll scope c.params args
    return (← block scope c.body).unwrapped
  | .builtinAt _ b => Host.before (.builtin b args) (Host.step (b.call args))
  | f => return .error (.notCallable f.type)

/-- What the evaluation of an expression is made of. -/
structure Parts (M : Type → Type) where
  inner : Scope → Expr → M Value
  values : Scope → List Expr → ExceptT Value M (List Value)
  entries : Scope → List (Expr × Expr) → ExceptT Value M Entries
  block : Scope → List Stmt → M Value
  apply : Value → List Value → M Value

/-- Evaluates one expression by its parts. -/
def form (parts : Parts M) (scope : Scope) : Expr → M Value
  | .ident id => Host.step (ident scope id.name)
  | .int n => return .integer n
  | .string s => return .string s
  | .bool b => return .boolean b
  | .unary op right => result do
    let v ← plain (parts.inner scope right)
    Guarded.before (.unary v) (return v.unary op)
  | .binary left op right => result do
    let a ← plain (parts.inner scope left)
    let b ← plain (parts.inner scope right)
    Guarded.before (.binary a b) (return .binary op a b)
  | .cond test yes no => result do
    let v ← plain (parts.inner scope test)
    if v.truthy then parts.block scope yes
    else match no with
      | some stmts => parts.block scope stmts
      | none => return .null
  | .function params body => Host.step (Action.newFunction ⟨params, body, scope⟩)
  | .call callee args => result do
    let f ← plain (parts.inner scope callee)
    let vs ← parts.values scope args
    parts.apply f vs
  | .array elements => result do
    let vs ← parts.values scope elements
    (Host.step (Action.newArray vs) : M Value)
  | .index left index => result do
    let a ← plain (parts.inner scope left)
    let b ← plain (parts.inner scope index)
    Guarded.before (.indexed a b) (return a.indexed b)
  | .hash pairs => result do
    let es ← parts.entries scope pairs
    (Host.step (Action.newHash es) : M Value)

variable (ev : Scope → Expr → M Value)

/-- The values of expressions from left to right. -/
def values (scope : Scope) : List Expr → ExceptT Value M (List Value)
  | [] => return []
  | e :: es => do
    let v ← plain (ev scope e)
    let vs ← values scope es
    return v :: vs

/-- Adds the pairs of a hash from left to right. A key that cannot be one is found before its value. -/
def entries (scope : Scope) : List (Expr × Expr) → Entries → ExceptT Value M Entries
  | [], acc => return acc
  | (k, e) :: rest, acc => do
    let key ← plain (ev scope k)
    match key.hashKey? with
    | none => throw (.error (.notHashable key.type))
    | some hashKey =>
      let v ← plain (ev scope e)
      entries scope rest (acc.insert hashKey key v)

def statement (scope : Scope) : Stmt → M Value
  | .bind name e => Host.noting .gave <| result do
    let v ← plain (ev scope e)
    (Host.step (Action.define scope name.name v) : M Unit)
    return v
  | .give e => Host.noting .gave <| result do
    let v ← plain (ev scope e)
    return .returned v
  | .expr e => ev scope e

def block (scope : Scope) : List Stmt → Value → M Value :=
  sequence (statement ev scope)

/-- A whole program: a return ends it with the value returned. -/
def program (scope : Scope) (stmts : List Stmt) : M Value :=
  Host.noting .left do
    return (← block ev scope stmts .null).unwrapped

def apply (f : Value) (args : List Value) : M Value :=
  call (fun scope stmts => block ev scope stmts .null) f args

/-- Evaluates one expression, where `ev` evaluates the expressions inside it. -/
def expression (scope : Scope) (e : Expr) : M Value :=
  form ⟨ev, values ev, fun scope pairs => entries ev scope pairs [],
    fun scope stmts => block ev scope stmts .null, apply ev⟩ scope e

theorem block_nil (scope : Scope) (last : Value) : block ev scope [] last = pure last :=
  rfl

theorem block_cons (scope : Scope) (s : Stmt) (ss : List Stmt) (last : Value) :
    block ev scope (s :: ss) last = (do
      let v ← statement ev scope s
      if v.isSignal then return v else block ev scope ss v) :=
  rfl

section action

variable (ev : Scope → Expr → Action Value)

theorem program_eq (scope : Scope) (stmts : List Stmt) :
    program ev scope stmts = (do return (← block ev scope stmts .null).unwrapped) :=
  rfl

theorem apply_function (mark : Nat) (c : Closure) (args : List Value) :
    apply ev (.function mark c) args = (do
      if args.length ≠ c.params.length then
        return .error (.wrongArity args.length c.params.length)
      let scope ← Action.newChild c.scope
      bindAll scope c.params args
      return (← block ev scope c.body .null).unwrapped) :=
  rfl

end action

end Eval

/-- Evaluates an expression, with no more than `depth` expressions inside each other at any time. -/
def eval : Nat → Scope → Expr → Action Value
  | 0, _, _ => failure
  | depth + 1, scope, e => Eval.expression (eval depth) scope e

theorem eval_ident (depth : Nat) (scope : Scope) (id : Ident) :
    eval (depth + 1) scope (.ident id) = Eval.ident scope id.name :=
  rfl

end Monkey
