import Monkey.Scope.Store
import Monkey.Sink
import Monkey.Value.Display

namespace Monkey

/-- All that evaluation changes: the frames, the number of marks given out, and what was written. The order in which
hashes show their pairs stays as it is. -/
structure Machine where
  store : Store
  marks : Nat
  sink : Sink
  order : Arrangement

def Machine.new (limit : Option Nat) (order : Arrangement := .sorted) : Machine :=
  ⟨.empty, 0, .new limit, order⟩

/-- A step of evaluation. It has no result if it is nested deeper than it was allowed to be. -/
abbrev Action := StateT Machine Option

namespace Action

def lookup? (scope : Scope) (name : String) : Action (Option Value) := do
  return (← get).store.get? scope name

def define (scope : Scope) (name : String) (v : Value) : Action Unit :=
  modify fun m => { m with store := m.store.set scope name v }

def newGlobal : Action Scope :=
  modifyGet fun m =>
    let (scope, store) := m.store.newGlobal
    (scope, { m with store })

def newChild (outer : Scope) : Action Scope :=
  modifyGet fun m =>
    let (scope, store) := m.store.newChild outer
    (scope, { m with store })

/-- A mark that no object carries yet. -/
def newMark : Action Nat :=
  modifyGet fun m => (m.marks, { m with marks := m.marks + 1 })

def newArray (elements : List Value) : Action Value := do
  return .array (← newMark) elements

def newHash (entries : Entries) : Action Value := do
  return .hash (← newMark) entries

def newFunction (closure : Closure) : Action Value := do
  return .function (← newMark) closure

/-- Writes a text and tells whether all of it was accepted. -/
def write (text : String) : Action Bool :=
  modifyGet fun m =>
    let (accepted, sink) := m.sink.write text
    (accepted, { m with sink })

/-- Shows a value on a line of its own. -/
def writeLine (v : Value) : Action Bool := do
  write (v.line (← get).order)

@[simp] theorem lookup?_apply (scope : Scope) (name : String) (m : Machine) :
    lookup? scope name m = some (m.store.get? scope name, m) :=
  rfl

@[simp] theorem define_apply (scope : Scope) (name : String) (v : Value) (m : Machine) :
    define scope name v m = some ((), { m with store := m.store.set scope name v }) :=
  rfl

@[simp] theorem newGlobal_apply (m : Machine) :
    newGlobal m = some (m.store.newGlobal.1, { m with store := m.store.newGlobal.2 }) :=
  rfl

@[simp] theorem newChild_apply (outer : Scope) (m : Machine) :
    newChild outer m = some ((m.store.newChild outer).1, { m with store := (m.store.newChild outer).2 }) :=
  rfl

@[simp] theorem newMark_apply (m : Machine) :
    newMark m = some (m.marks, { m with marks := m.marks + 1 }) :=
  rfl

@[simp] theorem write_apply (text : String) (m : Machine) :
    write text m = some ((m.sink.write text).1, { m with sink := (m.sink.write text).2 }) :=
  rfl

@[simp] theorem writeLine_apply (v : Value) (m : Machine) :
    writeLine v m = write (v.line m.order) m :=
  rfl

section inversion

variable {α β : Type} {m m' : Machine}

theorem pure_eq_some {a b : α} : (pure a : Action α) m = some (b, m') ↔ a = b ∧ m = m' := by
  change some (a, m) = some (b, m') ↔ _
  rw [Option.some_inj, Prod.mk.injEq]

theorem bind_eq_some {x : Action α} {f : α → Action β} {r : β × Machine} :
    (x >>= f) m = some r ↔ ∃ a m₁, x m = some (a, m₁) ∧ f a m₁ = some r := by
  have hbind : (x >>= f) m = (x m).bind fun p => f p.1 p.2 := rfl
  rw [hbind, Option.bind_eq_some_iff]
  constructor
  · rintro ⟨⟨a, m₁⟩, hx, hf⟩
    exact ⟨a, m₁, hx, hf⟩
  · rintro ⟨a, m₁, hx, hf⟩
    exact ⟨(a, m₁), hx, hf⟩

theorem lookup?_eq_some {scope : Scope} {name : String} {found : Option Value} :
    lookup? scope name m = some (found, m') ↔ m.store.get? scope name = found ∧ m = m' := by
  rw [lookup?_apply, Option.some_inj, Prod.mk.injEq]

theorem define_eq_some {scope : Scope} {name : String} {v : Value} {u : Unit} :
    define scope name v m = some (u, m') ↔ { m with store := m.store.set scope name v } = m' := by
  rw [define_apply, Option.some_inj, Prod.mk.injEq, and_iff_right rfl]

theorem newGlobal_eq_some {scope : Scope} :
    newGlobal m = some (scope, m') ↔
      m.store.newGlobal.1 = scope ∧ { m with store := m.store.newGlobal.2 } = m' := by
  rw [newGlobal_apply, Option.some_inj, Prod.mk.injEq]

theorem newChild_eq_some {outer scope : Scope} :
    newChild outer m = some (scope, m') ↔
      (m.store.newChild outer).1 = scope ∧ { m with store := (m.store.newChild outer).2 } = m' := by
  rw [newChild_apply, Option.some_inj, Prod.mk.injEq]

theorem newMark_eq_some {n : Nat} :
    newMark m = some (n, m') ↔ m.marks = n ∧ { m with marks := m.marks + 1 } = m' := by
  rw [newMark_apply, Option.some_inj, Prod.mk.injEq]

theorem write_eq_some {text : String} {accepted : Bool} :
    write text m = some (accepted, m') ↔
      (m.sink.write text).1 = accepted ∧ { m with sink := (m.sink.write text).2 } = m' := by
  rw [write_apply, Option.some_inj, Prod.mk.injEq]

end inversion

end Action

end Monkey
