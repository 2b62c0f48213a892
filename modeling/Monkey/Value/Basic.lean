import Monkey.Program.Basic
import Monkey.Scope.Basic
import Monkey.Value.Error

namespace Monkey

/-- What a function literal leaves: its parameters and body, and the scope in which it was evaluated. -/
structure Closure where
  params : List Ident
  body : List Stmt
  scope : Scope

/-- What a value that is no number or text is known by. There is one null from the beginning, one object for each
boolean and one for each builtin function. Whatever is made gets a mark that is new each time. -/
inductive Ref
  | null
  | boolean (b : Bool)
  | builtin (f : Builtin)
  | made (mark : Nat)
deriving DecidableEq, Repr

/-- The results of evaluation. Arrays, hashes and functions are known by their mark, so that two of them are one
object exactly if their marks agree. -/
inductive Value
  | integer (n : Int64)
  | booleanAt (ref : Ref) (b : Bool)
  | string (s : String)
  | nullAt (ref : Ref)
  | array (mark : Nat) (elements : List Value)
  | hash (mark : Nat) (entries : List (HashKey × Value × Value))
  | function (mark : Nat) (closure : Closure)
  | builtinAt (ref : Ref) (f : Builtin)
  | error (e : RuntimeError)
  | returned (value : Value)

namespace Value

/-- The one null. -/
@[match_pattern] abbrev null : Value :=
  nullAt .null

/-- The one object for a boolean. -/
@[match_pattern] abbrev boolean (b : Bool) : Value :=
  booleanAt (.boolean b) b

/-- The one object for a builtin function. -/
@[match_pattern] abbrev builtin (f : Builtin) : Value :=
  builtinAt (.builtin f) f

instance : Inhabited Value :=
  ⟨null⟩

def type : Value → ValueType
  | integer _ => .integer
  | booleanAt _ _ => .boolean
  | string _ => .string
  | nullAt _ => .null
  | array _ _ => .array
  | hash _ _ => .hash
  | function _ _ => .function
  | builtinAt _ _ => .builtin
  | error _ => .error
  | returned _ => .returned

/-- Errors and return values stop whatever they arise in. -/
def isSignal : Value → Bool
  | error _ | returned _ => true
  | _ => false

/-- Only `null` and `false` do not hold as a condition. -/
def truthy : Value → Bool
  | nullAt _ => false
  | booleanAt _ b => b
  | _ => true

/-- What a call or a program makes of its result: a return goes no further. -/
def unwrapped : Value → Value
  | returned v => v
  | v => v

def hashKey? : Value → Option HashKey
  | integer n => some (.ofInteger n)
  | booleanAt _ b => some (.ofBoolean b)
  | string s => some (.ofString s)
  | _ => none

def ref? : Value → Option Ref
  | nullAt ref | booleanAt ref _ | builtinAt ref _ => some ref
  | array mark _ | hash mark _ | function mark _ => some (.made mark)
  | _ => none

/-- Whether two values that are neither two numbers nor two texts are one object. What they hold does not count. -/
def same (a b : Value) : Bool :=
  match a.ref?, b.ref? with
  | some r, some s => r = s
  | _, _ => false

end Value

/-- The pairs of a hash, sorted by key and with each key once. -/
abbrev Entries := List (HashKey × Value × Value)

namespace Entries

def get? (entries : Entries) (k : HashKey) : Option Value :=
  (List.lookup k entries).map (·.2)

/-- Adds a pair in its place. A pair with the same key is replaced, its key object included. -/
def insert (k : HashKey) (key value : Value) : Entries → Entries
  | [] => [(k, key, value)]
  | (k', pair) :: rest =>
    if k = k' then (k, key, value) :: rest
    else if k.before k' then (k, key, value) :: (k', pair) :: rest
    else (k', pair) :: insert k key value rest

theorem lookup_insert (entries : Entries) (k k' : HashKey) (key v : Value) :
    List.lookup k' (insert k key v entries) = if k' = k then some (key, v) else List.lookup k' entries := by
  induction entries with
  | nil => grind [insert]
  | cons e rest ih =>
    obtain ⟨j, pair⟩ := e
    simp only [insert]
    grind

theorem get?_insert (entries : Entries) (k k' : HashKey) (key v : Value) :
    get? (insert k key v entries) k' = if k' = k then some v else get? entries k' := by
  rw [get?, lookup_insert]
  split <;> rfl

theorem mem_insert {entries : Entries} {k : HashKey} {key v : Value} {e : HashKey × Value × Value}
    (h : e ∈ insert k key v entries) : e = (k, key, v) ∨ e ∈ entries := by
  induction entries with
  | nil => exact .inl (List.mem_singleton.1 h)
  | cons other rest ih =>
    rw [insert] at h
    split at h
    · exact (List.mem_cons.1 h).imp id (List.mem_cons_of_mem _)
    split at h
    · exact List.mem_cons.1 h
    · rcases List.mem_cons.1 h with rfl | h
      · exact .inr List.mem_cons_self
      · exact (ih h).imp id (List.mem_cons_of_mem _)

end Entries

end Monkey
