import Mathlib
import Monkey.Parse.Source
import Monkey.Proofs.Scanner
import Monkey.Proofs.Trace

namespace Monkey

/-- The number modulo `2 ^ 64`. -/
def wrap (n : Int) : Int64 :=
  .ofInt n

/-- Division toward zero modulo `2 ^ 64`, for which the divisor must not be zero. -/
def divide? (a b : Int64) : Option Int64 :=
  if b = 0 then none else some (wrap (a.toInt.tdiv b.toInt))

theorem divide?_eq {a b : Int64} (hb : b ≠ 0) : divide? a b = some (a / b) := by
  rw [divide?, if_neg hb, wrap]
  apply congrArg some
  apply Int64.toInt_inj.1
  rw [Int64.toInt_ofInt, Int64.toInt_div]

namespace Value

/-- Arithmetic on the exact numbers, where division can fail. -/
def binaryInteger? (op : Token) (a b : Int64) : Option Value :=
  match op.kind with
  | .plus => some (integer (wrap (a.toInt + b.toInt)))
  | .minus => some (integer (wrap (a.toInt - b.toInt)))
  | .star => some (integer (wrap (a.toInt * b.toInt)))
  | .slash =>
    if b = 0 then some (error .divisionByZero)
    else do
      let quotient ← divide? a b
      return integer quotient
  | .less => some (boolean (a < b))
  | .greater => some (boolean (b < a))
  | .equal => some (boolean (a = b))
  | .notEqual => some (boolean (a ≠ b))
  | _ => some (error (.noBinary .integer op.text .integer))

def binary? (op : Token) : Value → Value → Option Value
  | integer a, integer b => binaryInteger? op a b
  | string a, string b => some (binaryString op a b)
  | a, b => some (binaryObject op a b)

def unary? (op : Token) (v : Value) : Option Value :=
  match op.kind, v with
  | .minus, integer n => some (integer (wrap (-n.toInt)))
  | _, v => some (v.unary op)

theorem binaryInteger?_eq (op : Token) (a b : Int64) :
    binaryInteger? op a b = some (binaryInteger op a b) := by
  unfold binaryInteger? binaryInteger
  cases op.kind with
  | plus =>
    dsimp only
    rw [wrap, Int64.ofInt_add, Int64.ofInt_toInt, Int64.ofInt_toInt]
  | minus =>
    dsimp only
    rw [wrap, Int64.ofInt_sub, Int64.ofInt_toInt, Int64.ofInt_toInt]
  | star =>
    dsimp only
    rw [wrap, Int64.ofInt_mul, Int64.ofInt_toInt, Int64.ofInt_toInt]
  | slash =>
    dsimp only
    split
    · rfl
    · next hb =>
      rw [divide?_eq hb]
      rfl
  | _ => rfl

theorem binary?_eq (op : Token) (a b : Value) : a.binary? op b = some (a.binary op b) := by
  cases a with
  | integer a =>
    cases b with
    | integer b => exact binaryInteger?_eq op a b
    | _ => rfl
  | string a => cases b <;> rfl
  | _ => rfl

theorem unary?_eq (op : Token) (v : Value) : v.unary? op = some (v.unary op) := by
  unfold unary?
  split
  · next n hop =>
    rw [wrap, Int64.ofInt_neg, Int64.ofInt_toInt, unary, hop]
  · rfl

end Value

namespace Builtin

/-- The elements of the array that comes first among as many arguments as wanted. -/
def arrayArgument? (b : Builtin) (args : List Value) (want : Nat) :
    Option (Except RuntimeError (List Value)) :=
  if args.length ≠ want then some (.error (.wrongArity args.length want))
  else do
    match ← args[0]? with
    | .array _ elements => return .ok elements
    | v => return .error (.notArray b v.type)

/-- A call in which each argument is read at its index, and there is none if it has no such argument. -/
def call? (b : Builtin) (args : List Value) : Option (Action Value) :=
  match b with
  | len =>
    if args.length ≠ 1 then some (pure (.error (.wrongArity args.length 1)))
    else do
      match ← args[0]? with
      | .string s => return pure (.integer (.ofNat s.utf8ByteSize))
      | .array _ elements => return pure (.integer (.ofNat elements.length))
      | v => return pure (.error (.noLength v.type))
  | first => do
    match ← b.arrayArgument? args 1 with
    | .ok elements => return pure (elements.head?.getD .null)
    | .error e => return pure (.error e)
  | last => do
    match ← b.arrayArgument? args 1 with
    | .ok elements => return pure (elements.getLast?.getD .null)
    | .error e => return pure (.error e)
  | rest => do
    match ← b.arrayArgument? args 1 with
    | .ok [] => return pure .null
    | .ok (_ :: elements) => return Action.newArray elements
    | .error e => return pure (.error e)
  | push => do
    match ← b.arrayArgument? args 2 with
    | .ok elements => do
      let v ← args[1]?
      return Action.newArray (elements ++ [v])
    | .error e => return pure (.error e)
  | puts => some (putAll args)

theorem arrayArgument?_one (b : Builtin) (args : List Value) (f : List Value → Action Value) :
    (do
      match ← b.arrayArgument? args 1 with
      | .ok elements => return f elements
      | .error e => return pure (.error e)) = some (b.withArray args f) := by
  match args with
  | [] => rfl
  | [v] => cases v <;> rfl
  | v :: w :: args => rfl

theorem call?_eq (b : Builtin) (args : List Value) : b.call? args = some (b.call args) := by
  cases b with
  | len =>
    match args with
    | [] => rfl
    | [v] => cases v <;> rfl
    | v :: w :: args => rfl
  | first => exact arrayArgument?_one .first args _
  | last => exact arrayArgument?_one .last args _
  | rest =>
    rw [call, ← arrayArgument?_one, call?]
    apply congrArg
    funext found
    cases found with
    | error e => rfl
    | ok elements => cases elements <;> rfl
  | push =>
    rcases args with _ | ⟨u, _ | ⟨v, _ | ⟨w, args⟩⟩⟩
    · rfl
    all_goals cases u <;> rfl
  | puts => rfl

end Builtin

/-- Whether the operation that a run is about to do has a result, which is that of the evaluator, where all that
can fail in it may. -/
def Event.Defined : Event → Prop
  | .unary v => ∀ op, v.unary? op = some (v.unary op)
  | .binary a b => ∀ op, a.binary? op b = some (a.binary op b)
  | .builtin b args => b.call? args = some (b.call args)
  | _ => True

theorem Event.defined (event : Event) : event.Defined := by
  cases event with
  | unary v => exact fun op => v.unary?_eq op
  | binary a b => exact fun op => a.binary?_eq op b
  | builtin b args => exact b.call?_eq args
  | _ => trivial

/-- No partial operation fails. However often it is called, the scanner takes slices between the borders of
characters only and counts in 32 bits only, and comes to the same items as the cursor. In every evaluation of
the program, no operation asks for an argument that is not there or divides by zero. -/
theorem partial_operations_succeed (source : String) (hlength : source.length < 2 ^ 31 - 1) :
    (∀ n, (Scanner.ofText source).scanTimes source n = some ((Cursor.ofText source).scanTimes n)) ∧
      ∀ depth scope m,
        (Eval.program (Traced.eval depth) scope (parse source).program m).2 =
            Eval.program (eval depth) scope (parse source).program m ∧
          ∀ event ∈ (Eval.program (Traced.eval depth) scope (parse source).program m).1, event.Defined := by
  constructor
  · intro n
    exact (Scanner.at_ofText source).scanTimes hlength n
  · intro depth scope m
    constructor
    · exact congrFun (Traced.action_program (Traced.action_eval depth) scope _) m
    · exact fun event _ => event.defined

theorem partial_operations_succeed_of_accent :
    let source := "\"ü\" /* ü */; push([1 / 0])"
    source.length < 2 ^ 31 - 1 ∧
      (Scanner.ofText source).scanTimes source 3 =
        some [.ok ⟨.string, "ü", ⟨1, 1⟩, ⟨1, 4⟩⟩, .ok ⟨.semicolon, ";", ⟨1, 12⟩, ⟨1, 13⟩⟩,
          .ok ⟨.ident, "push", ⟨1, 14⟩, ⟨1, 18⟩⟩] ∧
      ∀ depth scope m,
        ∀ event ∈ (Eval.program (Traced.eval depth) scope (parse source).program m).1, event.Defined := by
  intro source
  have hlength : source.length < 2 ^ 31 - 1 := by decide
  obtain ⟨hscan, heval⟩ := partial_operations_succeed source hlength
  refine ⟨hlength, ?_, fun depth scope m => (heval depth scope m).2⟩
  rw [hscan 3]
  decide

end Monkey
