import Monkey.Value.Basic

namespace Monkey.Value

/-- An operator with one operand. -/
def unary (op : Token) (v : Value) : Value :=
  match op.kind with
  | .bang => boolean (!v.truthy)
  | .minus =>
    match v with
    | integer n => integer (-n)
    | v => error (.notNegatable v.type)
  | _ => error (.noUnary op.text v.type)

/-- Arithmetic is modulo `2 ^ 64`, and division goes toward zero. -/
def binaryInteger (op : Token) (a b : Int64) : Value :=
  match op.kind with
  | .plus => integer (a + b)
  | .minus => integer (a - b)
  | .star => integer (a * b)
  | .slash => if b = 0 then error .divisionByZero else integer (a / b)
  | .less => boolean (a < b)
  | .greater => boolean (b < a)
  | .equal => boolean (a = b)
  | .notEqual => boolean (a ≠ b)
  | _ => error (.noBinary .integer op.text .integer)

def binaryString (op : Token) (a b : String) : Value :=
  if op.kind = .plus then string (a ++ b) else error (.noBinary .string op.text .string)

/-- Values that are neither two integers nor two strings can only be compared for being the same. -/
def binaryObject (op : Token) (a b : Value) : Value :=
  match op.kind with
  | .equal => boolean (a.same b)
  | .notEqual => boolean (!a.same b)
  | _ =>
    if a.type = b.type then error (.noBinary a.type op.text b.type)
    else error (.typeMismatch a.type op.text b.type)

/-- An operator with two operands. -/
def binary (op : Token) : Value → Value → Value
  | integer a, integer b => binaryInteger op a b
  | string a, string b => binaryString op a b
  | a, b => binaryObject op a b

/-- The element at an index, or `null` if there is none. -/
def elementAt (elements : List Value) (n : Int64) : Value :=
  if n < 0 then null else (elements[n.toNatClampNeg]?).getD null

/-- Looks a value up in an array or a hash. -/
def indexed : Value → Value → Value
  | array _ elements, integer n => elementAt elements n
  | hash _ entries, key =>
    match key.hashKey? with
    | some k => (Entries.get? entries k).getD null
    | none => error (.notHashable key.type)
  | v, _ => error (.notIndexable v.type)

end Monkey.Value
