import Monkey.Machine

namespace Monkey.Builtin

/-- Gives the argument to a function that takes one. -/
def withOne (args : List Value) (f : Value → Action Value) : Action Value :=
  match args with
  | [v] => f v
  | _ => pure (.error (.wrongArity args.length 1))

/-- Gives the elements to a function that takes one array. -/
def withArray (b : Builtin) (args : List Value) (f : List Value → Action Value) : Action Value :=
  withOne args fun
    | .array _ elements => f elements
    | v => pure (.error (.notArray b v.type))

/-- Writes each value on a line of its own, and stops when the output takes no more. -/
def putAll : List Value → Action Value
  | [] => pure .null
  | v :: vs => do
    if ← Action.writeLine v then putAll vs
    else return .error (.outputFailed .sinkFull)

/-- Calls a builtin function. Its arguments stay as they are: what it makes is a new array. -/
def call (b : Builtin) (args : List Value) : Action Value :=
  match b with
  | len => withOne args fun
    | .string s => pure (.integer (.ofNat s.utf8ByteSize))
    | .array _ elements => pure (.integer (.ofNat elements.length))
    | v => pure (.error (.noLength v.type))
  | first => withArray b args fun elements => pure (elements.head?.getD .null)
  | last => withArray b args fun elements => pure (elements.getLast?.getD .null)
  | rest => withArray b args fun
    | [] => pure .null
    | _ :: elements => Action.newArray elements
  | push =>
    match args with
    | [.array _ elements, v] => Action.newArray (elements ++ [v])
    | [v, _] => pure (.error (.notArray b v.type))
    | _ => pure (.error (.wrongArity args.length 2))
  | puts => putAll args

end Monkey.Builtin
