import Monkey.Builtin.Basic
import Monkey.IoError
import Monkey.Text.Numeral
import Monkey.Value.Key

namespace Monkey

/-- What can go wrong in a program that is well formed. -/
inductive RuntimeError
  | unboundName (name : String)
  | notNegatable (type : ValueType)
  | noUnary (op : String) (type : ValueType)
  | noBinary (left : ValueType) (op : String) (right : ValueType)
  | typeMismatch (left : ValueType) (op : String) (right : ValueType)
  | divisionByZero
  | notCallable (type : ValueType)
  | wrongArity (got want : Nat)
  | notHashable (type : ValueType)
  | notIndexable (type : ValueType)
  | noLength (type : ValueType)
  | notArray (f : Builtin) (type : ValueType)
  | outputFailed (cause : IoError)
  /-- An error whose text was chosen from outside. -/
  | custom (text : String)
deriving DecidableEq, Repr

def RuntimeError.message : RuntimeError → String
  | unboundName name => "identifier not found: " ++ name
  | notNegatable type => "unknown operator: -" ++ type.name
  | noUnary op type => "unknown operator: " ++ op ++ type.name
  | noBinary left op right => "unknown operator: " ++ left.name ++ " " ++ op ++ " " ++ right.name
  | typeMismatch left op right => "type mismatch: " ++ left.name ++ " " ++ op ++ " " ++ right.name
  | divisionByZero => "division by zero"
  | notCallable type => "not a function: " ++ type.name
  | wrongArity got want =>
    "wrong number of arguments. got=" ++ Text.decimal got ++ ", want=" ++ Text.decimal want
  | notHashable type => "unusable as hash key: " ++ type.name
  | notIndexable type => "index operator not supported: " ++ type.name
  | noLength type => "argument to `len` not supported, got " ++ type.name
  | notArray f type => "argument to `" ++ f.name ++ "` must be ARRAY, got " ++ type.name
  | outputFailed cause => "could not write output: " ++ cause.message
  | custom text => text

end Monkey
