import Monkey.Text.Fingerprint

namespace Monkey

inductive ValueType
  | integer | boolean | string | null | array | hash | function | builtin | error | returned
deriving DecidableEq, Repr

def ValueType.name : ValueType → String
  | integer => "INTEGER"
  | boolean => "BOOLEAN"
  | string => "STRING"
  | null => "NULL"
  | array => "ARRAY"
  | hash => "HASH"
  | function => "FUNCTION"
  | builtin => "BUILTIN"
  | error => "ERROR"
  | returned => "RETURN_VALUE"

/-- What a hash knows of a key. The type is part of it, so keys of two types are never one. -/
structure HashKey where
  type : ValueType
  word : UInt64
deriving DecidableEq, Repr

namespace HashKey

/-- An integer is taken modulo `2 ^ 64`. -/
def ofInteger (n : Int64) : HashKey :=
  ⟨.integer, n.toUInt64⟩

def ofBoolean (b : Bool) : HashKey :=
  ⟨.boolean, if b then 1 else 0⟩

def ofString (s : String) : HashKey :=
  ⟨.string, Text.fingerprint s⟩

/-- Keys are ordered by the name of their type, then by their word. -/
def before (a b : HashKey) : Bool :=
  a.type.name < b.type.name || (a.type = b.type && a.word < b.word)

end HashKey

end Monkey
