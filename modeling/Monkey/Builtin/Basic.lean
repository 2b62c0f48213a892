namespace Monkey

/-- The functions that are there without being defined. -/
inductive Builtin
  | len | first | last | rest | push | puts
deriving DecidableEq, Repr

namespace Builtin

def name : Builtin → String
  | len => "len"
  | first => "first"
  | last => "last"
  | rest => "rest"
  | push => "push"
  | puts => "puts"

def all : List Builtin :=
  [len, first, last, rest, push, puts]

def named? (s : String) : Option Builtin :=
  all.find? fun f => f.name = s

theorem named?_name (f : Builtin) : named? f.name = some f := by
  cases f <;> decide +kernel

end Builtin

end Monkey
