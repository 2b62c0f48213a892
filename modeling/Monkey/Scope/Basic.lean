namespace Monkey

/-- A scope, known by the frame that holds its own bindings. -/
structure Scope where
  frame : Nat
deriving DecidableEq, Repr

end Monkey
