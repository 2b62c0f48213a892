import Monkey.Token.Basic

namespace Monkey.Parse

/-- How tightly an operator holds its operands, from the loosest to the tightest. -/
inductive Level
  | lowest | equality | comparison | sum | product | unary | call
deriving DecidableEq, Repr

def Level.rank : Level → Nat
  | lowest => 0
  | equality => 1
  | comparison => 2
  | sum => 3
  | product => 4
  | unary => 5
  | call => 6

/-- The level of a token that follows an operand; one that continues no expression has the lowest. -/
def Level.ofKind : Kind → Level
  | .equal | .notEqual => .equality
  | .less | .greater => .comparison
  | .plus | .minus => .sum
  | .star | .slash => .product
  | .parenL | .bracketL => .call
  | _ => .lowest

end Monkey.Parse
