import Monkey.Program.Basic

namespace Monkey

/-- The token apart from the place where it stands. -/
def Token.bare (t : Token) : Token :=
  .synthetic t.kind t.text

def Ident.bare (id : Ident) : Ident :=
  ⟨id.name, .first, .first⟩

mutual

/-- The expression apart from the places where its parts stand. Two expressions are the same up to places
exactly if their bare forms are equal. -/
def Expr.bare : Expr → Expr
  | .ident id => .ident id.bare
  | .int n => .int n
  | .string s => .string s
  | .bool b => .bool b
  | .unary op right => .unary op.bare right.bare
  | .binary left op right => .binary left.bare op.bare right.bare
  | .cond test yes none => .cond test.bare (bareStmts yes) none
  | .cond test yes (some no) => .cond test.bare (bareStmts yes) (some (bareStmts no))
  | .function params body => .function (params.map .bare) (bareStmts body)
  | .call callee args => .call callee.bare (bareAll args)
  | .array elements => .array (bareAll elements)
  | .index left index => .index left.bare index.bare
  | .hash pairs => .hash (barePairs pairs)

def Stmt.bare : Stmt → Stmt
  | .bind name value => .bind name.bare value.bare
  | .give value => .give value.bare
  | .expr value => .expr value.bare

def bareAll : List Expr → List Expr
  | [] => []
  | e :: es => e.bare :: bareAll es

def barePairs : List (Expr × Expr) → List (Expr × Expr)
  | [] => []
  | (k, v) :: ps => (k.bare, v.bare) :: barePairs ps

def bareStmts : List Stmt → List Stmt
  | [] => []
  | s :: ss => s.bare :: bareStmts ss

end

theorem bareStmts_eq_map (stmts : List Stmt) : bareStmts stmts = stmts.map .bare := by
  induction stmts with
  | nil => rfl
  | cons s stmts ih => rw [bareStmts, ih, List.map_cons]

end Monkey
