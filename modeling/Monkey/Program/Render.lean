import Monkey.Program.Basic

namespace Monkey

mutual

/-- The written form of an expression, where each operation stands in parentheses of its own. -/
def Expr.render : Expr → String
  | .ident id => id.name
  | .int n => Text.decimal n.toInt
  | .string s => s
  | .bool b => if b then "true" else "false"
  | .unary op right => "(" ++ op.text ++ right.render ++ ")"
  | .binary left op right => "(" ++ left.render ++ " " ++ op.text ++ " " ++ right.render ++ ")"
  | .cond test yes no =>
    "if" ++ test.render ++ " " ++ renderStmts yes ++
      (match no with
        | none => ""
        | some stmts => "else " ++ renderStmts stmts)
  | .function params body =>
    "fn(" ++ ", ".intercalate (params.map (·.name)) ++ ") " ++ renderStmts body
  | .call callee args => callee.render ++ "(" ++ ", ".intercalate (renderAll args) ++ ")"
  | .array elements => "[" ++ ", ".intercalate (renderAll elements) ++ "]"
  | .index left index => "(" ++ left.render ++ "[" ++ index.render ++ "])"
  | .hash pairs => "\x7b" ++ ", ".intercalate (renderPairs pairs) ++ "\x7d"

def Stmt.render : Stmt → String
  | .bind name value => "let " ++ name.name ++ " = " ++ value.render ++ ";"
  | .give value => "return " ++ value.render ++ ";"
  | .expr value => value.render

def renderAll : List Expr → List String
  | [] => []
  | e :: es => e.render :: renderAll es

def renderPairs : List (Expr × Expr) → List String
  | [] => []
  | (k, v) :: ps => (k.render ++ ": " ++ v.render) :: renderPairs ps

/-- Statements are written one after the other with nothing between them. -/
def renderStmts : List Stmt → String
  | [] => ""
  | s :: ss => s.render ++ renderStmts ss

end

attribute [simp] Expr.render Stmt.render renderAll renderPairs renderStmts

end Monkey
