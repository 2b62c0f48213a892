import Monkey.Token.Basic

namespace Monkey

/-- A name where it is used or bound. -/
structure Ident where
  name : String
  start : Position
  stop : Position
deriving DecidableEq, Repr

def Ident.ofToken (t : Token) : Ident :=
  ⟨t.text, t.start, t.stop⟩

mutual

inductive Expr
  | ident (id : Ident)
  | int (n : Int64)
  | string (s : String)
  | bool (b : Bool)
  | unary (op : Token) (right : Expr)
  | binary (left : Expr) (op : Token) (right : Expr)
  | cond (test : Expr) (yes : List Stmt) (no : Option (List Stmt))
  | function (params : List Ident) (body : List Stmt)
  | call (callee : Expr) (args : List Expr)
  | array (elements : List Expr)
  | index (left : Expr) (index : Expr)
  | hash (pairs : List (Expr × Expr))

inductive Stmt
  | bind (name : Ident) (value : Expr)
  | give (value : Expr)
  | expr (value : Expr)

end

instance : Inhabited Expr :=
  ⟨.bool false⟩

instance : Inhabited Stmt :=
  ⟨.expr default⟩

end Monkey
