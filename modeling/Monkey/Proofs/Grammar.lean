import Monkey.Parse.Grammar

namespace Monkey.Parse

/-- The infix operators of a level. -/
def Level.infixes : Level → List Kind
  | equality => [.equal, .notEqual]
  | comparison => [.less, .greater]
  | sum => [.plus, .minus]
  | product => [.star, .slash]
  | lowest | unary | call => []

/-- The level of the right operand of an infix operator. -/
def Level.tighter : Level → Level
  | lowest => equality
  | equality => comparison
  | comparison => sum
  | sum => product
  | product => unary
  | unary | call => call

/-- The tokens that carry on an expression, so that no statement ends before them without a semicolon. -/
def continuing : List Kind :=
  [.equal, .notEqual, .less, .greater, .plus, .minus, .star, .slash, .parenL, .bracketL]

/-- Names between commas. -/
inductive Names : List Token → List Ident → Prop
  | nil : Names [] []
  | one {t : Token} : t.kind = .ident → Names [t] [.ofToken t]
  | cons {t comma : Token} {ts : List Token} {names : List Ident} :
      t.kind = .ident → comma.kind = .comma → Names ts names → names ≠ [] →
      Names (t :: comma :: ts) (.ofToken t :: names)

mutual

/-- The tokens spell the expression, where every operator outside of brackets is of this level or a tighter
one. An expression as such is of the level `equality`, and what can be called or indexed is of `call`. -/
inductive Phrase : Level → List Token → Expr → Prop
  | tighter {level : Level} {ts : List Token} {e : Expr} : Phrase level.tighter ts e → Phrase level ts e
  | binary {level : Level} {op : Token} {ts us : List Token} {left right : Expr} :
      op.kind ∈ level.infixes → Phrase level ts left → Phrase level.tighter us right →
      Phrase level (ts ++ op :: us) (.binary left op right)
  | unary {op : Token} {ts : List Token} {right : Expr} :
      op.kind ∈ [.bang, .minus] → Phrase .unary ts right →
      Phrase .unary (op :: ts) (.unary op right)
  | call {opening closing : Token} {ts us : List Token} {callee : Expr} {args : List Expr} :
      Phrase .call ts callee → opening.kind = .parenL → Elements us args → closing.kind = .parenR →
      Phrase .call (ts ++ opening :: us ++ [closing]) (.call callee args)
  | index {opening closing : Token} {ts us : List Token} {left index : Expr} :
      Phrase .call ts left → opening.kind = .bracketL → Phrase .equality us index →
      closing.kind = .bracketR → Phrase .call (ts ++ opening :: us ++ [closing]) (.index left index)
  | primary {ts : List Token} {e : Expr} : Primary ts e → Phrase .call ts e

/-- What stands for itself or between brackets of its own. A group leaves no node in the tree. -/
inductive Primary : List Token → Expr → Prop
  | ident {t : Token} : t.kind = .ident → Primary [t] (.ident (.ofToken t))
  | int {t : Token} : t.kind = .int → Text.value t.text.toList ≤ maxNumeral →
      Primary [t] (.int (.ofNat (Text.value t.text.toList)))
  | string {t : Token} : t.kind = .string → Primary [t] (.string t.text)
  | trueWord {t : Token} : t.kind = .trueWord → Primary [t] (.bool true)
  | falseWord {t : Token} : t.kind = .falseWord → Primary [t] (.bool false)
  | group {opening closing : Token} {ts : List Token} {e : Expr} :
      opening.kind = .parenL → Phrase .equality ts e → closing.kind = .parenR →
      Primary (opening :: ts ++ [closing]) e
  | cond {word opening closing : Token} {ts us : List Token} {test : Expr} {yes : List Stmt} :
      word.kind = .ifWord → opening.kind = .parenL → Phrase .equality ts test →
      closing.kind = .parenR → Braced us yes →
      Primary (word :: opening :: ts ++ closing :: us) (.cond test yes none)
  | condElse {word opening closing other : Token} {ts us vs : List Token} {test : Expr}
      {yes no : List Stmt} :
      word.kind = .ifWord → opening.kind = .parenL → Phrase .equality ts test →
      closing.kind = .parenR → Braced us yes → other.kind = .elseWord → Braced vs no →
      Primary (word :: opening :: ts ++ closing :: us ++ other :: vs) (.cond test yes (some no))
  | function {word opening closing : Token} {ts us : List Token} {params : List Ident}
      {body : List Stmt} :
      word.kind = .fnWord → opening.kind = .parenL → Names ts params → closing.kind = .parenR →
      Braced us body → Primary (word :: opening :: ts ++ closing :: us) (.function params body)
  | array {opening closing : Token} {ts : List Token} {elements : List Expr} :
      opening.kind = .bracketL → Elements ts elements → closing.kind = .bracketR →
      Primary (opening :: ts ++ [closing]) (.array elements)
  | hash {opening closing : Token} {ts : List Token} {pairs : List (Expr × Expr)} :
      opening.kind = .braceL → Pairs ts pairs → closing.kind = .braceR →
      Primary (opening :: ts ++ [closing]) (.hash pairs)

/-- Expressions between commas. -/
inductive Elements : List Token → List Expr → Prop
  | nil : Elements [] []
  | one {ts : List Token} {e : Expr} : Phrase .equality ts e → Elements ts [e]
  | cons {comma : Token} {ts us : List Token} {e : Expr} {es : List Expr} :
      Phrase .equality ts e → comma.kind = .comma → Elements us es → es ≠ [] →
      Elements (ts ++ comma :: us) (e :: es)

/-- Pairs between commas; the last one may be followed by a comma too. -/
inductive Pairs : List Token → List (Expr × Expr) → Prop
  | nil : Pairs [] []
  | one {colon : Token} {ts us : List Token} {key value : Expr} :
      Phrase .equality ts key → colon.kind = .colon → Phrase .equality us value →
      Pairs (ts ++ colon :: us) [(key, value)]
  | cons {colon comma : Token} {ts us vs : List Token} {key value : Expr}
      {pairs : List (Expr × Expr)} :
      Phrase .equality ts key → colon.kind = .colon → Phrase .equality us value →
      comma.kind = .comma → Pairs vs pairs →
      Pairs (ts ++ colon :: us ++ comma :: vs) ((key, value) :: pairs)

/-- Statements between two braces. -/
inductive Braced : List Token → List Stmt → Prop
  | mk {opening closing : Token} {ts : List Token} {stmts : List Stmt} :
      opening.kind = .braceL → Sentences ts stmts → closing.kind = .braceR →
      Braced (opening :: ts ++ [closing]) stmts

/-- A statement without the semicolon after it. -/
inductive Sentence : List Token → Stmt → Prop
  | bind {word name assign : Token} {ts : List Token} {value : Expr} :
      word.kind = .letWord → name.kind = .ident → assign.kind = .assign → Phrase .equality ts value →
      Sentence (word :: name :: assign :: ts) (.bind (.ofToken name) value)
  | give {word : Token} {ts : List Token} {value : Expr} :
      word.kind = .returnWord → Phrase .equality ts value → Sentence (word :: ts) (.give value)
  | expr {ts : List Token} {value : Expr} : Phrase .equality ts value → Sentence ts (.expr value)

/-- Statements one after the other. A whole text is such a sequence. -/
inductive Sentences : List Token → List Stmt → Prop
  | nil : Sentences [] []
  | ended {semicolon : Token} {ts us : List Token} {s : Stmt} {stmts : List Stmt} :
      Sentence ts s → semicolon.kind = .semicolon → Sentences us stmts →
      Sentences (ts ++ semicolon :: us) (s :: stmts)
  | bare {ts us : List Token} {s : Stmt} {stmts : List Stmt} :
      Sentence ts s → front us ∉ continuing → Sentences us stmts → Sentences (ts ++ us) (s :: stmts)

end

end Monkey.Parse
