import Monkey.Text.Numeral

namespace Monkey

/-- A place in a text. Lines and columns count from one, a column being one character wide. -/
structure Position where
  line : Int
  column : Int
deriving DecidableEq, Repr

namespace Position

/-- Where every text begins. -/
def first : Position :=
  ⟨1, 1⟩

/-- The place just after a character; only a line feed begins a new line. -/
def after (p : Position) (c : Char) : Position :=
  if c = '\n' then ⟨p.line + 1, 1⟩ else ⟨p.line, p.column + 1⟩

def afterAll (p : Position) (cs : List Char) : Position :=
  cs.foldl after p

def text (p : Position) : String :=
  "[line " ++ Text.decimal p.line ++ " column " ++ Text.decimal p.column ++ "]"

@[simp] theorem afterAll_nil (p : Position) : p.afterAll [] = p :=
  rfl

@[simp] theorem afterAll_cons (p : Position) (c : Char) (cs : List Char) :
    p.afterAll (c :: cs) = (p.after c).afterAll cs :=
  rfl

theorem afterAll_append (p : Position) (cs ds : List Char) :
    p.afterAll (cs ++ ds) = (p.afterAll cs).afterAll ds := by
  simp [afterAll]

end Position

inductive Kind
  | none
  | parenL | parenR
  | braceL | braceR
  | bracketL | bracketR
  | comma | semicolon | colon
  | assign | equal
  | bang | notEqual
  | greater | less
  | plus | minus
  | star | slash
  | ident | int | string
  | letWord | fnWord | ifWord | elseWord | returnWord | trueWord | falseWord
  | eof
deriving DecidableEq, Repr

namespace Kind

def name : Kind → String
  | none => "NONE"
  | parenL => "("
  | parenR => ")"
  | braceL => "\x7b"
  | braceR => "\x7d"
  | bracketL => "["
  | bracketR => "]"
  | comma => ","
  | semicolon => ";"
  | colon => ":"
  | assign => "="
  | equal => "=="
  | bang => "!"
  | notEqual => "!="
  | greater => ">"
  | less => "<"
  | plus => "+"
  | minus => "-"
  | star => "*"
  | slash => "/"
  | ident => "IDENT"
  | int => "INT"
  | string => "STRING"
  | letWord => "LET"
  | fnWord => "FUNCTION"
  | ifWord => "IF"
  | elseWord => "ELSE"
  | returnWord => "RETURN"
  | trueWord => "TRUE"
  | falseWord => "FALSE"
  | eof => "EOF"

def all : List Kind :=
  [none, parenL, parenR, braceL, braceR, bracketL, bracketR, comma, semicolon, colon, assign,
    equal, bang, notEqual, greater, less, plus, minus, star, slash, ident, int, string, letWord,
    fnWord, ifWord, elseWord, returnWord, trueWord, falseWord, eof]

/-- The words that are no identifiers. -/
def keywords : List (List Char × Kind) :=
  [(['l', 'e', 't'], letWord), (['f', 'n'], fnWord), (['i', 'f'], ifWord),
    (['e', 'l', 's', 'e'], elseWord), (['r', 'e', 't', 'u', 'r', 'n'], returnWord),
    (['t', 'r', 'u', 'e'], trueWord), (['f', 'a', 'l', 's', 'e'], falseWord)]

def ofWord (word : List Char) : Kind :=
  (keywords.lookup word).getD ident

end Kind

/-- A unit of the text together with the places just before and just after it. -/
structure Token where
  kind : Kind
  text : String
  start : Position
  stop : Position
deriving DecidableEq, Repr

namespace Token

/-- A token that stands in no text. -/
def synthetic (kind : Kind) (text : String) : Token :=
  ⟨kind, text, .first, .first⟩

def empty : Token :=
  synthetic .none ""

/-- The token that stands for the end of the text. -/
def eof (p : Position) : Token :=
  ⟨.eof, "", p, p⟩

end Token

end Monkey
