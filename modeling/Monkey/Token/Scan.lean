import Monkey.Diagnostic
import Monkey.Text.Letter
import Monkey.Token.Cursor

namespace Monkey

/-- What scanning yields: a token, or the reason why there is none. -/
abbrev Item := Except LexicalError Token

/-- The operators and marks of one character. -/
def Kind.symbols : List (Char × Kind) :=
  [('(', parenL), (')', parenR), ('{', braceL), ('}', braceR), ('[', bracketL), (']', bracketR),
    (',', comma), (';', semicolon), (':', colon), ('=', assign), ('!', bang), ('>', greater),
    ('<', less), ('+', plus), ('-', minus), ('*', star), ('/', slash)]

/-- The operator or mark that begins with a character, and how many more characters it has. -/
def Kind.ofSymbol? (c : Char) (rest : List Char) : Option (Kind × Nat) :=
  if rest.head? = some '=' ∧ c = '=' then some (equal, 1)
  else if rest.head? = some '=' ∧ c = '!' then some (notEqual, 1)
  else (symbols.lookup c).map (·, 0)

/-- What the characters in front spell, wherever they stand. -/
inductive Lexeme
  | token (kind : Kind) (text : List Char)
  | stray (found : Char)
  | unterminated

namespace Lexeme

/-- The lexeme that begins with `ch`, and how many of the characters after it belong to it. A string
reaches to the next quote, a numeral or word as far as it can. -/
def read (ch : Char) (rest : List Char) : Lexeme × Nat :=
  if ch = '"' then
    let body := rest.takeWhile (· ≠ '"')
    if body.length < rest.length then (token .string body, body.length + 1)
    else (unterminated, body.length)
  else if Text.isDigit ch then
    let more := rest.takeWhile Text.isDigit
    (token .int (ch :: more), more.length)
  else if Text.isLetter ch then
    let more := rest.takeWhile Text.isWordChar
    (token (.ofWord (ch :: more)) (ch :: more), more.length)
  else match Kind.ofSymbol? ch rest with
    | some (kind, n) => (token kind (ch :: rest.take n), n)
    | none => (stray ch, 0)

def item (start stop : Position) : Lexeme → Item
  | token kind text => .ok ⟨kind, String.ofList text, start, stop⟩
  | stray found => .error (.unexpectedCharacter start found)
  | unterminated => .error (.unterminatedString start)

end Lexeme

namespace Cursor

/-- The next token or error and what follows it, or nothing when only a gap is left. -/
def next? (c : Cursor) : Option (Item × Cursor) :=
  let start := c.skipGap
  match start.rest with
  | [] => none
  | ch :: rest =>
    let (lexeme, n) := Lexeme.read ch rest
    let stop := start.drop (n + 1)
    some (lexeme.item start.position stop.position, stop)

/-- One call of the scanner. At the end of the text it yields the end token, again and again. -/
def scan (c : Cursor) : Item × Cursor :=
  c.next?.getD (.ok (.eof c.skipGap.position), c.skipGap)

/-- Every item takes at least one character. -/
theorem length_lt_of_next? {c c' : Cursor} {item : Item} (h : c.next? = some (item, c')) :
    c'.rest.length < c.rest.length := by
  have := c.length_skipGap_le
  grind [next?, rest_drop]

/-- All items up to the end of the text. -/
def items (c : Cursor) : List Item :=
  match h : c.next? with
  | none => []
  | some (item, c') =>
    have := length_lt_of_next? h
    item :: c'.items
termination_by c.rest.length

/-- What `n` calls of the scanner yield, one after the other. -/
def scanTimes : Nat → Cursor → List Item
  | 0, _ => []
  | n + 1, c => c.scan.1 :: scanTimes n c.scan.2

end Cursor

/-- The tokens of a text without its end, with the errors between them. -/
def itemsOf (source : String) : List Item :=
  (Cursor.ofText source).items

end Monkey
