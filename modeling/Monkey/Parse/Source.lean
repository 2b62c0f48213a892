import Monkey.Parse.Grammar
import Monkey.Token.Scan

namespace Monkey

/-- What is read from a text: the statements that are well formed, and what is wrong with the others. -/
structure Parsed where
  program : List Stmt
  diagnostics : List Diagnostic

namespace Parse

/-- The tokens among the items. -/
def tokensOf : List Item → List Token
  | [] => []
  | .ok t :: items => t :: tokensOf items
  | .error _ :: items => tokensOf items

/-- The lexical errors among the items, where `ahead` tokens follow. An error counts as found while the
token before it is still unread, since one token is always looked at in advance. -/
def lexicalFaults (ahead : Nat) : List Item → List Fault
  | [] => []
  | .ok _ :: items => lexicalFaults (ahead - 1) items
  | .error e :: items => ⟨.lexical e, ahead + 1⟩ :: lexicalFaults ahead items

/-- Faults are reported in the order in which they are found. -/
def inOrder (syntactic lexical : List Fault) : List Diagnostic :=
  (List.merge syntactic lexical fun a b => b.unread ≤ a.unread).map (·.diagnostic)

def ofItems (items : List Item) : Parsed :=
  let tokens := tokensOf items
  let reading := program tokens
  ⟨reading.value, inOrder reading.log (lexicalFaults tokens.length items)⟩

end Parse

def parse (source : String) : Parsed :=
  Parse.ofItems (itemsOf source)

end Monkey
