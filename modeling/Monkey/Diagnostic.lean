import Monkey.Token.Basic

namespace Monkey

/-- Why characters form no token. -/
inductive LexicalError
  | unexpectedCharacter (place : Position) (found : Char)
  | unterminatedString (place : Position)
deriving DecidableEq, Repr

def LexicalError.message : LexicalError → String
  | unexpectedCharacter place found =>
    place.text ++ " Unexpected character '" ++ String.singleton found ++ "'"
  | unterminatedString place => place.text ++ " Unterminated string"

/-- Why tokens form no statement. -/
inductive SyntaxError
  | noOperand (found : Kind)
  | unexpected (want found : Kind)
  | numberTooLarge (text : String)
deriving DecidableEq, Repr

def SyntaxError.message : SyntaxError → String
  | noOperand found => "no prefix parse function for " ++ found.name ++ " found"
  | unexpected want found =>
    "expected next token to be " ++ want.name ++ ", got " ++ found.name ++ " instead"
  | numberTooLarge text => "could not parse " ++ text ++ " as integer"

inductive Diagnostic
  | lexical (error : LexicalError)
  | syntactic (error : SyntaxError)
deriving DecidableEq, Repr

def Diagnostic.message : Diagnostic → String
  | lexical error => error.message
  | syntactic error => error.message

end Monkey
