import Monkey.Failure
import Monkey.Script
import Monkey.Text.Lines

namespace Monkey

/-- What the shell does; a failure of input or output ends it. -/
abbrev Shell := ExceptT IoError Action

namespace Shell

def defaultPrompt : String :=
  ">> "

/-- Fails if not all of a text is accepted. -/
def accepted (act : Action Bool) : Shell Unit := do
  unless ← act do throw .sinkFull

def write (text : String) : Shell Unit :=
  accepted (Action.write text)

def writeLine (v : Value) : Shell Unit :=
  accepted (Action.writeLine v)

/-- Writes each error on a line of its own. -/
def printErrors : List String → Shell Unit
  | [] => return
  | e :: es => do
    write ("\t" ++ e ++ "\n")
    printErrors es

/-- Answers a line. What is well formed in it is evaluated even if it has errors, and if there is any such
statement the value is shown. -/
def answer (depth : Nat) (scope : Scope) (line : String) : Shell Unit := do
  let parsed := parse line
  printErrors (parsed.diagnostics.map (·.message))
  unless parsed.program.isEmpty do
    let v ← (Eval.program (eval depth) scope parsed.program : Action Value)
    writeLine v

/-- Answers a line of bytes. -/
def answerBytes (depth : Nat) (scope : Scope) (line : ByteArray) : Shell Unit :=
  match String.fromUTF8? line with
  | some text => answer depth scope text
  | none => throw .invalidText

/-- Answers the lines one after the other, with a prompt before each and before the end. -/
def converse (depth : Nat) (prompt : String) (scope : Scope) : List (List UInt8) → Shell Unit
  | [] => write prompt
  | line :: rest => do
    write prompt
    answerBytes depth scope ⟨line.toArray⟩
    converse depth prompt scope rest

/-- The whole conversation, in one scope. -/
def start (depth : Nat) (prompt : String) (input : ByteArray) : Shell Unit := do
  let scope ← Action.newGlobal
  converse depth prompt scope (Text.lines input.toList)

end Shell

end Monkey
