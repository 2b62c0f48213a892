import Monkey.CommandLine

namespace Monkey.Main

/-- Error numbers may come negated, as numbers of 32 bits. -/
def errorNumber (code : UInt32) : UInt32 :=
  if code < 0x80000000 then code else -code

def ioError : IO.Error → IoError
  | .noFileOrDirectory .. => .notFound
  | .inappropriateType _ code _ => if errorNumber code = 20 then .notDirectory else .isDirectory
  | .invalidArgument _ code details =>
    if errorNumber code = 36 then .nameTooLong else .other details
  | e => .other (toString e)

def readScript (path : String) : IO (Except IoError ByteArray) := do
  try
    return .ok (← IO.FS.readBinFile path)
  catch e =>
    return .error (ioError e)

/-- The next line with its line feed, or nothing at the end of the input. -/
partial def readLine (input : IO.FS.Stream) (line : ByteArray) : IO ByteArray := do
  let byte ← input.read 1
  if byte.isEmpty then return line
  else if byte.data == #[10] then return line ++ byte
  else readLine input (line ++ byte)

/-- Takes a step of the shell, shows what it wrote, and goes on with an output that is empty again. -/
def step {α : Type} (act : Shell α) (m : Machine) : IO (Except String α × Machine) := do
  match act.run m with
  | none => return (.error "evaluation is nested too deeply", m)
  | some (outcome, m) =>
    let output ← IO.getStdout
    output.write m.sink.written
    output.flush
    return (outcome.mapError (·.message), { m with sink := .unlimited })

/-- Reads and answers one line after the other. -/
partial def converse (prompt : String) (scope : Scope) (m : Machine) : IO UInt32 := do
  match ← step (Shell.write prompt) m with
  | (.error message, _) => fail message
  | (.ok (), m) =>
    let line ← readLine (← IO.getStdin) .empty
    if line.isEmpty then return 0
    match ← step (Shell.answerBytes maxDepth scope line) m with
    | (.error message, _) => fail message
    | (.ok (), m) => converse prompt scope m
where
  fail (message : String) : IO UInt32 := do
    IO.eprintln message
    return 1

def interactive (prompt : String) : IO UInt32 := do
  let (scope, store) := Store.newGlobal .empty
  IO.print (CommandLine.greeting (← IO.getEnv "USER"))
  converse prompt scope { Machine.new none with store }

def script (path : String) : IO UInt32 := do
  match CommandLine.run (CommandLine.scriptFile maxDepth (← readScript path)) with
  | none =>
    IO.eprintln "evaluation is nested too deeply"
    return 1
  | some report =>
    (← IO.getStdout).write report.stdout
    IO.eprint report.stderr
    return report.exit

end Monkey.Main

open Monkey in
def main (args : List String) : IO UInt32 := do
  match CommandLine.Options.ofArgs args with
  | .error arg =>
    IO.eprintln s!"unexpected argument {arg}"
    return 2
  | .ok options =>
    match options.script with
    | some path => Main.script path
    | none => Main.interactive options.prompt
