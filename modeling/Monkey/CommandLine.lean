import Monkey.Path
import Monkey.Shell

namespace Monkey

/-- What a run of the program leaves to its caller. -/
structure Report where
  exit : UInt32
  stdout : ByteArray
  stderr : String

namespace CommandLine

def greeting (user : Option String) : String :=
  "Hello " ++ user.getD "there" ++ "! This is the Monkey programming language!\n" ++
    "Feel free to type in commands\n"

/-- What a command line asks for. Without a script the shell is started. -/
structure Options where
  script : Option String
  prompt : String

/-- Reads the arguments from left to right, or finds one that is not known. -/
def Options.add (o : Options) : List String → Except String Options
  | [] => .ok o
  | "-v" :: rest | "--verbose" :: rest => o.add rest
  | "--prompt" :: text :: rest => ({ o with prompt := text } : Options).add rest
  | arg :: rest =>
    if arg.startsWith "--prompt=" then
      ({ o with prompt := (arg.drop "--prompt=".length).toString } : Options).add rest
    else if arg.startsWith "-" || o.script.isSome then .error arg
    else ({ o with script := some arg } : Options).add rest

def Options.ofArgs (args : List String) : Except String Options :=
  Options.add ⟨none, Shell.defaultPrompt⟩ args

/-- A failure is told on the error output. -/
def report (stdout : ByteArray) : Except Failure Unit → Report
  | .ok () => ⟨0, stdout, ""⟩
  | .error f => ⟨1, stdout, f.message ++ "\n"⟩

/-- Runs a script; only an error that ends it is a failure. -/
def script (depth : Nat) (source : String) : ExceptT Failure Action Unit := do
  match ← runSource depth source with
  | .error ds => throw (.parse (ds.map (·.message)))
  | .ok (.error e) => throw (.runtime e.message)
  | .ok _ => return

/-- Runs a script file, given its bytes or why it cannot be read. -/
def scriptFile (depth : Nat) : Except IoError ByteArray → ExceptT Failure Action Unit
  | .error e => throw (.io e)
  | .ok bytes =>
    match String.fromUTF8? bytes with
    | some source => script depth source
    | none => throw (.io .invalidText)

/-- Runs the script at a path of a known file system. -/
def scriptAt (depth : Nat) (tree : FileTree) (current : List String) (path : String) :
    ExceptT Failure Action Unit :=
  scriptFile depth (tree.read current path)

/-- Greets the user and starts the shell. -/
def interactive (depth : Nat) (user : Option String) (prompt : String) (input : ByteArray) :
    ExceptT Failure Action Unit := do
  let _ ← Action.write (greeting user)
  match ← (Shell.start depth prompt input).run with
  | .ok () => return
  | .error e => throw (.io e)

/-- Runs a command from the start, with nothing limiting its output. -/
def run (command : ExceptT Failure Action Unit) : Option Report :=
  (command.run (.new none)).map fun (outcome, m) => report m.sink.written outcome

end CommandLine

end Monkey
