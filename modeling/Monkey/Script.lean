import Monkey.Eval
import Monkey.Parse.Source

namespace Monkey

/-- A bound on how deep evaluation may nest, far above what any run needs. -/
def maxDepth : Nat :=
  1000000000

/-- Runs a text as a whole in a scope of its own. If anything is wrong with the text, nothing of it is
evaluated. -/
def runSource (depth : Nat) (source : String) : Action (Except (List Diagnostic) Value) :=
  let parsed := parse source
  match parsed.diagnostics with
  | [] => do
    let scope ← Action.newGlobal
    return .ok (← Eval.program (eval depth) scope parsed.program)
  | ds => return .error ds

end Monkey
