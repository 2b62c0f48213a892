import Monkey.IoError

namespace Monkey

/-- Why the program as a whole fails. -/
inductive Failure
  | io (error : IoError)
  | parse (errors : List String)
  | runtime (message : String)
deriving DecidableEq, Repr

def Failure.message : Failure → String
  | io error => error.message
  | parse errors => "parser errors:\n\t" ++ "\n\t".intercalate errors
  | runtime message => "Error: " ++ message

end Monkey
