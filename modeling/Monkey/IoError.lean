namespace Monkey

/-- What can go wrong outside of the program that is run. -/
inductive IoError
  | notFound
  | notDirectory
  | isDirectory
  | nameTooLong
  | invalidText
  | sinkFull
  | other (text : String)
deriving DecidableEq, Repr

def IoError.message : IoError → String
  | notFound => "No such file or directory (os error 2)"
  | notDirectory => "Not a directory (os error 20)"
  | isDirectory => "Is a directory (os error 21)"
  | nameTooLong => "File name too long (os error 36)"
  | invalidText => "stream did not contain valid UTF-8"
  | sinkFull => "sink full"
  | other text => text

end Monkey
