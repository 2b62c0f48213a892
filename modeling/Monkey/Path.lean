import Monkey.IoError

namespace Monkey

/-- What a place in a file system holds. -/
inductive Node
  | directory
  | file (contents : ByteArray)

/-- A file system: what is found under the names that lead there from the root. -/
abbrev FileTree := List String → Option Node

namespace FileTree

/-- A single name has at most so many bytes. -/
def maxName : Nat :=
  255

/-- A whole path has at most so many bytes. -/
def maxPath : Nat :=
  4095

/-- Follows names from a place. Each one is looked for in the place before it, which has to be a
directory, and is measured only there. -/
def walk (tree : FileTree) (place : List String) : List String → Except IoError (List String)
  | [] => .ok place
  | name :: rest =>
    match tree place with
    | none => .error .notFound
    | some (.file _) => .error .notDirectory
    | some .directory =>
      if name = "" ∨ name = "." then walk tree place rest
      else if name = ".." then walk tree place.dropLast rest
      else if maxName < name.utf8ByteSize then .error .nameTooLong
      else walk tree (place ++ [name]) rest

/-- Reads the file at a path, which is followed from the root or from the current directory. -/
def read (tree : FileTree) (current : List String) (path : String) : Except IoError ByteArray :=
  if path = "" then .error .notFound
  else if maxPath < path.utf8ByteSize then .error .nameTooLong
  else
    match walk tree (if path.startsWith "/" then [] else current) (path.splitOn "/") with
    | .error e => .error e
    | .ok place =>
      match tree place with
      | none => .error .notFound
      | some .directory => .error .isDirectory
      | some (.file contents) => .ok contents

/-- A path is followed in stages. -/
theorem walk_append (tree : FileTree) (place names more : List String) :
    walk tree place (names ++ more) = (walk tree place names).bind (walk tree · more) := by
  induction names generalizing place with
  | nil => rfl
  | cons name rest ih =>
    simp only [List.cons_append, walk]
    split
    · rfl
    · rfl
    · split
      · exact ih place
      · split
        · exact ih place.dropLast
        · split
          · rfl
          · exact ih (place ++ [name])

end FileTree

end Monkey
