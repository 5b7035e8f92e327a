import DecisionModel.Files.Path

/-!
# Files

What a command can find out about files: whether a path leads to one, and the text it
holds.
-/

namespace DecisionModel

inductive ReadError where
  | notFound
  | notDirectory
  | isDirectory
  | nameTooLong
  | nulInPath
  | notText
  | other (reason : String)
  deriving DecidableEq, Repr

def ReadError.message : ReadError → String
  | .notFound => "No such file or directory (os error 2)"
  | .notDirectory => "Not a directory (os error 20)"
  | .isDirectory => "Is a directory (os error 21)"
  | .nameTooLong => "File name too long (os error 36)"
  | .nulInPath => "file name contained an unexpected NUL byte"
  | .notText => "stream did not contain valid UTF-8"
  | .other reason => reason

structure Files where
  isFile : String → Bool
  read : String → Except ReadError String

def Files.ofList (results : List (String × Except ReadError String)) : Files where
  isFile path :=
    match results.lookup path with
    | some (.ok _) => true
    | some (.error .notText) => true
    | _ => false
  read path := (results.lookup path).getD (.error .notFound)

end DecisionModel
