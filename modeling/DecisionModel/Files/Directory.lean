import DecisionModel.Files.Basic

/-!
# A directory in memory

A directory is given by the files in it and in the directories below it.  Paths are
followed part by part from there: each part before the last has to be a directory, and
nothing is known of what lies outside.
-/

namespace DecisionModel

/-- A file with the parts of its path; the text is missing if the bytes are none. -/
structure StoredFile where
  path : List String
  content : Option String
  deriving DecidableEq, Repr

abbrev Directory := List StoredFile

namespace Directory

def nameLimit : Nat := 255

def pathLimit : Nat := 4095

inductive Entry where
  | file (content : Option String)
  | directory
  | nothing
  deriving DecidableEq, Repr

def entry (d : Directory) (place : List String) : Entry :=
  match d.find? (·.path == place) with
  | some f => .file f.content
  | none =>
    if place.isEmpty || d.any (fun f => place.isPrefixOf f.path) then .directory else .nothing

/-- Follows the remaining parts of a path from a place. -/
def follow (d : Directory) (place : List String) : List String → Except ReadError Entry
  | [] => .ok (d.entry place)
  | part :: rest =>
    match d.entry place with
    | .nothing => .error .notFound
    | .file _ => .error .notDirectory
    | .directory =>
      if part = "" ∨ part = "." then d.follow place rest
      else if part = ".." then
        if place.isEmpty then
          if rest.all fun p => p == "" || p == "." || p == ".." then .ok .directory
          else .error .notFound
        else d.follow place.dropLast rest
      else if nameLimit < part.utf8ByteSize then .error .nameTooLong
      else d.follow (place ++ [part]) rest

def resolve (d : Directory) (path : String) : Except ReadError Entry :=
  if path.toList.contains '\x00' then .error .nulInPath
  else if path.isEmpty then .error .notFound
  else if pathLimit < path.utf8ByteSize then .error .nameTooLong
  else if Path.isAbsolute path then
    if path.toList.all (· == '/') then .ok .directory else .error .notFound
  else d.follow [] (path.splitOn "/")

/-- The files of a directory, as a command that runs in it sees them. -/
def files (d : Directory) : Files where
  isFile path :=
    match d.resolve path with
    | .ok (.file _) => true
    | _ => false
  read path :=
    match d.resolve path with
    | .ok (.file (some content)) => .ok content
    | .ok (.file none) => .error .notText
    | .ok .directory => .error .isDirectory
    | .ok .nothing => .error .notFound
    | .error e => .error e

end Directory

end DecisionModel
