/-!
# Paths

Paths are texts with a slash between their parts.  Empty parts and parts `.` do not count,
except for the very first part.
-/

namespace DecisionModel.Path

def isAbsolute (path : String) : Bool := path.toList.head? = some '/'

def join (base path : String) : String :=
  if isAbsolute path || base.isEmpty then path
  else if base.toList.getLast? = some '/' then base ++ path
  else base ++ "/" ++ path

/-- The characters of a path without the last part, given and returned last first. -/
def dropPart (reversed : List Char) : List Char := reversed.dropWhile (· != '/')

/-- The characters of a path without the slashes and parts `.` at its end, given and
    returned last first.  What stays of a path of such parts only is its first part. -/
def trimEnd : List Char → List Char
  | ['/'] => ['/']
  | '/' :: rest => trimEnd rest
  | ['.', '/'] => ['/']
  | '.' :: '/' :: rest => trimEnd ('/' :: rest)
  | cs => cs

/-- The directory that a path names something in, if it has a last part. -/
def parent? (path : String) : Option String :=
  let trimmed := trimEnd path.toList.reverse
  if trimmed = [] ∨ trimmed = ['/'] then none
  else some (String.ofList (trimEnd (dropPart trimmed)).reverse)

end DecisionModel.Path
