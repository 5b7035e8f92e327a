/-!
# Quoted values

In a record a value stands between quotes, with a backslash in front of each quote and
each backslash of its own.
-/

namespace DecisionModel.TreeFile

/-- A value with its quotes and backslashes escaped. -/
def escape : List Char → List Char
  | [] => []
  | c :: rest => if c = '"' ∨ c = '\\' then '\\' :: c :: escape rest else c :: escape rest

def quote (value : String) : String :=
  String.ofList ('"' :: escape value.toList ++ ['"'])

/-- Each backslash replaced by the character behind it. -/
def unescape : List Char → List Char
  | [] => []
  | ['\\'] => []
  | '\\' :: c :: rest => c :: unescape rest
  | c :: rest => c :: unescape rest

/-- Text without the quotes around it, if there is one at either end. -/
def stripQuotes (text : List Char) : List Char :=
  match text with
  | '"' :: rest => if rest.getLast? = some '"' then rest.dropLast else text
  | _ => text

def unquote (text : String) : String :=
  String.ofList (unescape (stripQuotes text.toList))

end DecisionModel.TreeFile
