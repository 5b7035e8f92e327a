import DecisionModel.Number.Double

/-!
# TOML values

Tables keep their entries in the order of the file.
-/

namespace DecisionModel.Toml

structure Date where
  year : Nat
  month : Nat
  day : Nat
  deriving DecidableEq, Repr

structure Time where
  hour : Nat
  minute : Nat
  second : Nat
  nanosecond : Nat
  deriving DecidableEq, Repr

inductive Offset where
  | utc
  | minutes (n : Int)
  deriving DecidableEq, Repr

structure Datetime where
  date : Option Date
  time : Option Time
  offset : Option Offset
  deriving DecidableEq, Repr

inductive Value where
  | text (s : String)
  | integer (n : Int)
  | float (x : Double)
  | boolean (b : Bool)
  | datetime (d : Datetime)
  | array (items : List Value)
  | table (entries : List (String × Value))
  deriving Repr, Inhabited

/-- The entries of a table, in order and with distinct keys. -/
abbrev Table := List (String × Value)

/-- The key of a table that stands for the date in its entry. -/
def datetimeKey : String := "$__toml_private_datetime"

namespace Value

def typeName : Value → String
  | .text _ => "string"
  | .integer _ => "integer"
  | .float _ => "float"
  | .boolean _ => "boolean"
  | .datetime _ => "datetime"
  | .array _ => "array"
  | .table _ => "table"

def asText? : Value → Option String
  | .text s => some s
  | _ => none

end Value

end DecisionModel.Toml
