import DecisionModel.Number.Double
import DecisionModel.Value.Bitmask

/-!
# Values

The values that records hold and trees test.  A scalar is an integer, an unsigned
integer, a double or a text.  Besides scalars there are bitmasks, which are sets of
small codes, and arrays of scalars of one type.

Values of different types are never equal and never compared: an integer 1, an unsigned
1 and a double 1 are three values.
-/

namespace DecisionModel

inductive ValueType where
  | integer
  | unsigned
  | floating
  | text
  | bitmask
  deriving DecidableEq, Repr

namespace ValueType

/-- Basic types are those an array can have elements of. -/
def isBasic : ValueType → Bool
  | .bitmask => false
  | _ => true

def isNumeric : ValueType → Bool
  | .integer | .unsigned | .floating => true
  | _ => false

def name : ValueType → String
  | .integer => "integer"
  | .unsigned => "unsigned"
  | .floating => "floating"
  | .text => "string"
  | .bitmask => "bitmask"

end ValueType

/-- The full type of a value: a type, or arrays over it. -/
structure TypeTag where
  base : ValueType
  isArray : Bool
  deriving DecidableEq, Repr

namespace TypeTag

def scalar (base : ValueType) : TypeTag := ⟨base, false⟩

def array (base : ValueType) : TypeTag := ⟨base, true⟩

def name (tag : TypeTag) : String :=
  if tag.isArray then tag.base.name ++ "|array" else tag.base.name

end TypeTag

inductive Scalar where
  | integer (n : Int)
  | unsigned (n : Nat)
  | floating (x : Double)
  | text (s : String)
  deriving DecidableEq, Repr

namespace Scalar

def type : Scalar → ValueType
  | .integer _ => .integer
  | .unsigned _ => .unsigned
  | .floating _ => .floating
  | .text _ => .text

/-- Equality of scalars, which compares doubles as numbers. -/
def same : Scalar → Scalar → Bool
  | .integer a, .integer b => a == b
  | .unsigned a, .unsigned b => a == b
  | .floating a, .floating b => a.sameNumber b
  | .text a, .text b => a == b
  | _, _ => false

theorem type_eq_of_same {a b : Scalar} (h : a.same b = true) : a.type = b.type := by
  cases a <;> cases b <;> simp_all [same, type]

end Scalar

structure ValueArray where
  elem : ValueType
  items : List Scalar
  basic : elem.isBasic = true
  typed : ∀ item ∈ items, item.type = elem
  deriving DecidableEq, Repr

inductive Value where
  | scalar (s : Scalar)
  | mask (m : Bitmask)
  | array (a : ValueArray)
  deriving DecidableEq, Repr

inductive ValueError where
  | invalidElementType (elem : ValueType)
  | elementTypeMismatch (expected : ValueType) (found : TypeTag)
  | bitOutOfRange (code : Int)
  deriving DecidableEq, Repr

def ValueError.message : ValueError → String
  | .invalidElementType elem => s!"`{elem.name}` can't be used as an array element type"
  | .elementTypeMismatch expected found =>
    s!"array of {expected.name} can't hold a {found.name} element"
  | .bitOutOfRange code => s!"code {code} doesn't fit in a {Bitmask.width}-bit mask"

namespace Value

@[match_pattern] abbrev integer (n : Int) : Value := .scalar (.integer n)

@[match_pattern] abbrev unsigned (n : Nat) : Value := .scalar (.unsigned n)

@[match_pattern] abbrev floating (x : Double) : Value := .scalar (.floating x)

@[match_pattern] abbrev text (s : String) : Value := .scalar (.text s)

/-- The type of a value; for an array that of its elements. -/
def type : Value → ValueType
  | .scalar s => s.type
  | .mask _ => .bitmask
  | .array a => a.elem

def tag : Value → TypeTag
  | .array a => .array a.elem
  | v => .scalar v.type

def asInteger? : Value → Option Int
  | .integer n => some n
  | _ => none

def asText? : Value → Option String
  | .text s => some s
  | _ => none

end Value

namespace ValueArray

def sameItems : List Scalar → List Scalar → Bool
  | [], [] => true
  | a :: as, b :: bs => a.same b && sameItems as bs
  | _, _ => false

def same (a b : ValueArray) : Bool := a.elem == b.elem && sameItems a.items b.items

end ValueArray

/-- Equality of values, which compares doubles as numbers: a value that holds a `nan`
    differs from itself. -/
def Value.same : Value → Value → Bool
  | .scalar a, .scalar b => a.same b
  | .mask a, .mask b => a == b
  | .array a, .array b => a.same b
  | _, _ => false

end DecisionModel
