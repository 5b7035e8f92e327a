import DecisionModel.Value.Basic

/-!
# Building and searching arrays and masks

An array is built from values that must all be scalars of its element type; the first
that is not is named in the error.  A mask is built from codes in the same way.
-/

namespace DecisionModel

/-- The scalars of a list of values of type `elem`, or the first value that is not one. -/
def scalarsOf (elem : ValueType) :
    List Value → Except Value { items : List Scalar // ∀ item ∈ items, item.type = elem }
  | [] => .ok ⟨[], by simp⟩
  | .scalar s :: rest =>
    if h : s.type = elem then
      match scalarsOf elem rest with
      | .error bad => .error bad
      | .ok ⟨items, typed⟩ => .ok ⟨s :: items, by simpa [h] using typed⟩
    else .error (.scalar s)
  | bad :: _ => .error bad

namespace ValueArray

def ofValues (elem : ValueType) (values : List Value) : Except ValueError ValueArray :=
  if basic : elem.isBasic = true then
    match scalarsOf elem values with
    | .ok ⟨items, typed⟩ => .ok ⟨elem, items, basic, typed⟩
    | .error bad => .error (.elementTypeMismatch elem bad.tag)
  else .error (.invalidElementType elem)

def ofIntegers (codes : List Int) : ValueArray where
  elem := .integer
  items := codes.map .integer
  basic := rfl
  typed := by simp [Scalar.type]

def size (a : ValueArray) : Nat := a.items.length

def isEmpty (a : ValueArray) : Bool := a.items.isEmpty

/-- Whether an element equals the value.  A value of another type than the elements is
    not looked for. -/
def contains (a : ValueArray) (value : Value) : Bool :=
  value.tag == .scalar a.elem && a.items.any fun item => (Value.scalar item).same value

end ValueArray

namespace Bitmask

def add (mask : Bitmask) (code : Int) : Except ValueError Bitmask :=
  match mask.insert? code with
  | some mask => .ok mask
  | none => .error (.bitOutOfRange code)

def ofCodes (codes : List Int) : Except ValueError Bitmask :=
  codes.foldlM add empty

end Bitmask

end DecisionModel
