/-!
# Double-precision numbers

A number is `nan`, an infinity, or an exact binary fraction
`±significand · 2 ^ exponent`.  Nothing here rounds: numbers enter through
`DecisionModel.Number.Decimal`, which picks the nearest fraction that fits in
53 bits, and everything else only compares them.

Comparison follows the usual partial order: `nan` is comparable to nothing, not
even to itself, and the two zeros are equal.
-/

namespace DecisionModel

inductive Double where
  | nan
  | infinite (negative : Bool)
  | finite (negative : Bool) (significand : Nat) (exponent : Int)
  deriving DecidableEq, Repr, Inhabited

namespace Double

def zero (negative : Bool) : Double := .finite negative 0 0

/-- The power of two; a negative exponent counts as zero. -/
def twoTo (exponent : Int) : Nat := Nat.pow 2 exponent.toNat

def tenTo (exponent : Int) : Nat := Nat.pow 10 exponent.toNat

/-- The integer `± significand · 2 ^ (exponent - base)`, exact as soon as
    `base ≤ exponent`. -/
def scaled (negative : Bool) (significand : Nat) (exponent base : Int) : Int :=
  let magnitude : Int := significand * twoTo (exponent - base)
  if negative then -magnitude else magnitude

/-- The partial order: `none` exactly when one side is `nan`. -/
def compare? : Double → Double → Option Ordering
  | .nan, _ => none
  | _, .nan => none
  | .infinite a, .infinite b => some (Ord.compare b a)
  | .infinite a, .finite .. => some (if a then .lt else .gt)
  | .finite .., .infinite b => some (if b then .gt else .lt)
  | .finite s m e, .finite t n f =>
    let base := min e f
    some (Ord.compare (scaled s m e base) (scaled t n f base))

/-- Equality of numbers, not of their spellings: the two zeros agree and `nan`
    differs from itself. -/
def sameNumber (a b : Double) : Bool := compare? a b == some .eq

end Double

end DecisionModel
