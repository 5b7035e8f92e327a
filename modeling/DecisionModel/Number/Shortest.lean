import DecisionModel.Number.Decimal

/-!
# The shortest decimal of a double

The text of a finite double is the shortest decimal that reads back as it.  All
real numbers strictly closer to a double than to its neighbours read back as it,
and the two midpoints do when the significand is even.  For 1, 2, … 17 digits the
two points of the decimal grid around the number are tried; on the first grid that
has one in the interval the nearer is taken, and of two equally near ones the
larger.

Decimals are written without an exponent and whole numbers without a point, so
`1e21` has twenty-two digits.
-/

namespace DecisionModel.Double

/-- A positive number with the interval of reals that round to it, all over one
    denominator. -/
structure Neighbourhood where
  value : Nat
  low : Nat
  high : Nat
  denominator : Nat
  /-- Whether the ends of the interval belong to it. -/
  closed : Bool

/-- The neighbourhood of `significand · 2 ^ exponent`.  Below a power of two the
    next smaller double is only half as far away. -/
def neighbourhood (significand : Nat) (exponent : Int) : Neighbourhood :=
  let below := if significand = leastFull ∧ minExponent < exponent then 1 else 2
  let scale := exponent - 2
  let up := twoTo scale
  { value := 4 * significand * up
    low := (4 * significand - below) * up
    high := (4 * significand + 2) * up
    denominator := twoTo (-scale)
    closed := significand % 2 = 0 }

structure Decimal where
  digits : Nat
  exponent : Int
  deriving DecidableEq, Repr

/-- `n · 10 ^ exponent` over `den`, as a fraction of naturals. -/
def gridPoint (den n : Nat) (exponent : Int) : Nat × Nat :=
  (n * den * tenTo exponent, tenTo (-exponent))

/-- Whether `n · 10 ^ exponent` reads back as the number. -/
def Neighbourhood.contains (v : Neighbourhood) (n : Nat) (exponent : Int) : Bool :=
  let (num, den) := gridPoint v.denominator n exponent
  if v.closed then decide (v.low * den ≤ num) && decide (num ≤ v.high * den)
  else decide (v.low * den < num) && decide (num < v.high * den)

/-- The point of the grid `10 ^ exponent` that reads back as the number and is
    nearest to it, if the grid has one. -/
def Neighbourhood.onGrid? (v : Neighbourhood) (exponent : Int) : Option Nat :=
  let (unit, den) := gridPoint v.denominator 1 exponent
  let floor := v.value * den / unit
  let rest := v.value * den % unit
  match v.contains floor exponent, v.contains (floor + 1) exponent with
  | true, true => some (if 2 * rest < unit then floor else floor + 1)
  | true, false => some floor
  | false, true => some (floor + 1)
  | false, false => none

/-- The exponent `k` with `10 ^ (k - 1) ≤ value < 10 ^ k`. -/
def Neighbourhood.magnitude (v : Neighbourhood) : Int :=
  let estimate : Int :=
    ((Nat.toDigits 10 v.value).length : Int) - (Nat.toDigits 10 v.denominator).length
  let (num, den) := gridPoint v.denominator 1 estimate
  if num ≤ v.value * den then estimate + 1 else estimate

/-- The first of `count` ever finer grids, starting with `exponent`, that has a
    point for the number. -/
def Neighbourhood.search (v : Neighbourhood) : Nat → Int → Decimal
  | 0, exponent => ⟨0, exponent⟩
  | count + 1, exponent =>
    match v.onGrid? exponent with
    | some n => ⟨n, exponent⟩
    | none => v.search count (exponent - 1)

/-- The shortest decimal that reads back as `significand · 2 ^ exponent`. -/
def shortest (significand : Nat) (exponent : Int) : Decimal :=
  let v := neighbourhood significand exponent
  v.search 17 (v.magnitude - 1)

/-- Digits of the fraction without the zeros at its end. -/
def trimZeros (cs : List Char) : List Char :=
  (cs.reverse.dropWhile (· == '0')).reverse

def Decimal.positional (d : Decimal) : String :=
  let digits := Nat.toDigits 10 d.digits
  if 0 ≤ d.exponent then String.ofList (digits ++ List.replicate d.exponent.toNat '0')
  else
    let places := (-d.exponent).toNat
    let padded := List.replicate (places + 1 - digits.length) '0' ++ digits
    let whole := padded.take (padded.length - places)
    let fraction := trimZeros (padded.drop (padded.length - places))
    String.ofList (if fraction.isEmpty then whole else whole ++ '.' :: fraction)

def text : Double → String
  | .nan => "NaN"
  | .infinite negative => if negative then "-inf" else "inf"
  | .finite negative m e =>
    let magnitude := if m = 0 then "0" else (shortest m e).positional
    if negative then "-" ++ magnitude else magnitude

end DecisionModel.Double
