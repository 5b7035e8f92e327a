import DecisionModel.Number.Double

/-!
# Reading decimal numbers

`Double.ofDecimal` is the double nearest to a decimal fraction
`± digits · 10 ^ exponent`, a half going to the even neighbour; the quotient is
computed exactly, so there is no double rounding.  `Double.ofText?` reads the
number grammar

    [+-] ( inf | infinity | nan | digits [ . digits ] [ e [+-] digits ] )

in which letters are read in either case and one side of the point may be empty.
-/

namespace DecisionModel

/-- `num / den` rounded to the nearest integer, a half to the even one. -/
def roundHalfEven (num den : Nat) : Nat :=
  let quotient := num / den
  let rest := 2 * (num % den)
  if rest < den then quotient
  else if den < rest then quotient + 1
  else quotient + quotient % 2

namespace Double

/-- Bits of a full significand. -/
def precision : Nat := 53

def leastFull : Nat := twoTo (precision - 1 : Nat)

/-- The exponent of the smallest subnormal number. -/
def minExponent : Int := -1074

/-- The exponent of the largest finite numbers. -/
def maxExponent : Int := 971

/-- The double nearest to `± num / den`, for positive `num` and `den`. -/
def ofQuotient (negative : Bool) (num den : Nat) : Double :=
  let estimate : Int := (num.log2 : Int) - den.log2 - (precision - 1 : Nat)
  let scale (q : Int) : Nat × Nat :=
    (num * twoTo (-q), den * twoTo q)
  let (n, d) := scale estimate
  let q := max minExponent (if n < d * leastFull then estimate - 1 else estimate)
  let (n, d) := scale q
  let m := roundHalfEven n d
  let (m, q) := if m = 2 * leastFull then (leastFull, q + 1) else (m, q)
  if maxExponent < q then .infinite negative else .finite negative m q

/-- The double nearest to `± digits · 10 ^ exponent`.  Magnitudes from `10 ^ 310`
    are infinite and those below `10 ^ -330` vanish, so the powers stay small. -/
def ofDecimal (negative : Bool) (digits : Nat) (exponent : Int) : Double :=
  if digits = 0 then zero negative
  else
    let magnitude : Int := (Nat.toDigits 10 digits).length + exponent
    if 311 ≤ magnitude then .infinite negative
    else if magnitude ≤ -330 then zero negative
    else ofQuotient negative (digits * tenTo exponent) (tenTo (-exponent))

/-! ### The number grammar -/

def digitsValue (cs : List Char) : Nat :=
  cs.foldl (fun n c => 10 * n + (c.toNat - '0'.toNat)) 0

/-- An optional sign in front: whether it is a minus, and what follows. -/
def takeSign : List Char → Bool × List Char
  | '-' :: rest => (true, rest)
  | '+' :: rest => (false, rest)
  | cs => (false, cs)

/-- The exponent part, which is empty or `e`, a sign and at least one digit. -/
def exponent? : List Char → Option Int
  | [] => some 0
  | c :: rest =>
    if c = 'e' ∨ c = 'E' then
      let (negative, digits) := takeSign rest
      if digits.isEmpty || !digits.all Char.isDigit then none
      else
        let value : Int := digitsValue digits
        some (if negative then -value else value)
    else none

/-- An unsigned decimal: digits, at most one point, and an exponent. -/
def unsignedDecimal? (negative : Bool) (cs : List Char) : Option Double :=
  let whole := cs.takeWhile Char.isDigit
  let rest := cs.dropWhile Char.isDigit
  let (fraction, rest) := match rest with
    | '.' :: rest => (rest.takeWhile Char.isDigit, rest.dropWhile Char.isDigit)
    | _ => ([], rest)
  if whole.isEmpty && fraction.isEmpty then none
  else (exponent? rest).map fun e =>
    ofDecimal negative (digitsValue (whole ++ fraction)) (e - fraction.length)

def ofText? (text : String) : Option Double :=
  let (negative, cs) := takeSign text.toList
  let word := String.ofList (cs.map Char.toLower)
  if word = "inf" ∨ word = "infinity" then some (.infinite negative)
  else if word = "nan" then some .nan
  else unsignedDecimal? negative cs

end Double

end DecisionModel
