import DecisionModel.Number.Decimal
import DecisionModel.Toml.Text

/-!
# TOML numbers

Digits may be separated by single underscores.  An integer has no zeros in front and fits
in 64 bits; it may also be given in base 16, 8 or 2, then without a sign.  A float has a
fraction, an exponent or both, or is `inf` or `nan`.  A float beyond the largest number
is refused; below the least one it is infinite.
-/

namespace DecisionModel.Toml

open Reader

/-- Digits with single underscores between them, in at most `fuel` characters. -/
def digitsWithin (isDigit : Char → Bool) : Nat → Reader (List Char)
  | 0 => failure
  | fuel + 1 => do
    let c ← one isDigit
    let more ← peek?
    if more.any isDigit then return c :: (← digitsWithin isDigit fuel)
    else if more == some '_' then
      word "_"
      return c :: (← digitsWithin isDigit fuel)
    else return [c]

def digits (isDigit : Char → Bool) : Reader (List Char) := do
  digitsWithin isDigit (← rest).length

def sign : Reader Bool := do
  if ← word? "-" then return true
  else
    let _ ← word? "+"
    return false

/-- The digits of a decimal number, without zeros in front. -/
def wholeDigits : Reader (List Char) := do
  if ← word? "0" then return ['0'] else digits Char.isDigit

def valueInBase (base : Nat) (ds : List Char) : Nat :=
  ds.foldl (fun n c => base * n + (hexValue? c).getD 0) 0

def fits (n : Int) : Bool := -9223372036854775808 ≤ n && n ≤ 9223372036854775807

def basedInteger (mark : String) (base : Nat) (isDigit : Char → Bool) : Reader Value := do
  word mark
  let n : Int := valueInBase base (← digits isDigit)
  if fits n then return .integer n else failure

def integer : Reader Value :=
  basedInteger "0x" 16 (fun c => (hexValue? c).isSome)
  <|> basedInteger "0o" 8 (fun c => '0' ≤ c && c ≤ '7')
  <|> basedInteger "0b" 2 (fun c => c == '0' || c == '1')
  <|> do
    let negative ← sign
    let magnitude : Int := valueInBase 10 (← wholeDigits)
    let n := if negative then -magnitude else magnitude
    if fits n then return .integer n else failure

def exponent : Reader Int := do
  let _ ← one fun c => c == 'e' || c == 'E'
  let negative ← sign
  let n : Int := valueInBase 10 (← digits Char.isDigit)
  return if negative then -n else n

def fraction : Reader (List Char) := do
  word "."
  digits Char.isDigit

def decimalFloat : Reader Value := do
  let negative ← sign
  let whole ← wholeDigits
  let part ← Reader.optional fraction
  let power ← Reader.optional exponent
  if part.isNone && power.isNone then failure
  else
    let ds := whole ++ part.getD []
    let x := Double.ofDecimal negative (Double.digitsValue ds)
      (power.getD 0 - (part.getD []).length)
    if x = .infinite false then failure else return .float x

def namedFloat : Reader Value := do
  let negative ← sign
  if ← word? "inf" then return .float (.infinite negative)
  else
    word "nan"
    return .float .nan

def float : Reader Value := decimalFloat <|> namedFloat

end DecisionModel.Toml
