import DecisionModel.Toml.Number

/-!
# TOML dates and times

A date can be given as a value, or as a text under `datetimeKey` in a table, which then
stands for that date.
-/

namespace DecisionModel.Toml

open Reader

/-- A number of exactly so many digits, in a range. -/
def fixedDigits (count low high : Nat) : Reader Nat := do
  let cs ← rest
  let ds := cs.take count
  let n := Double.digitsValue ds
  if ds.length = count && ds.all Char.isDigit && low ≤ n && n ≤ high then
    set (cs.drop count)
    return n
  else failure

def daysIn (year month : Nat) : Nat :=
  let leap := year % 4 == 0 && (year % 100 != 0 || year % 400 == 0)
  if month = 2 then if leap then 29 else 28
  else if month = 4 ∨ month = 6 ∨ month = 9 ∨ month = 11 then 30
  else 31

def date : Reader Date := do
  let year ← fixedDigits 4 0 9999
  word "-"
  let month ← fixedDigits 2 1 12
  word "-"
  let day ← fixedDigits 2 1 (daysIn year month)
  return ⟨year, month, day⟩

/-- The digits of a second's fraction; those behind the ninth do not count. -/
def nanoseconds : Reader Nat := do
  word "."
  let ds ← Reader.takeWhile Char.isDigit
  if ds.isEmpty then failure
  else
    let ds := ds.take 9
    return Double.digitsValue ds * Double.tenTo (9 - ds.length : Nat)

def time : Reader Time := do
  let hour ← fixedDigits 2 0 23
  word ":"
  let minute ← fixedDigits 2 0 59
  word ":"
  let second ← fixedDigits 2 0 60
  let fraction ← Reader.optional nanoseconds
  return ⟨hour, minute, second, fraction.getD 0⟩

def offset : Reader Offset := do
  match ← one fun c => c == 'Z' || c == 'z' || c == '+' || c == '-' with
  | '+' => return .minutes (← minutes)
  | '-' => return .minutes (-(← minutes))
  | _ => return .utc
where
  minutes : Reader Int := do
    let hour ← fixedDigits 2 0 23
    word ":"
    let minute ← fixedDigits 2 0 59
    return hour * 60 + minute

/-- The time of a date, behind a `T` or a space, and its offset. -/
def timeOfDate : Reader (Time × Option Offset) := do
  let _ ← one fun c => c == 'T' || c == 't' || c == ' '
  let t ← time
  return (t, ← Reader.optional offset)

def datetime : Reader Datetime :=
  (do
    let d ← date
    match ← Reader.optional timeOfDate with
    | some (t, o) => return ⟨some d, some t, o⟩
    | none => return ⟨some d, none, none⟩)
  <|> (do return ⟨none, some (← time), none⟩)

/-! ### Dates as texts -/

def Datetime.ofText? (s : String) : Option Datetime :=
  match datetime.run s.toList with
  | some (d, []) => some d
  | _ => none

def Datetime.ofTable? : Table → Option Datetime
  | (_, .text s) :: _ => ofText? s
  | _ => none

mutual

/-- The value with a date in place of each table that has `datetimeKey` in front, or `none`
    if one of these tables has no date there. -/
def Value.readDates : Value → Option Value
  | .array items => (readItemDates items).map .array
  | .table entries =>
    if entries.head?.map (·.1) = some datetimeKey then
      (Datetime.ofTable? entries).map .datetime
    else (readEntryDates entries).map .table
  | v => some v
termination_by structural v => v

def readItemDates : List Value → Option (List Value)
  | [] => some []
  | v :: rest => do return (← v.readDates) :: (← readItemDates rest)
termination_by structural items => items

def readEntryDates : List (String × Value) → Option (List (String × Value))
  | [] => some []
  | (key, v) :: rest => do return (key, ← v.readDates) :: (← readEntryDates rest)
termination_by structural entries => entries

end

end DecisionModel.Toml
