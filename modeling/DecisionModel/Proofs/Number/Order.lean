import Mathlib.Algebra.Order.Field.Power
import Mathlib.Algebra.Order.Field.Rat
import Mathlib.Order.Compare
import Mathlib.Order.WithBot
import DecisionModel.Number.Double

/-!
# The order of doubles

A double stands for a number: a rational one, or one of the two infinities at the ends.  Only
`nan` stands for none.  Doubles compare as their numbers do, so that `nan` compares with nothing
and two spellings of one number, such as the two zeros, are equal.
-/

namespace DecisionModel

/-- Rational numbers, with a least and a greatest number added. -/
abbrev ExtendedRational := WithBot (WithTop ℚ)

/-- A comparison tells how two elements of a linear order stand to each other. -/
theorem compare_eq_iff_compares {α : Type} [LinearOrder α] {a b : α} {o : Ordering} :
    compare a b = o ↔ o.Compares a b := by
  cases o
  · exact compare_lt_iff_lt
  · exact compare_eq_iff_eq
  · exact compare_gt_iff_gt

theorem compares_coe_iff {q r : ℚ} {o : Ordering} :
    o.Compares ((q : WithTop ℚ) : ExtendedRational) ((r : WithTop ℚ) : ExtendedRational) ↔
      o.Compares q r :=
  WithBot.coe_strictMono.compares.trans WithTop.coe_strictMono.compares

namespace Double

/-- The rational number `± significand · 2 ^ exponent`. -/
def fraction (negative : Bool) (significand : Nat) (exponent : Int) : ℚ :=
  (if negative then -(significand : ℚ) else significand) * 2 ^ exponent

/-- The number that a double stands for, if it is one. -/
def number? : Double → Option ExtendedRational
  | .nan => none
  | .infinite negative => some (if negative then ⊥ else ⊤)
  | .finite negative significand exponent =>
    some ((fraction negative significand exponent : WithTop ℚ) : ExtendedRational)

theorem exists_number_iff {x : Double} : (∃ a, x.number? = some a) ↔ x ≠ .nan := by
  cases x <;> simp [number?]

theorem cast_twoTo {exponent : Int} (h : 0 ≤ exponent) :
    (twoTo exponent : ℚ) = 2 ^ exponent := by
  obtain ⟨n, rfl⟩ := Int.eq_ofNat_of_zero_le h
  rw [twoTo, Int.toNat_natCast, zpow_natCast]
  exact Nat.cast_pow 2 n

/-- Scaling divides by a power of two, and is exact from the base on. -/
theorem cast_scaled (negative : Bool) (significand : Nat) {exponent base : Int}
    (h : base ≤ exponent) :
    (scaled negative significand exponent base : ℚ) =
      fraction negative significand exponent * 2 ^ (-base) := by
  have hpower : (twoTo (exponent - base) : ℚ) = 2 ^ exponent * 2 ^ (-base) := by
    rw [cast_twoTo (by omega), sub_eq_add_neg, zpow_add₀ two_ne_zero]
  rw [fraction, mul_assoc, ← hpower]
  cases negative <;> simp [scaled]

theorem compares_scaled_iff {s t : Bool} {m n : Nat} {e f base : Int} (he : base ≤ e)
    (hf : base ≤ f) {o : Ordering} :
    o.Compares (scaled s m e base) (scaled t n f base) ↔
      o.Compares (fraction s m e) (fraction t n f) := by
  have hscale : StrictMono fun q : ℚ => q * 2 ^ (-base) := by
    intro p q hlt
    exact mul_lt_mul_of_pos_right hlt (zpow_pos two_pos _)
  calc o.Compares (scaled s m e base) (scaled t n f base)
      ↔ o.Compares (scaled s m e base : ℚ) (scaled t n f base : ℚ) :=
        (Int.cast_strictMono (R := ℚ)).compares.symm
    _ ↔ o.Compares (fraction s m e * 2 ^ (-base)) (fraction t n f * 2 ^ (-base)) := by
        rw [cast_scaled s m he, cast_scaled t n hf]
    _ ↔ o.Compares (fraction s m e) (fraction t n f) := hscale.compares

theorem fraction_lt_top (q : ℚ) : ((q : WithTop ℚ) : ExtendedRational) < ⊤ :=
  WithBot.coe_lt_coe.mpr (WithTop.coe_lt_top q)

theorem compare?_of_numbers {x y : Double} {a b : ExtendedRational} (hx : x.number? = some a)
    (hy : y.number? = some b) {o : Ordering} : x.compare? y = some o ↔ o.Compares a b := by
  match x, y with
  | .nan, _ => cases hx
  | _, .nan => cases hy
  | .infinite s, .infinite t =>
    cases hx
    cases hy
    cases s <;> cases t <;> cases o <;> simp [compare?, Ordering.Compares] <;> decide
  | .infinite s, .finite t n f =>
    cases hx
    cases hy
    cases s <;> cases o <;> simp [compare?, Ordering.Compares, fraction_lt_top]
  | .finite s m e, .infinite t =>
    cases hx
    cases hy
    cases t <;> cases o <;> simp [compare?, Ordering.Compares, fraction_lt_top]
  | .finite s m e, .finite t n f =>
    cases hx
    cases hy
    rw [compares_coe_iff, ← compares_scaled_iff (min_le_left e f) (min_le_right e f), compare?,
      Option.some_inj]
    exact compare_eq_iff_compares

theorem ne_nan_of_compare? {x y : Double} {o : Ordering} (h : x.compare? y = some o) :
    x ≠ .nan ∧ y ≠ .nan := by
  cases x <;> cases y <;> simp_all [compare?]

/-- **Doubles compare as numbers do**, as far as they are numbers. -/
theorem compare?_eq_some_iff {x y : Double} {o : Ordering} :
    x.compare? y = some o ↔
      ∃ a b, x.number? = some a ∧ y.number? = some b ∧ o.Compares a b := by
  constructor
  · intro h
    obtain ⟨hx, hy⟩ := ne_nan_of_compare? h
    obtain ⟨a, ha⟩ := exists_number_iff.mpr hx
    obtain ⟨b, hb⟩ := exists_number_iff.mpr hy
    exact ⟨a, b, ha, hb, (compare?_of_numbers ha hb).mp h⟩
  · rintro ⟨a, b, ha, hb, h⟩
    exact (compare?_of_numbers ha hb).mpr h

end Double

end DecisionModel
