import DecisionModel.Evaluation
import DecisionModel.Proofs.Value.Arrays
import DecisionModel.Proofs.Value.Bitmask
import DecisionModel.TreeFile.Parser

/-!
# Tests for sets of codes

Whether a set of codes becomes an equality, a mask or an array, the test holds the codes of
the set, and an integer passes it exactly if it is one of them.  The forms differ on unsigned
values alone: a mask takes them for codes, an equality or an array does not.
-/

namespace DecisionModel

/-- Tests that compare a record's value with codes, and the codes they compare it with. -/
inductive Test.Codes : Test → List Int → Prop
  | eq (code : Int) : Codes ⟨.eq, .integer code⟩ [code]
  | mask (m : Bitmask) : Codes ⟨.within, .mask m⟩ m.codes
  | array (codes : List Int) : Codes ⟨.within, .array (.ofIntegers codes)⟩ codes

theorem Value.same_integer_iff {v : Value} {n : Int} :
    (Value.integer n).same v = true ↔ v = .integer n := by
  rcases v with ⟨k | k | x | s⟩ | m | a
  · simp only [same, Scalar.same, beq_iff_eq, scalar.injEq, Scalar.integer.injEq]
    exact eq_comm
  all_goals simp [same, Scalar.same]

/-- An array of codes has no other elements than integers. -/
theorem ValueArray.contains_ofIntegers_iff {codes : List Int} {v : Value} :
    (ofIntegers codes).contains v = true ↔ ∃ code ∈ codes, v = .integer code := by
  rw [contains_iff]
  simp [ofIntegers, Value.same_integer_iff]

/-- **An integer passes a test on codes** exactly if it is one of the codes. -/
theorem Test.Codes.passes_integer {t : Test} {codes : List Int} (h : t.Codes codes)
    (options : EvalOptions) (code : Int) :
    t.passes options (.integer code) = true ↔ code ∈ codes := by
  cases h with
  | eq expected => simp [Test.passes, Value.compare?, Condition.holds]
  | mask m =>
    simp only [Test.passes, Bitmask.holds]
    exact Bitmask.mem_codes_iff.symm
  | array =>
    simp only [Test.passes]
    rw [ValueArray.contains_ofIntegers_iff]
    simp

namespace TreeFile

/-- **The test for a set of codes** is a test on codes, which are those of the set. -/
theorem exists_codes_subsetTest (codes : List Int) :
    ∃ shown, (subsetTest codes).Codes shown ∧ ∀ code, code ∈ shown ↔ code ∈ codes := by
  unfold subsetTest
  split
  · rename_i code
    exact ⟨[code], .eq code, fun _ => Iff.rfl⟩
  · dsimp only
    split
    · split
      · rename_i mask hmask
        refine ⟨mask.codes, .mask mask, ?_⟩
        intro code
        rw [Bitmask.mem_codes_iff, Bitmask.contains_of_ofCodes hmask]
      · exact ⟨codes, .array codes, fun _ => Iff.rfl⟩
    · exact ⟨codes, .array codes, fun _ => Iff.rfl⟩

theorem subsetTest_passes_integer (codes : List Int) (options : EvalOptions) (code : Int) :
    (subsetTest codes).passes options (.integer code) = true ↔ code ∈ codes := by
  obtain ⟨shown, hshown, hmem⟩ := exists_codes_subsetTest codes
  rw [hshown.passes_integer, hmem]

/-! ### What passes the test for a set of codes -/

/-- The codes have bits, and are not too many for a mask. -/
def FitMask (codes : List Int) : Prop :=
  codes.length ≤ 64 ∧ ∀ code ∈ codes, 0 ≤ code ∧ code < 64

/-- The set of codes selects the value.  It selects an unsigned one only as a mask, which it is
    if it is not a single code. -/
def Selects (codes : List Int) : Value → Prop
  | .integer code => code ∈ codes
  | .unsigned n => codes.length ≠ 1 ∧ FitMask codes ∧ (n : Int) ∈ codes
  | _ => False

/-- The form of the test for a set of codes: an equality, a mask or an array. -/
theorem subsetTest_cases (codes : List Int) :
    (∃ code, codes = [code] ∧ subsetTest codes = ⟨.eq, .integer code⟩) ∨
    (codes.length ≠ 1 ∧ FitMask codes ∧
      ∃ mask, Bitmask.ofCodes codes = .ok mask ∧ subsetTest codes = ⟨.within, .mask mask⟩) ∨
    (¬ FitMask codes ∧ subsetTest codes = ⟨.within, .array (.ofIntegers codes)⟩) := by
  unfold subsetTest
  split
  · rename_i code
    exact .inl ⟨code, rfl, rfl⟩
  · rename_i hmany
    have hlength : codes.length ≠ 1 := by
      intro hone
      obtain ⟨code, rfl⟩ := List.length_eq_one_iff.mp hone
      exact hmany code rfl
    right
    dsimp only
    split
    · rename_i hwidth
      split
      · rename_i mask hmask
        exact .inl ⟨hlength, ⟨hwidth, Bitmask.exists_ofCodes_iff.mp ⟨mask, hmask⟩⟩, mask, hmask, rfl⟩
      · rename_i e hmask
        refine .inr ⟨?_, rfl⟩
        rintro ⟨-, hroom⟩
        obtain ⟨mask, hok⟩ := Bitmask.exists_ofCodes_iff.mpr hroom
        rw [hmask] at hok
        cases hok
    · rename_i hwidth
      exact .inr ⟨fun hfit => hwidth hfit.1, rfl⟩

theorem passes_eq_integer_iff (code : Int) (options : EvalOptions) (input : Value) :
    (⟨.eq, .integer code⟩ : Test).passes options input = true ↔ input = .integer code := by
  rcases input with ⟨n | n | x | s⟩ | m | a
  · simp [Test.passes, Value.compare?, Condition.holds]
  all_goals simp [Test.passes, Value.compare?]

theorem passes_mask_iff {codes : List Int} {mask : Bitmask} (h : Bitmask.ofCodes codes = .ok mask)
    (options : EvalOptions) (input : Value) :
    (⟨.within, .mask mask⟩ : Test).passes options input = true ↔
      ∃ code ∈ codes, input = .integer code ∨ ∃ n : Nat, code = n ∧ input = .unsigned n := by
  have hcontains := Bitmask.contains_of_ofCodes h
  rcases input with ⟨n | n | x | s⟩ | m | a
  · simp [Test.passes, Bitmask.holds, hcontains]
  · simp [Test.passes, Bitmask.holds, hcontains]
  all_goals simp [Test.passes, Bitmask.holds]

theorem passes_array_iff (codes : List Int) (options : EvalOptions) (input : Value) :
    (⟨.within, .array (.ofIntegers codes)⟩ : Test).passes options input = true ↔
      ∃ code ∈ codes, input = .integer code :=
  ValueArray.contains_ofIntegers_iff

/-- **The form of a set of codes does not change its meaning.**  Whatever it is, an integer passes
    the test exactly if it is one of the codes, an unsigned value passes it exactly if the set is a
    mask that has it, and no other value passes it. -/
theorem subsetTest_passes_iff_selects (codes : List Int) (options : EvalOptions) (input : Value) :
    (subsetTest codes).passes options input = true ↔ Selects codes input := by
  rcases subsetTest_cases codes with
    ⟨code, rfl, htest⟩ | ⟨hmany, hfit, mask, hmask, htest⟩ | ⟨hfit, htest⟩
  · rw [htest, passes_eq_integer_iff]
    rcases input with ⟨n | n | x | s⟩ | m | a
    all_goals simp [Selects]
  · rw [htest, passes_mask_iff hmask]
    rcases input with ⟨n | n | x | s⟩ | m | a
    all_goals simp [Selects, hmany, hfit]
  · rw [htest, passes_array_iff]
    rcases input with ⟨n | n | x | s⟩ | m | a
    all_goals simp [Selects, hfit]

end TreeFile

end DecisionModel
