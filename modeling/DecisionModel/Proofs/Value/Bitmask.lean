import DecisionModel.Proofs.Lists
import DecisionModel.Value.Array

/-!
# Masks as sets of codes

A mask built from codes holds exactly these codes.
-/

namespace DecisionModel.Bitmask

theorem hasRoom_iff {code : Int} : hasRoom code = true ↔ 0 ≤ code ∧ code < 64 := by
  have hwidth : (width : Int) = 64 := rfl
  simp only [hasRoom, Bool.and_eq_true, decide_eq_true_eq]
  omega

theorem mem_codes_iff {mask : Bitmask} {code : Int} :
    code ∈ mask.codes ↔ mask.contains code = true := by
  simp only [codes, contains, List.mem_map, List.mem_filter, List.mem_range, Bool.and_eq_true,
    hasRoom_iff, width]
  constructor
  · rintro ⟨i, ⟨hi, hbit⟩, rfl⟩
    simp only [Int.ofNat_eq_natCast]
    exact ⟨⟨by omega, by omega⟩, by simpa using hbit⟩
  · rintro ⟨⟨hlow, hhigh⟩, hbit⟩
    exact ⟨code.toNat, ⟨by omega, hbit⟩, Int.toNat_of_nonneg hlow⟩

theorem contains_empty (code : Int) : empty.contains code = false := by
  simp [contains, empty]

theorem getLsbD_insert (mask : Bitmask) {i j : Nat} (hi : i < 64) :
    (mask.insert i).bits.getLsbD j = (mask.bits.getLsbD j || decide (j = i)) := by
  simp only [insert, BitVec.getLsbD_or, BitVec.getLsbD_shiftLeft, BitVec.getLsbD_one]
  by_cases hj : j = i
  · subst hj
    simp [hi]
  · have hbit : (decide (j < 64) && !decide (j < i) && (decide (0 < 64) && decide (j - i = 0))) =
        false := by
      simp only [Bool.and_eq_false_iff, decide_eq_false_iff_not, Bool.not_eq_false', decide_eq_true_eq]
      omega
    rw [hbit]
    simp [hj]

/-- A mask that takes a code holds that code and what it held before. -/
theorem contains_of_add {mask mask' : Bitmask} {code : Int} (h : mask.add code = .ok mask')
    (other : Int) : mask'.contains other = true ↔ mask.contains other = true ∨ other = code := by
  unfold add insert? at h
  by_cases hroom : hasRoom code = true
  · rw [if_pos hroom] at h
    cases h
    rw [hasRoom_iff] at hroom
    simp only [contains, Bool.and_eq_true, hasRoom_iff]
    rw [getLsbD_insert mask (by omega)]
    simp only [Bool.or_eq_true, decide_eq_true_eq]
    constructor
    · rintro ⟨⟨hlow, hhigh⟩, hbit | heq⟩
      · exact .inl ⟨⟨hlow, hhigh⟩, hbit⟩
      · exact .inr (by omega)
    · rintro (⟨hrange, hbit⟩ | rfl)
      · exact ⟨hrange, .inl hbit⟩
      · exact ⟨hroom, .inr rfl⟩
  · rw [if_neg hroom] at h
    cases h

theorem contains_of_foldlM_add {codes : List Int} {mask mask' : Bitmask}
    (h : codes.foldlM add mask = .ok mask') (other : Int) :
    mask'.contains other = true ↔ mask.contains other = true ∨ other ∈ codes := by
  induction codes generalizing mask with
  | nil =>
    cases h
    simp
  | cons code rest ih =>
    rw [List.foldlM_cons] at h
    rcases hadd : mask.add code with e | next
    · rw [hadd] at h
      cases h
    · rw [hadd] at h
      rw [ih h, contains_of_add hadd, List.mem_cons, or_assoc]

theorem exists_add_iff {mask : Bitmask} {code : Int} :
    (∃ mask', mask.add code = .ok mask') ↔ 0 ≤ code ∧ code < 64 := by
  rw [← hasRoom_iff]
  unfold add insert?
  by_cases hroom : hasRoom code = true
  · simp [hroom]
  · simp [hroom]

theorem exists_foldlM_add_iff {codes : List Int} {mask : Bitmask} :
    (∃ mask', codes.foldlM add mask = .ok mask') ↔ ∀ code ∈ codes, 0 ≤ code ∧ code < 64 := by
  induction codes generalizing mask with
  | nil => exact iff_of_true ⟨mask, rfl⟩ (by simp)
  | cons code rest ih =>
    rw [List.forall_mem_cons, ← @exists_add_iff mask code]
    constructor
    · rintro ⟨mask', hfold⟩
      rw [List.foldlM_cons] at hfold
      obtain ⟨next, hadd, hrest⟩ := bind_eq_ok_iff.mp hfold
      exact ⟨⟨next, hadd⟩, ih.mp ⟨mask', hrest⟩⟩
    · rintro ⟨⟨next, hadd⟩, hrest⟩
      obtain ⟨mask', hfold⟩ := ih.mpr hrest
      exact ⟨mask', (foldlM_cons_ok hadd).trans hfold⟩

/-- There is a mask of codes exactly if each has a bit. -/
theorem exists_ofCodes_iff {codes : List Int} :
    (∃ mask, ofCodes codes = .ok mask) ↔ ∀ code ∈ codes, 0 ≤ code ∧ code < 64 :=
  exists_foldlM_add_iff

/-- **A mask of codes holds exactly the codes.** -/
theorem contains_of_ofCodes {codes : List Int} {mask : Bitmask} (h : ofCodes codes = .ok mask)
    (code : Int) : mask.contains code = true ↔ code ∈ codes := by
  rw [contains_of_foldlM_add h, contains_empty]
  simp

end DecisionModel.Bitmask
