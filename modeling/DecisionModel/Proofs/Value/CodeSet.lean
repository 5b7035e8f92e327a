import Mathlib
import DecisionModel.Proofs.Value.Bitmask

/-!
# Masks and sets

A mask is nothing but the set of its codes, which are from 0 to 63.  Two masks with the same
codes are the same, and the size of a mask, which counts its bits, is the number of its codes.
Codes that are inserted are added to the set, those without a bit are refused, and the order
makes no difference.
-/

namespace DecisionModel.Bitmask

variable {mask other : Bitmask} {codes : List Int}

/-! ### Masks by their codes -/

theorem contains_natCast (mask : Bitmask) {i : Nat} (hi : i < 64) :
    mask.contains i = mask.bits.getLsbD i := by
  have hroom : hasRoom i = true := hasRoom_iff.mpr ⟨Int.natCast_nonneg i, by omega⟩
  rw [contains, hroom, Bool.true_and, Int.toNat_natCast]

/-- **A mask is told by its codes.** -/
theorem eq_of_contains_iff (h : ∀ c, mask.contains c = true ↔ other.contains c = true) :
    mask = other := by
  obtain ⟨bits⟩ := mask
  obtain ⟨bits'⟩ := other
  congr 1
  apply BitVec.eq_of_getLsbD_eq
  intro i hi
  rw [Bool.eq_iff_iff]
  simpa only [contains_natCast _ hi] using h i

theorem bounds_of_contains {code : Int} (h : mask.contains code = true) : 0 ≤ code ∧ code < 64 :=
  hasRoom_iff.mp (Bool.and_eq_true_iff.mp h).1

theorem sortedLT_codes (mask : Bitmask) : mask.codes.SortedLT := by
  have hrange : ((List.range width).filter mask.bits.getLsbD).Pairwise (· < ·) :=
    List.pairwise_lt_range.filter _
  have hcodes : mask.codes.Pairwise (· < ·) :=
    List.pairwise_map.mpr (hrange.imp fun hlt => Int.ofNat_lt.mpr hlt)
  exact hcodes.sortedLT

/-- The bits are counted from the highest down. -/
theorem cpopNatRec_eq_countP {w : Nat} (bits : BitVec w) (n acc : Nat) :
    bits.cpopNatRec n acc = acc + (List.range n).countP bits.getLsbD := by
  induction n generalizing acc with
  | zero => rfl
  | succ n ih =>
    rw [BitVec.cpopNatRec_succ, ih, List.range_succ, List.countP_append, List.countP_singleton]
    cases bits.getLsbD n
    · simp
    · simp only [Bool.toNat_true, if_true]
      omega

theorem size_eq_length_codes (mask : Bitmask) : mask.size = mask.codes.length := by
  rw [size, BitVec.toNat_cpop, cpopNatRec_eq_countP, codes, List.length_map,
    ← List.countP_eq_length_filter, Nat.zero_add, width]

theorem isEmpty_iff : mask.isEmpty = true ↔ mask.codes = [] := by
  rw [List.eq_nil_iff_forall_not_mem, isEmpty, beq_iff_eq]
  constructor
  · intro hbits code hcode
    rw [mem_codes_iff, contains, hbits] at hcode
    simp at hcode
  · intro hnone
    have hempty : mask = empty := by
      apply eq_of_contains_iff
      intro c
      rw [contains_empty, ← mem_codes_iff]
      simpa using hnone c
    rw [hempty]
    rfl

/-- The mask has exactly the codes of the list, and shows so in all ways. -/
structure IsSetOf (mask : Bitmask) (codes : List Int) : Prop where
  contains_iff : ∀ c, mask.contains c = true ↔ c ∈ codes
  codes_eq : mask.codes = codes.toFinset.sort (· ≤ ·)
  size_eq : mask.size = mask.codes.length
  isEmpty_iff : mask.isEmpty = true ↔ codes = []

theorem isSetOf_of_contains_iff (h : ∀ c, mask.contains c = true ↔ c ∈ codes) :
    mask.IsSetOf codes := by
  have hcodes : mask.codes = codes.toFinset.sort (· ≤ ·) := by
    apply mask.sortedLT_codes.eq_of_mem_iff (Finset.sortedLT_sort _)
    intro c
    rw [mem_codes_iff, h, Finset.mem_sort, List.mem_toFinset]
  refine ⟨h, hcodes, mask.size_eq_length_codes, ?_⟩
  rw [isEmpty_iff, List.eq_nil_iff_forall_not_mem, List.eq_nil_iff_forall_not_mem]
  simp only [mem_codes_iff, h]

/-! ### Insertions -/

theorem add_cases (mask : Bitmask) (code : Int) :
    ((code < 0 ∨ 64 ≤ code) ∧ mask.add code = .error (.bitOutOfRange code)) ∨
      (0 ≤ code ∧ code < 64) ∧ ∃ next, mask.add code = .ok next ∧
        ∀ c, next.contains c = true ↔ mask.contains c = true ∨ c = code := by
  by_cases hroom : hasRoom code = true
  · obtain ⟨next, hnext⟩ := exists_add_iff.mpr (hasRoom_iff.mp hroom)
    exact .inr ⟨hasRoom_iff.mp hroom, next, hnext, contains_of_add hnext⟩
  · left
    constructor
    · rw [hasRoom_iff] at hroom
      omega
    · rw [add, insert?, if_neg hroom]

/-- A call that inserts a code: its outcome, and the mask behind it. -/
def call (mask : Bitmask) (code : Int) : Except ValueError Unit × Bitmask :=
  match mask.add code with
  | .ok next => (.ok (), next)
  | .error e => (.error e, mask)

/-- The mask behind a sequence of calls. -/
def run (mask : Bitmask) (codes : List Int) : Bitmask :=
  codes.foldl (fun mask code => (mask.call code).2) mask

/-- A code without a bit is refused and the mask stays as it is; else the code is added, and no
    other. -/
inductive Inserts (mask : Bitmask) (code : Int) : Except ValueError Unit × Bitmask → Prop
  | refused : (code < 0 ∨ 64 ≤ code) → Inserts mask code (.error (.bitOutOfRange code), mask)
  | added {next : Bitmask} : 0 ≤ code → code < 64 →
      (∀ c, next.contains c = true ↔ mask.contains c = true ∨ c = code) →
      Inserts mask code (.ok (), next)

theorem inserts_call (mask : Bitmask) (code : Int) : mask.Inserts code (mask.call code) := by
  rcases mask.add_cases code with ⟨hout, hadd⟩ | ⟨⟨hlow, hhigh⟩, next, hadd, hnext⟩
  · rw [call, hadd]
    exact .refused hout
  · rw [call, hadd]
    exact .added hlow hhigh hnext

/-- What a call adds to the codes of a mask. -/
theorem contains_call_iff {code c : Int} :
    (mask.call code).2.contains c = true ↔
      mask.contains c = true ∨ c = code ∧ 0 ≤ c ∧ c < 64 := by
  have hinserts := mask.inserts_call code
  generalize mask.call code = behind at hinserts
  cases hinserts with
  | refused hout =>
    constructor
    · exact .inl
    · rintro (h | ⟨rfl, hlow, hhigh⟩)
      · exact h
      · omega
  | added hlow hhigh hnext =>
    rw [hnext]
    apply or_congr_right
    constructor
    · rintro rfl
      exact ⟨rfl, hlow, hhigh⟩
    · exact And.left

/-- **What a sequence of calls adds** to the codes of a mask. -/
theorem contains_run_iff {c : Int} :
    (mask.run codes).contains c = true ↔
      mask.contains c = true ∨ c ∈ codes ∧ 0 ≤ c ∧ c < 64 := by
  induction codes generalizing mask with
  | nil => simp [run]
  | cons code rest ih =>
    have hcons : mask.run (code :: rest) = (mask.call code).2.run rest := rfl
    rw [hcons, ih, contains_call_iff, List.mem_cons, or_assoc, or_and_right]

theorem run_eq_of_perm {others : List Int} (h : codes.Perm others) :
    mask.run codes = mask.run others := by
  apply eq_of_contains_iff
  intro c
  rw [contains_run_iff, contains_run_iff, h.mem_iff]

/-! ### Masks of codes -/

theorem ofCodes_eq_ok_iff : ofCodes codes = .ok mask ↔ mask.IsSetOf codes := by
  constructor
  · intro h
    exact isSetOf_of_contains_iff (contains_of_ofCodes h)
  · intro h
    have hbounds : ∀ code ∈ codes, 0 ≤ code ∧ code < 64 := by
      intro code hcode
      exact bounds_of_contains ((h.contains_iff code).mpr hcode)
    obtain ⟨made, hmade⟩ := exists_ofCodes_iff.mpr hbounds
    have hsame : made = mask := by
      apply eq_of_contains_iff
      intro c
      rw [contains_of_ofCodes hmade, h.contains_iff]
    rw [hmade, hsame]

theorem ofCodes_codes (mask : Bitmask) : ofCodes mask.codes = .ok mask :=
  ofCodes_eq_ok_iff.mpr (isSetOf_of_contains_iff fun _ => mem_codes_iff.symm)

theorem foldlM_add_eq_error_iff {e : ValueError} :
    codes.foldlM add mask = .error e ↔
      ∃ bad, codes.find? (fun c => c < 0 ∨ 64 ≤ c) = some bad ∧ e = .bitOutOfRange bad := by
  induction codes generalizing mask with
  | nil => exact iff_of_false nofun (by simp)
  | cons code rest ih =>
    rw [List.foldlM_cons]
    rcases mask.add_cases code with ⟨hout, hadd⟩ | ⟨hin, next, hadd, -⟩
    · rw [hadd, error_bind, List.find?_cons_of_pos (by simpa using hout)]
      simp [eq_comm]
    · rw [hadd, ok_bind, List.find?_cons_of_neg (by simpa using hin), ih]

/-- **A mask is a set of codes from 0 to 63.**  Making one fails exactly at the first code that is
    none of them, and else gives the set of the codes; each mask is made from its own codes.
    However codes are inserted, one without a bit is refused and changes nothing, any other is
    added, and the order makes no difference. -/
theorem masks_are_sets (mask : Bitmask) (codes : List Int) :
    (∀ e, ofCodes codes = .error e ↔
      ∃ bad, codes.find? (fun c => c < 0 ∨ 64 ≤ c) = some bad ∧ e = .bitOutOfRange bad) ∧
    (ofCodes codes = .ok mask ↔ mask.IsSetOf codes) ∧
    ofCodes mask.codes = .ok mask ∧
    mask.IsSetOf mask.codes ∧
    (∀ code, mask.Inserts code (mask.call code)) ∧
    (∀ c, (mask.run codes).contains c = true ↔
      mask.contains c = true ∨ c ∈ codes ∧ 0 ≤ c ∧ c < 64) ∧
    ∀ others, codes.Perm others → mask.run codes = mask.run others := by
  refine ⟨?_, ofCodes_eq_ok_iff, mask.ofCodes_codes, ?_, mask.inserts_call, ?_, ?_⟩
  · intro e
    exact foldlM_add_eq_error_iff
  · exact isSetOf_of_contains_iff fun c => mem_codes_iff.symm
  · intro c
    exact contains_run_iff
  · intro others h
    exact run_eq_of_perm h

example : ((empty.run [63, 64, 31, 32, -1, 31]).codes, ofCodes [63, 64, -1]) =
    ([31, 32, 63], .error (.bitOutOfRange 64)) := by
  decide

end DecisionModel.Bitmask
