import Mathlib.Order.Bounds.Basic
import DecisionModel.Value.Display

/-!
# Arrays cut to a width

An array that is too wide is shown up to one of its elements, with an ending that says so.  Every
further element makes the text wider.  So stopping at the first element that does not fit stops
behind the last one that does, and a larger width never shows fewer elements.
-/

namespace DecisionModel

namespace ValueArray

/-- The array cut behind its first `count` elements. -/
def cutDisplay (a : ValueArray) (count : Nat) : String :=
  if count = 0 then "[...]"
  else "[" ++ ", ".intercalate ((a.items.take count).map Scalar.display) ++ ", ...]"

/-- How many elements are shown in `max` bytes. -/
def shownWithin (a : ValueArray) (max : Nat) : Nat :=
  if a.display.utf8ByteSize ≤ max then a.size
  else (fitting max "[".utf8ByteSize true a.items).length

/-- Behind `count` elements the array is cut as late as `max` bytes allow.  If they have no room
    for any cut, it is cut in front of all elements. -/
structure CutsLate (a : ValueArray) (max count : Nat) : Prop where
  greatest : IsGreatest {k | k ≤ a.size ∧ (a.cutDisplay k).utf8ByteSize ≤ max} count ∨
    (count = 0 ∧ ∀ k ≤ a.size, max < (a.cutDisplay k).utf8ByteSize)
  lt_size : a.items ≠ [] → count < a.size

/-! ### Pieces -/

/-- The pieces of text of elements. -/
def pieces : Bool → List Scalar → List String
  | _, [] => []
  | first, item :: rest => piece first item :: pieces false rest

@[simp] theorem length_pieces (first : Bool) (items : List Scalar) :
    (pieces first items).length = items.length := by
  induction items generalizing first with
  | nil => rfl
  | cons item rest ih => simp [pieces, ih]

/-- The pieces make up the elements with commas between them. -/
theorem join_pieces (items : List Scalar) :
    String.join (pieces true items) = ", ".intercalate (items.map Scalar.display) := by
  cases items with
  | nil => rfl
  | cons item rest =>
    induction rest generalizing item with
    | nil => simp [pieces, piece]
    | cons next rest ih =>
      have hrest := ih next
      simp only [pieces, piece, String.join_cons, List.map_cons, Bool.false_eq_true, if_true,
        if_false] at hrest ⊢
      rw [String.intercalate_cons_cons, ← hrest, String.append_assoc, String.append_assoc]

/-- The bytes of the first `count` elements, with the commas between them. -/
def width (first : Bool) (items : List Scalar) (count : Nat) : Nat :=
  (String.join (pieces first (items.take count))).utf8ByteSize

@[simp] theorem width_zero (first : Bool) (items : List Scalar) : width first items 0 = 0 := rfl

theorem width_cons (first : Bool) (item : Scalar) (rest : List Scalar) (count : Nat) :
    width first (item :: rest) (count + 1) =
      (piece first item).utf8ByteSize + width false rest count := by
  rw [width, List.take_succ_cons, pieces, String.join_cons, String.utf8ByteSize_append, width]

/-- More elements are wider. -/
theorem width_mono (first : Bool) (items : List Scalar) : Monotone (width first items) := by
  apply monotone_nat_of_le_succ
  intro count
  induction count generalizing first items with
  | zero => exact Nat.zero_le _
  | succ count ih =>
    cases items with
    | nil => exact Nat.le_refl _
    | cons item rest =>
      rw [width_cons, width_cons]
      exact Nat.add_le_add_left (ih false rest) _

variable (a : ValueArray)

theorem utf8ByteSize_display : a.display.utf8ByteSize = 2 + width true a.items a.size := by
  have hends : "[".utf8ByteSize = 1 ∧ "]".utf8ByteSize = 1 := by decide
  rw [display, String.utf8ByteSize_append, String.utf8ByteSize_append, ← join_pieces, width, size,
    List.take_length, hends.1, hends.2]
  omega

theorem utf8ByteSize_cutDisplay_zero : (a.cutDisplay 0).utf8ByteSize = 5 := by
  rw [cutDisplay, if_pos rfl]
  decide

theorem utf8ByteSize_cutDisplay {count : Nat} (hcount : count ≠ 0) :
    (a.cutDisplay count).utf8ByteSize = 7 + width true a.items count := by
  have hends : "[".utf8ByteSize = 1 ∧ ", ...]".utf8ByteSize = 6 := by decide
  rw [cutDisplay, if_neg hcount, String.utf8ByteSize_append, String.utf8ByteSize_append,
    ← join_pieces, width, hends.1, hends.2]
  omega

/-! ### The loop -/

/-- The loop takes elements as long as they and the ending fit, and stops at the first with which
    they do not. -/
theorem fitting_spec (max used : Nat) (first : Bool) (items : List Scalar) :
    ∃ count ≤ items.length, fitting max used first items = pieces first (items.take count) ∧
      (count ≠ 0 → used + width first items count + 6 ≤ max) ∧
      (count < items.length → max < used + width first items (count + 1) + 6) := by
  have hending : ", ...]".utf8ByteSize = 6 := by decide
  induction items generalizing used first with
  | nil => exact ⟨0, Nat.le_refl _, rfl, by simp, by simp⟩
  | cons item rest ih =>
    by_cases hfull : max < used + (piece first item).utf8ByteSize + 6
    · refine ⟨0, Nat.zero_le _, ?_, by simp, fun _ => ?_⟩
      · simp only [fitting, hending, if_pos hfull]
        rfl
      · rwa [width_cons, width_zero]
    · obtain ⟨count, hle, htake, hfits, hstops⟩ :=
        ih (used + (piece first item).utf8ByteSize) false
      refine ⟨count + 1, by simpa using hle, ?_, fun _ => ?_, fun hlt => ?_⟩
      · simp only [fitting, hending, if_neg hfull, List.take_succ_cons, pieces, htake]
      · rw [width_cons]
        rcases Nat.eq_zero_or_pos count with rfl | hpos
        · rw [width_zero]
          omega
        · have := hfits (by omega)
          omega
      · rw [width_cons]
        have := hstops (by simpa using hlt)
        omega

/-- What an array that is too wide is shown as. -/
theorem displayWithin_of_wide {max : Nat} (h : max < a.display.utf8ByteSize) :
    a.displayWithin max = a.cutDisplay (a.shownWithin max) ∧ a.shownWithin max ≤ a.size ∧
      (a.shownWithin max ≠ 0 → 7 + width true a.items (a.shownWithin max) ≤ max) ∧
      (a.shownWithin max < a.size → max < 7 + width true a.items (a.shownWithin max + 1)) := by
  have hwide : ¬ a.display.utf8ByteSize ≤ max := by omega
  have hopening : "[".utf8ByteSize = 1 := by decide
  obtain ⟨count, hle, htake, hfits, hstops⟩ := fitting_spec max 1 true a.items
  have hcount : a.shownWithin max = count := by
    rw [shownWithin, if_neg hwide, hopening, htake, length_pieces, List.length_take]
    omega
  rw [hcount]
  refine ⟨?_, hle, fun hne => ?_, fun hlt => ?_⟩
  · rw [displayWithin, if_neg hwide, hopening, htake, cutDisplay]
    rcases count with _ | count
    · rfl
    · rcases hitems : a.items with _ | ⟨item, rest⟩
      · rw [hitems] at hle
        cases hle
      · rw [← join_pieces]
        rfl
  · have := hfits hne
    omega
  · have := hstops hlt
    omega

/-! ### Late cuts -/

theorem shownWithin_of_fits {max : Nat} (h : a.display.utf8ByteSize ≤ max) :
    a.shownWithin max = a.size := if_pos h

/-- **An array that is too wide is cut as late as possible.** -/
theorem cutsLate_shownWithin {max : Nat} (h : max < a.display.utf8ByteSize) :
    a.CutsLate max (a.shownWithin max) := by
  obtain ⟨-, hle, hfits, hstops⟩ := a.displayWithin_of_wide h
  have hdisplay := a.utf8ByteSize_display
  constructor
  · by_cases hroom : (a.cutDisplay (a.shownWithin max)).utf8ByteSize ≤ max
    · -- an element more is too wide already, and so is every later cut
      refine .inl ⟨⟨hle, hroom⟩, ?_⟩
      rintro k ⟨hk, hwidth⟩
      by_contra hlater
      have hlate : a.shownWithin max + 1 ≤ k := by omega
      have hmono := width_mono true a.items hlate
      rw [a.utf8ByteSize_cutDisplay (by omega)] at hwidth
      have := hstops (by omega)
      omega
    · have hnone : a.shownWithin max = 0 := by
        by_contra hne
        rw [a.utf8ByteSize_cutDisplay hne] at hroom
        exact hroom (hfits hne)
      refine .inr ⟨hnone, fun k _ => ?_⟩
      rw [hnone, utf8ByteSize_cutDisplay_zero] at hroom
      rcases Nat.eq_zero_or_pos k with rfl | hpos
      · rw [utf8ByteSize_cutDisplay_zero]
        omega
      · rw [a.utf8ByteSize_cutDisplay (by omega)]
        omega
  · intro hne
    by_contra hall
    have hpos : 0 < a.size := List.length_pos_iff.mpr hne
    have hsize : a.shownWithin max = a.size := by omega
    rw [hsize] at hfits
    have := hfits (by omega)
    omega

theorem shownWithin_le_size (max : Nat) : a.shownWithin max ≤ a.size := by
  by_cases hfits : a.display.utf8ByteSize ≤ max
  · rw [a.shownWithin_of_fits hfits]
  · exact (a.displayWithin_of_wide (by omega)).2.1

/-- A larger width never shows fewer elements. -/
theorem shownWithin_mono : Monotone a.shownWithin := by
  intro max more hle
  by_cases hfits : a.display.utf8ByteSize ≤ more
  · rw [a.shownWithin_of_fits hfits]
    exact a.shownWithin_le_size max
  · rcases Nat.eq_zero_or_pos (a.shownWithin max) with hzero | hpos
    · rw [hzero]
      exact Nat.zero_le _
    · -- what is shown in the smaller width fits the larger one
      have hwide : max < a.display.utf8ByteSize := by omega
      have hwider : more < a.display.utf8ByteSize := by omega
      obtain ⟨-, hsize, hroom, -⟩ := a.displayWithin_of_wide hwide
      have hwidth : (a.cutDisplay (a.shownWithin max)).utf8ByteSize ≤ more := by
        rw [a.utf8ByteSize_cutDisplay (by omega)]
        have := hroom (by omega)
        omega
      rcases (a.cutsLate_shownWithin hwider).greatest with hgreatest | ⟨-, hnone⟩
      · exact hgreatest.2 ⟨hsize, hwidth⟩
      · have := hnone _ hsize
        omega

/-- Five bytes have room for the cut in front of all elements. -/
theorem utf8ByteSize_displayWithin_le {max : Nat} (h : 5 ≤ max) :
    (a.displayWithin max).utf8ByteSize ≤ max := by
  by_cases hfits : a.display.utf8ByteSize ≤ max
  · rwa [displayWithin, if_pos hfits]
  · have hwide : max < a.display.utf8ByteSize := by omega
    rw [(a.displayWithin_of_wide hwide).1]
    rcases (a.cutsLate_shownWithin hwide).greatest with hgreatest | ⟨-, hnone⟩
    · exact hgreatest.1.2
    · have := hnone 0 (Nat.zero_le _)
      rw [utf8ByteSize_cutDisplay_zero] at this
      omega

end ValueArray

/-- **Arrays are cut as late as their width allows.**  An array that fits is shown in full.  One
    that does not is cut behind as many elements as the width has room for with the ending, which
    are never all of them, or in front of all if there is no room for any cut.  So it fits whenever
    the width has room for `[...]`, and a larger width never shows fewer elements.  Other values
    are shown in full. -/
theorem displayWithin_cuts_late (max : Nat) :
    (∀ a : ValueArray,
      (a.display.utf8ByteSize ≤ max →
        (Value.array a).displayWithin max = (Value.array a).display ∧
          a.shownWithin max = a.size) ∧
      (max < a.display.utf8ByteSize →
        (Value.array a).displayWithin max = a.cutDisplay (a.shownWithin max) ∧
          a.CutsLate max (a.shownWithin max)) ∧
      (5 ≤ max → ((Value.array a).displayWithin max).utf8ByteSize ≤ max) ∧
      ∀ more, max ≤ more → a.shownWithin max ≤ a.shownWithin more) ∧
    (∀ s : Scalar, (Value.scalar s).displayWithin max = (Value.scalar s).display) ∧
    ∀ m : Bitmask, (Value.mask m).displayWithin max = (Value.mask m).display := by
  refine ⟨fun a => ⟨fun hfits => ?_, fun hwide => ?_, fun hroom => ?_, fun more hle => ?_⟩,
    fun _ => rfl, fun _ => rfl⟩
  · exact ⟨if_pos hfits, a.shownWithin_of_fits hfits⟩
  · exact ⟨(a.displayWithin_of_wide hwide).1, a.cutsLate_shownWithin hwide⟩
  · exact a.utf8ByteSize_displayWithin_le hroom
  · exact a.shownWithin_mono hle

/-- Numbers of different lengths, which take eleven bytes in full. -/
def lengths : ValueArray := .ofIntegers [1, -2, 30]

theorem displayWithin_lengths :
    lengths.display.utf8ByteSize = 11 ∧
      (Value.array lengths).displayWithin 10 = "[1, ...]" ∧ lengths.CutsLate 10 1 ∧
      (Value.array lengths).displayWithin 11 = (Value.array lengths).display ∧
      ((Value.array lengths).displayWithin 10).utf8ByteSize ≤ 10 ∧
      lengths.shownWithin 10 ≤ lengths.shownWithin 11 := by
  have hwidth : lengths.display.utf8ByteSize = 11 := by decide +kernel
  have hshown : lengths.shownWithin 10 = 1 := by decide +kernel
  have hone : lengths.cutDisplay 1 = "[1, ...]" := by decide +kernel
  obtain ⟨-, hcut, hroom, hmono⟩ := (displayWithin_cuts_late 10).1 lengths
  obtain ⟨htext, hlate⟩ := hcut (by omega)
  obtain ⟨hfull, -⟩ := ((displayWithin_cuts_late 11).1 lengths).1 (by omega)
  rw [hshown] at hlate
  rw [hshown, hone] at htext
  refine ⟨hwidth, htext, hlate, hfull, ?_, ?_⟩
  · exact hroom (by decide)
  · exact hmono 11 (by decide)

end DecisionModel
