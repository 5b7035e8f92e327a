import Mathlib
import DecisionModel.Value.Display
import DecisionModel.Proofs.Text.Pieces
import DecisionModel.Proofs.TreeFile.Outline

/-!
# Shown values stay on their line

No value is shown with a line feed.  Numbers have none, and those of texts are escaped.
-/

namespace DecisionModel

open Text TreeFile

namespace TreeFile.OnOneLine

theorem append {text text' : String} (h : OnOneLine text) (h' : OnOneLine text') :
    OnOneLine (text ++ text') := by
  intro hmem
  rw [String.toList_append, List.mem_append] at hmem
  exact hmem.elim h h'

theorem join {pieces : List String} (h : ∀ piece ∈ pieces, OnOneLine piece) :
    OnOneLine (String.join pieces) := by
  intro hmem
  rw [String.toList_join, List.mem_flatMap] at hmem
  obtain ⟨piece, hpiece, hmem⟩ := hmem
  exact h piece hpiece hmem

theorem intercalate {sep : String} {pieces : List String} (hsep : OnOneLine sep)
    (h : ∀ piece ∈ pieces, OnOneLine piece) : OnOneLine (sep.intercalate pieces) := by
  intro hmem
  rw [String.toList_intercalate] at hmem
  rcases mem_of_mem_intercalate hmem with hmem | ⟨cs, hcs, hmem⟩
  · exact hsep hmem
  · obtain ⟨piece, hpiece, rfl⟩ := List.mem_map.mp hcs
    exact h piece hpiece hmem

end TreeFile.OnOneLine

/-! ### Numbers -/

theorem onOneLine_toString (code : Int) : OnOneLine (toString code) := by
  intro hmem
  have hchar := isDigit_or_minus_of_mem hmem
  revert hchar
  decide

theorem lineFeed_notMem_toDigits {base : Nat} (hbase : 1 < base) (n : Nat) :
    '\n' ∉ Nat.toDigits base n := by
  induction n using Nat.strong_induction_on with
  | h n ih =>
    rw [Nat.toDigits_eq_if hbase]
    split
    · simp
    · have hsmaller : n / base < n := Nat.div_lt_self (by omega) hbase
      simpa using ih _ hsmaller

theorem Bitmask.onOneLine_text (m : Bitmask) : OnOneLine m.text := by
  refine .append (by decide) ?_
  intro hmem
  rw [String.toList_ofList] at hmem
  exact lineFeed_notMem_toDigits (by decide) _ hmem

namespace Double

theorem Decimal.onOneLine_positional (d : Decimal) : OnOneLine d.positional := by
  have hdigits : '\n' ∉ Nat.toDigits 10 d.digits := lineFeed_notMem_toDigits (by decide) _
  have hpadded : ∀ zeros : Nat, '\n' ∉ List.replicate zeros '0' ++ Nat.toDigits 10 d.digits := by
    intro zeros
    simp [hdigits]
  rw [OnOneLine, Decimal.positional]
  split
  · simp [hdigits]
  · intro hmem
    simp only [String.toList_ofList] at hmem
    split at hmem
    · exact hpadded _ (List.mem_of_mem_take hmem)
    · rcases List.mem_append.mp hmem with hwhole | hfraction
      · exact hpadded _ (List.mem_of_mem_take hwhole)
      · rcases List.mem_cons.mp hfraction with hpoint | hfraction
        · cases hpoint
        · rw [trimZeros, List.mem_reverse] at hfraction
          have hback := List.mem_reverse.mp ((List.dropWhile_sublist _).mem hfraction)
          exact hpadded _ (List.mem_of_mem_drop hback)

theorem onOneLine_text (x : Double) : OnOneLine x.text := by
  cases x with
  | nan => decide
  | infinite negative => cases negative <;> decide
  | finite negative m e =>
    have hmagnitude : OnOneLine (if m = 0 then "0" else (shortest m e).positional) := by
      split
      · decide
      · exact Decimal.onOneLine_positional _
    cases negative with
    | false => exact hmagnitude
    | true => exact .append (by decide) hmagnitude

end Double

/-! ### Texts -/

/-- A line feed in quoted text is escaped. -/
theorem lineFeed_notMem_showChar (c : Char) : '\n' ∉ showChar c := by
  unfold showChar
  split
  all_goals try decide
  rename_i hfeed _ _ _
  split
  · simp only [codePointEscape, List.mem_append, not_or]
    exact ⟨⟨by decide, lineFeed_notMem_toDigits (by decide) _⟩, by decide⟩
  · rw [List.mem_singleton]
    exact fun h => hfeed h.symm

theorem onOneLine_quoted (text : String) : OnOneLine (quoted text) := by
  intro hmem
  rw [quoted, String.toList_ofList, List.cons_append, List.mem_cons, List.mem_append,
    List.mem_flatMap] at hmem
  rcases hmem with hquote | ⟨c, -, hshown⟩ | hquote
  · cases hquote
  · exact lineFeed_notMem_showChar c hshown
  · exact absurd hquote (by decide)

/-! ### Values -/

theorem Scalar.onOneLine_display (item : Scalar) : OnOneLine item.display := by
  cases item with
  | integer n => exact onOneLine_toString n
  | unsigned n => exact onOneLine_toString n
  | floating x => exact x.onOneLine_text
  | text text => exact onOneLine_quoted text

namespace ValueArray

theorem onOneLine_display (a : ValueArray) : OnOneLine a.display := by
  refine .append (.append (by decide) (.intercalate (by decide) ?_)) (by decide)
  intro piece hpiece
  obtain ⟨item, -, rfl⟩ := List.mem_map.mp hpiece
  exact item.onOneLine_display

theorem onOneLine_of_mem_fitting {max used : Nat} {first : Bool} {items : List Scalar} :
    ∀ piece ∈ fitting max used first items, OnOneLine piece := by
  induction items generalizing used first with
  | nil => simp [fitting]
  | cons item rest ih =>
    intro shown hshown
    simp only [fitting] at hshown
    split at hshown
    · cases hshown
    · rcases List.mem_cons.mp hshown with rfl | hrest
      · cases first with
        | false => exact .append (by decide) item.onOneLine_display
        | true => exact item.onOneLine_display
      · exact ih shown hrest

theorem onOneLine_displayWithin (a : ValueArray) (max : Nat) : OnOneLine (a.displayWithin max) := by
  unfold displayWithin
  split
  · exact a.onOneLine_display
  · split
    · decide
    · exact .append (.append (by decide) (.join onOneLine_of_mem_fitting)) (by decide)

end ValueArray

namespace Value

theorem onOneLine_display (v : Value) : OnOneLine v.display := by
  cases v with
  | scalar item => exact item.onOneLine_display
  | mask m => exact m.onOneLine_text
  | array a => exact a.onOneLine_display

/-- **No value is shown with a line feed.** -/
theorem onOneLine_displayWithin (v : Value) (max : Nat) : OnOneLine (v.displayWithin max) := by
  cases v with
  | scalar item => exact item.onOneLine_display
  | mask m => exact m.onOneLine_text
  | array a => exact a.onOneLine_displayWithin max

end Value

end DecisionModel
