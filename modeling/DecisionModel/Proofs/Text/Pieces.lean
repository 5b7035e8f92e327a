import Mathlib.Data.List.Basic

/-!
# Text in pieces

Text is put together from pieces with something between them or behind each.  The pieces can be
told apart again where none of them has the character that starts what stands between.
-/

namespace DecisionModel.Text

variable {α : Type}

/-! ### Separators -/

/-- What stands before and behind the first occurrence of a character is determined. -/
theorem append_cons_inj {c : α} {front front' rest rest' : List α} (h : c ∉ front)
    (h' : c ∉ front') :
    front ++ c :: rest = front' ++ c :: rest' ↔ front = front' ∧ rest = rest' := by
  constructor
  · intro heq
    rcases List.append_eq_append_iff.mp heq with ⟨between, rfl, hrest⟩ | ⟨between, rfl, hrest⟩
    · rcases between with _ | ⟨d, between⟩
      · exact ⟨by simp, by simpa using hrest⟩
      · simp [(List.cons.inj hrest).1] at h'
    · rcases between with _ | ⟨d, between⟩
      · exact ⟨by simp, by simpa using hrest.symm⟩
      · simp [(List.cons.inj hrest).1] at h
  · rintro ⟨rfl, rfl⟩
    rfl

/-- What stands in text with separators stands in a piece or in the separator. -/
theorem mem_of_mem_intercalate {sep : List α} {xs : List (List α)} {c : α}
    (h : c ∈ sep.intercalate xs) : c ∈ sep ∨ ∃ x ∈ xs, c ∈ x := by
  induction xs with
  | nil => simp at h
  | cons x xs ih =>
    rcases xs with _ | ⟨x', xs⟩
    · exact .inr ⟨x, by simp, by simpa using h⟩
    · rw [List.intercalate_cons_cons, List.append_assoc, List.mem_append, List.mem_append] at h
      rcases h with hx | hsep | hrest
      · exact .inr ⟨x, by simp, hx⟩
      · exact .inl hsep
      · rcases ih hrest with hsep | ⟨y, hy, hc⟩
        · exact .inl hsep
        · exact .inr ⟨y, by simp [hy], hc⟩

/-- Pieces with a separator between them are determined by their text. -/
theorem eq_of_intercalate_eq {c : α} {sep : List α} {xs ys : List (List α)}
    (hxs : ∀ x ∈ xs, c ∉ x) (hys : ∀ y ∈ ys, c ∉ y) (hxne : xs ≠ []) (hyne : ys ≠ [])
    (h : (c :: sep).intercalate xs = (c :: sep).intercalate ys) : xs = ys := by
  induction xs generalizing ys with
  | nil => exact absurd rfl hxne
  | cons x xs ih =>
    obtain ⟨y, ys, rfl⟩ := List.exists_cons_of_ne_nil hyne
    have hx : c ∉ x := hxs x (by simp)
    have hy : c ∉ y := hys y (by simp)
    rcases xs with _ | ⟨x', xs⟩ <;> rcases ys with _ | ⟨y', ys⟩
    · simpa using h
    · rw [List.intercalate_cons_cons, List.intercalate_singleton] at h
      simp [h] at hx
    · rw [List.intercalate_cons_cons, List.intercalate_singleton] at h
      simp [← h] at hy
    · rw [List.intercalate_cons_cons, List.intercalate_cons_cons, List.append_assoc,
        List.append_assoc, List.cons_append, List.cons_append, append_cons_inj hx hy] at h
      obtain ⟨rfl, hrest⟩ := h
      rw [ih (fun z hz => hxs z (by simp [hz])) (fun z hz => hys z (by simp [hz])) (by simp)
        (by simp) (List.append_cancel_left hrest)]

/-- Texts with a separator between them are determined by what they make up. -/
theorem eq_of_string_intercalate_eq {c : Char} {sep : String} {xs ys : List String}
    (hsep : sep.toList.head? = some c) (hxs : ∀ x ∈ xs, c ∉ x.toList)
    (hys : ∀ y ∈ ys, c ∉ y.toList) (hxne : xs ≠ []) (hyne : ys ≠ [])
    (h : sep.intercalate xs = sep.intercalate ys) : xs = ys := by
  obtain ⟨more, hmore⟩ := List.head?_eq_some_iff.mp hsep
  have hlist := congrArg String.toList h
  rw [String.toList_intercalate, String.toList_intercalate, hmore] at hlist
  have hmap : xs.map String.toList = ys.map String.toList :=
    eq_of_intercalate_eq (by simpa using hxs) (by simpa using hys) (by simpa using hxne)
      (by simpa using hyne) hlist
  exact (List.map_inj_right fun _ _ => String.toList_inj.mp).mp hmap

/-! ### Numbers -/

theorem isDigit_or_minus_of_mem {code : Int} {c : Char} (h : c ∈ (toString code).toList) :
    c.isDigit = true ∨ c = '-' := by
  have hdigit : ∀ n : Nat, c ∈ n.repr.toList → c.isDigit = true := by
    intro n hn
    rw [Nat.toList_repr] at hn
    exact Nat.isDigit_of_mem_toDigits (by decide) (by decide) hn
  cases code with
  | ofNat n => exact .inl (hdigit n h)
  | negSucc n =>
    have hmem : c ∈ ("-" ++ (n + 1).repr).toList := h
    rw [String.toList_append, List.mem_append] at hmem
    rcases hmem with hminus | hmem
    · exact .inr (by simpa using hminus)
    · exact .inl (hdigit _ hmem)

/-! ### Lines -/

/-- The text consists of the lines, with a line feed behind each. -/
def HasLines (text : String) (lines : List String) : Prop :=
  text.toList.splitOn '\n' = lines.map String.toList ++ [[]]

instance (text : String) (lines : List String) : Decidable (HasLines text lines) :=
  inferInstanceAs (Decidable (_ = _))

theorem HasLines.unique {text : String} {lines lines' : List String} (h : HasLines text lines)
    (h' : HasLines text lines') : lines = lines' := by
  have hmap := List.append_cancel_right (h.symm.trans h')
  exact (List.map_inj_right fun _ _ => String.toList_inj.mp).mp hmap

/-- Lines without line feeds are the lines of what they make up. -/
theorem hasLines_join {lines : List String} (h : ∀ line ∈ lines, '\n' ∉ line.toList) :
    HasLines (String.join (lines.map (· ++ "\n"))) lines := by
  have htext : (String.join (lines.map (· ++ "\n"))).toList =
      ['\n'].intercalate (lines.map String.toList ++ [[]]) := by
    rw [String.toList_join]
    clear h
    induction lines with
    | nil => rfl
    | cons line rest ih =>
      rw [List.map_cons, List.map_cons, List.cons_append,
        List.intercalate_cons_of_ne_nil (by simp), ← ih]
      simp
  rw [HasLines, htext]
  refine List.splitOn_intercalate '\n' ?_ (by simp)
  intro piece hpiece
  rcases List.mem_append.mp hpiece with hline | hlast
  · obtain ⟨line, hmem, rfl⟩ := List.mem_map.mp hline
    exact h line hmem
  · rw [List.mem_singleton] at hlast
    subst hlast
    exact List.not_mem_nil

end DecisionModel.Text
