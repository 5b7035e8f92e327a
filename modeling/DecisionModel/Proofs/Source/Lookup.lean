import Mathlib.Data.List.Sort
import DecisionModel.Proofs.Source.Bytes

/-!
# Looking up lines

The line of a place is looked up among the starts of lines, which ascend.  A place that is no
start itself would stand behind some start, since the first is 0, so there always is a line to
find, also for a place behind the end of the text.  Each line goes from its start to the next, or
to the end of the text.
-/

namespace DecisionModel

open Text

namespace SourceFile

/-! ### Where lines start -/

theorem mem_lineStarts_iff {file : SourceFile} {start : Nat} :
    start ∈ file.lineStarts ↔
      start = 0 ∨ ∃ p, start = p + 1 ∧ file.bytes[p]? = some lineFeed := by
  rw [lineStarts_eq, List.mem_cons, List.mem_findIdxs_iff_getElem_sub_pos]
  apply or_congr_right
  constructor
  · rintro ⟨hpos, hlt, hfeed⟩
    rw [beq_iff_eq] at hfeed
    exact ⟨start - 1, by omega, List.getElem?_eq_some_iff.mpr ⟨hlt, hfeed⟩⟩
  · rintro ⟨p, rfl, hfeed⟩
    obtain ⟨hlt, hfeed⟩ := List.getElem?_eq_some_iff.mp hfeed
    exact ⟨by omega, hlt, beq_iff_eq.mpr hfeed⟩

theorem pairwise_lineStarts (file : SourceFile) : file.lineStarts.Pairwise (· < ·) := by
  rw [lineStarts_eq, List.pairwise_cons]
  exact ⟨fun start h => List.ge_of_mem_findIdxs start h, List.pairwise_findIdxs⟩

theorem lineCount_eq (file : SourceFile) : file.lineCount = 1 + file.bytes.count lineFeed := by
  rw [lineCount, lineStarts_eq, List.length_cons, List.length_findIdxs, Nat.add_comm, List.count]

end SourceFile

/-! ### Ascending places -/

section

variable {places : List Nat} {place x : Nat} {i : Nat}

/-- The places up to a given one stand in front. -/
theorem le_iff_lt_countP (h : places.Pairwise (· < ·)) (hx : places[i]? = some x) :
    x ≤ place ↔ i < places.countP (· ≤ place) := by
  induction places generalizing i with
  | nil => cases hx
  | cons y later ih =>
    obtain ⟨hy, hlater⟩ := List.pairwise_cons.mp h
    by_cases hle : y ≤ place
    · rw [List.countP_cons_of_pos (by simpa using hle)]
      cases i with
      | zero =>
        cases hx
        exact iff_of_true hle (Nat.succ_pos _)
      | succ i =>
        rw [List.getElem?_cons_succ] at hx
        rw [ih hlater hx, Nat.add_lt_add_iff_right]
    · have hnone : later.countP (· ≤ place) = 0 := by
        rw [List.countP_eq_zero]
        intro z hz
        have hlt := hy z hz
        rw [decide_eq_true_eq]
        omega
      rw [List.countP_cons_of_neg (by simpa using hle), hnone]
      refine iff_of_false ?_ (Nat.not_lt_zero _)
      rcases List.mem_cons.mp (List.mem_of_getElem? hx) with rfl | hmem
      · exact hle
      · have hlt := hy x hmem
        omega

/-- No place is strictly between one and the next. -/
theorem exists_next_of_lt (h : places.Pairwise (· < ·)) (hx : places[i]? = some x)
    (hmem : place ∈ places) (hlt : x < place) :
    ∃ next, places[i + 1]? = some next ∧ next ≤ place := by
  obtain ⟨hi, rfl⟩ := List.getElem?_eq_some_iff.mp hx
  obtain ⟨j, hj, rfl⟩ := List.mem_iff_getElem.mp hmem
  have hmono : StrictMono places.get := h.sortedLT.strictMono_get
  have hij : (⟨i, hi⟩ : Fin places.length) < ⟨j, hj⟩ := hmono.lt_iff_lt.mp hlt
  have hnext : i + 1 < places.length := Nat.lt_of_le_of_lt hij hj
  have hle : places.get ⟨i + 1, hnext⟩ ≤ places.get ⟨j, hj⟩ := hmono.monotone hij
  exact ⟨_, List.getElem?_eq_getElem hnext, hle⟩

/-- What a search for a place among ascending places comes to: the index where it stands, or, if
    it is not there, the index where it would stand. -/
inductive Sought (places : List Nat) (place : Nat) : Nat ⊕ Nat → Prop
  | found {i : Nat} : places[i]? = some place → Sought places place (.inl i)
  | missing {i : Nat} : i ≤ places.length → (∀ x ∈ places.take i, x < place) →
      (∀ x ∈ places.drop i, place < x) → Sought places place (.inr i)

theorem countP_of_found (h : places.Pairwise (· < ·)) (hi : places[i]? = some place) :
    places.countP (· ≤ place) = i + 1 := by
  have hlow : i < places.countP (· ≤ place) := (le_iff_lt_countP h hi).mp (Nat.le_refl _)
  have hhigh : ¬ i + 1 < places.countP (· ≤ place) := by
    intro hlt
    have hlength : i + 1 < places.length := Nat.lt_of_lt_of_le hlt List.countP_le_length
    have hnext : places[i + 1]? = some places[i + 1] := List.getElem?_eq_getElem hlength
    have hle : places[i + 1] ≤ place := (le_iff_lt_countP h hnext).mpr hlt
    obtain ⟨hi', hplace⟩ := List.getElem?_eq_some_iff.mp hi
    have hgt : places[i] < places[i + 1] :=
      List.pairwise_iff_getElem.mp h i (i + 1) hi' hlength (Nat.lt_succ_self i)
    omega
  omega

theorem countP_of_missing (hbefore : ∀ x ∈ places.take i, x < place)
    (hbehind : ∀ x ∈ places.drop i, place < x) (hlength : i ≤ places.length) :
    places.countP (· ≤ place) = i := by
  have hfront : (places.take i).countP (· ≤ place) = i := by
    rw [List.countP_eq_length.mpr, List.length_take_of_le hlength]
    intro x hx
    simpa using (hbefore x hx).le
  have hback : (places.drop i).countP (· ≤ place) = 0 := by
    rw [List.countP_eq_zero]
    intro x hx
    simpa using hbehind x hx
  calc places.countP (· ≤ place)
      = (places.take i).countP (· ≤ place) + (places.drop i).countP (· ≤ place) := by
        rw [← List.countP_append, List.take_append_drop]
    _ = i := by rw [hfront, hback, Nat.add_zero]

theorem missing_of_notMem (h : places.Pairwise (· < ·)) (hplace : place ∉ places) :
    Sought places place (.inr (places.countP (· ≤ place))) := by
  apply Sought.missing List.countP_le_length
  · intro x hx
    obtain ⟨j, hj, rfl⟩ := List.mem_take_iff_getElem.mp hx
    have hle : places[j] ≤ place :=
      (le_iff_lt_countP h (List.getElem?_eq_getElem (by omega))).mpr (by omega)
    have hne : places[j] ≠ place := by
      intro heq
      exact hplace (heq ▸ List.getElem_mem _)
    omega
  · intro x hx
    obtain ⟨j, hj, rfl⟩ := List.mem_drop_iff_getElem.mp hx
    have hgt : ¬ places[places.countP (· ≤ place) + j] ≤ place := by
      rw [le_iff_lt_countP h (List.getElem?_eq_getElem _)]
      omega
    omega

/-- **A search has one outcome**, told by how many places are not behind the one sought. -/
theorem sought_iff (h : places.Pairwise (· < ·)) {outcome : Nat ⊕ Nat} :
    Sought places place outcome ↔
      (∃ i, places.countP (· ≤ place) = i + 1 ∧ place ∈ places ∧ outcome = .inl i) ∨
        place ∉ places ∧ outcome = .inr (places.countP (· ≤ place)) := by
  constructor
  · rintro (hi | @⟨i, hlength, hbefore, hbehind⟩)
    · exact .inl ⟨_, countP_of_found h hi, List.mem_of_getElem? hi, rfl⟩
    · refine .inr ⟨?_, by rw [countP_of_missing hbefore hbehind hlength]⟩
      rw [← List.take_append_drop i places, List.mem_append]
      rintro (hmem | hmem)
      · exact Nat.lt_irrefl _ (hbefore place hmem)
      · exact Nat.lt_irrefl _ (hbehind place hmem)
  · rintro (⟨i, hcount, hmem, rfl⟩ | ⟨hnotMem, rfl⟩)
    · obtain ⟨j, hj⟩ := List.mem_iff_getElem?.mp hmem
      obtain rfl : i = j := Nat.succ.inj (hcount.symm.trans (countP_of_found h hj))
      exact .found hj
    · exact missing_of_notMem h hnotMem

end

namespace SourceFile

variable {file : SourceFile} {i : Nat} {s : Span}

/-! ### The lines -/

/-- The span of line `i`: it starts where the line before stops, the first at the start of the
    text, and the last stops at its end.  A line that is not the last ends in a line feed, and
    there is no other on it. -/
structure IsLine (file : SourceFile) (i : Nat) (s : Span) : Prop where
  ordered : s.start ≤ s.stop
  first : i = 0 → s.start = 0
  adjacent : ∀ t, file.lineSpan? (i + 1) = some t → t.start = s.stop
  last : i + 1 = file.lineCount → s.stop = file.bytes.length
  ended : i + 1 < file.lineCount → s.start < s.stop ∧ file.bytes[s.stop - 1]? = some lineFeed
  no_other : ∀ p, s.start ≤ p → p < s.stop → file.bytes[p]? = some lineFeed →
    i + 1 < file.lineCount ∧ p + 1 = s.stop

theorem isSome_lineSpan?_iff : (file.lineSpan? i).isSome = true ↔ i < file.lineCount := by
  simp [lineSpan?, lineCount]

/-- A line stops where the next starts, or at the end of the text. -/
theorem starts_of_lineSpan? (h : file.lineSpan? i = some s) :
    file.lineStarts[i]? = some s.start ∧
      (file.lineStarts[i + 1]? = some s.stop ∨
        i + 1 = file.lineCount ∧ s.stop = file.bytes.length) := by
  obtain ⟨start, hstart, rfl⟩ := Option.map_eq_some_iff.mp h
  refine ⟨hstart, ?_⟩
  rcases hnext : file.lineStarts[i + 1]? with _ | next
  · have hlast : file.lineCount ≤ i + 1 := List.getElem?_eq_none_iff.mp hnext
    have hlt : i < file.lineCount := (List.getElem?_eq_some_iff.mp hstart).1
    exact .inr ⟨by omega, file.length_bytes.symm⟩
  · exact .inl rfl

theorem lt_lineCount_of_start {start : Nat} (h : file.lineStarts[i]? = some start) :
    i < file.lineCount :=
  (List.getElem?_eq_some_iff.mp h).1

theorem le_length_of_mem_lineStarts {start : Nat} (h : start ∈ file.lineStarts) :
    start ≤ file.bytes.length := by
  rcases mem_lineStarts_iff.mp h with rfl | ⟨p, rfl, hfeed⟩
  · exact Nat.zero_le _
  · exact (List.getElem?_eq_some_iff.mp hfeed).1

/-- A line with another behind it is not empty: it has the line feed that the other starts
    behind. -/
theorem ended_of_starts {start next : Nat} (hstart : file.lineStarts[i]? = some start)
    (hnext : file.lineStarts[i + 1]? = some next) :
    start < next ∧ file.bytes[next - 1]? = some lineFeed := by
  obtain ⟨hi, rfl⟩ := List.getElem?_eq_some_iff.mp hstart
  obtain ⟨hi', rfl⟩ := List.getElem?_eq_some_iff.mp hnext
  have hlt : file.lineStarts[i] < file.lineStarts[i + 1] :=
    List.pairwise_iff_getElem.mp file.pairwise_lineStarts i (i + 1) hi hi' (Nat.lt_succ_self i)
  refine ⟨hlt, ?_⟩
  rcases mem_lineStarts_iff.mp (List.getElem_mem hi') with hzero | ⟨p, hp, hfeed⟩
  · omega
  · rw [hp]
    exact hfeed

/-- Behind a line feed on a line the next line starts. -/
theorem exists_start_of_lineFeed {start p : Nat} (hstart : file.lineStarts[i]? = some start)
    (hp : start ≤ p) (hfeed : file.bytes[p]? = some lineFeed) :
    ∃ next, file.lineStarts[i + 1]? = some next ∧ next ≤ p + 1 :=
  exists_next_of_lt file.pairwise_lineStarts hstart (mem_lineStarts_iff.mpr (.inr ⟨p, rfl, hfeed⟩))
    (Nat.lt_succ_of_le hp)

theorem isLine_of_lineSpan? (h : file.lineSpan? i = some s) : file.IsLine i s := by
  obtain ⟨hstart, hstop⟩ := starts_of_lineSpan? h
  have hfirst : i = 0 → s.start = 0 := by
    rintro rfl
    exact (Option.some.inj hstart).symm
  rcases hstop with hnext | ⟨hlast, hstop⟩
  · -- there is a line behind it
    have hlt : i + 1 < file.lineCount := lt_lineCount_of_start hnext
    have hended := ended_of_starts hstart hnext
    refine ⟨hended.1.le, hfirst, ?_, fun hlast => by omega, fun _ => hended, ?_⟩
    · intro t ht
      exact Option.some.inj ((starts_of_lineSpan? ht).1.symm.trans hnext)
    · intro p hp hpstop hfeed
      obtain ⟨next, hnext', hle⟩ := exists_start_of_lineFeed hstart hp hfeed
      obtain rfl : next = s.stop := Option.some.inj (hnext'.symm.trans hnext)
      exact ⟨hlt, by omega⟩
  · -- it is the last
    have hnone : ∀ next, file.lineStarts[i + 1]? ≠ some next := by
      intro next hnext
      have hlt := lt_lineCount_of_start hnext
      omega
    refine ⟨?_, hfirst, ?_, fun _ => hstop, fun hlt => by omega, ?_⟩
    · rw [hstop]
      exact le_length_of_mem_lineStarts (List.mem_of_getElem? hstart)
    · intro t ht
      exact absurd (starts_of_lineSpan? ht).1 (hnone _)
    · intro p hp _ hfeed
      obtain ⟨next, hnext, -⟩ := exists_start_of_lineFeed hstart hp hfeed
      exact absurd hnext (hnone next)

/-! ### The line of a place -/

/-- A place up to the end of the text is on its line, or at the end of the last. -/
theorem exists_lineSpan_of_le {place : Nat} (h : place ≤ file.bytes.length) :
    ∃ s, file.lineSpan? (file.lineIndex place) = some s ∧ s.start ≤ place ∧
      (place < s.stop ∨ file.lineIndex place + 1 = file.lineCount ∧ place = s.stop) := by
  have hcount : file.lineStarts.countP (· ≤ place) = file.lineIndex place + 1 := by
    rw [countP_lineStarts, lineIndex_eq]
  have hlt : file.lineIndex place < file.lineCount := by
    have hle : file.lineStarts.countP (· ≤ place) ≤ file.lineCount := List.countP_le_length
    omega
  obtain ⟨s, hs⟩ := Option.isSome_iff_exists.mp (isSome_lineSpan?_iff.mpr hlt)
  obtain ⟨hstart, hstop⟩ := starts_of_lineSpan? hs
  have hlow : s.start ≤ place := by
    rw [le_iff_lt_countP file.pairwise_lineStarts hstart, hcount]
    exact Nat.lt_succ_self _
  refine ⟨s, hs, hlow, ?_⟩
  rcases hstop with hnext | ⟨hlast, hstop⟩
  · left
    have hhigh : ¬ s.stop ≤ place := by
      rw [le_iff_lt_countP file.pairwise_lineStarts hnext, hcount]
      exact Nat.lt_irrefl _
    omega
  · rcases Nat.eq_or_lt_of_le h with heq | hlt
    · exact .inr ⟨hlast, by omega⟩
    · exact .inl (by omega)

/-- The search for the line of a place: if no line starts there, one starts before it. -/
theorem sought_lineStarts_iff {place : Nat} {outcome : Nat ⊕ Nat} :
    Sought file.lineStarts place outcome ↔
      place ∈ file.lineStarts ∧ outcome = .inl (file.lineIndex place) ∨
        place ∉ file.lineStarts ∧ outcome = .inr (file.lineIndex place + 1) := by
  rw [sought_iff file.pairwise_lineStarts, countP_lineStarts, lineIndex_eq]
  apply or_congr_left
  constructor
  · rintro ⟨i, hi, hmem, rfl⟩
    exact ⟨hmem, congrArg Sum.inl (Nat.succ.inj hi).symm⟩
  · rintro ⟨hmem, rfl⟩
    exact ⟨_, rfl, hmem, rfl⟩

/-- **Lines are looked up exactly**, for every text and every place, also behind its end.  Lines
    start at 0 and behind each line feed.  The line of a place is the number of line feeds before
    it: a search among the starts finds it, or finds where the place would stand behind it, and
    that is never in front of all starts.  There is one line more than line feeds, each has a
    span, and these are adjacent and cover the text.  A place in the text is on its line, and the
    end of the text at the end of the last. -/
theorem lines_looked_up (file : SourceFile) :
    (∀ start, start ∈ file.lineStarts ↔
      start = 0 ∨ ∃ p, start = p + 1 ∧ file.bytes[p]? = some lineFeed) ∧
    (∀ place, file.lineIndex place = (file.bytes.take place).count lineFeed) ∧
    (∀ place outcome, Sought file.lineStarts place outcome ↔
      place ∈ file.lineStarts ∧ outcome = .inl (file.lineIndex place) ∨
        place ∉ file.lineStarts ∧ outcome = .inr (file.lineIndex place + 1)) ∧
    file.lineCount = 1 + file.bytes.count lineFeed ∧
    (∀ i, (file.lineSpan? i).isSome = true ↔ i < file.lineCount) ∧
    (∀ i s, file.lineSpan? i = some s → file.IsLine i s) ∧
    ∀ place, place ≤ file.bytes.length →
      ∃ s, file.lineSpan? (file.lineIndex place) = some s ∧ s.start ≤ place ∧
        (place < s.stop ∨ file.lineIndex place + 1 = file.lineCount ∧ place = s.stop) := by
  refine ⟨?_, file.lineIndex_eq, ?_, file.lineCount_eq, ?_, ?_, ?_⟩
  · intro start
    exact mem_lineStarts_iff
  · intro place outcome
    exact sought_lineStarts_iff
  · intro i
    exact isSome_lineSpan?_iff
  · intro i s hs
    exact isLine_of_lineSpan? hs
  · intro place hplace
    exact exists_lineSpan_of_le hplace

/-- The text ends in a line feed, so its last line is empty. -/
example : (List.range 4).map (SourceFile.mk "größe.names" "größe.\n\n").lineSpan? =
    [some ⟨0, 9⟩, some ⟨9, 10⟩, some ⟨10, 10⟩, none] := by
  cbv

end SourceFile

end DecisionModel
