import DecisionModel.Proofs.Source.Bytes
import DecisionModel.Proofs.Source.Token
import DecisionModel.Source.File
import DecisionModel.Source.Line

/-!
# Places in text

A span that covers a piece of text has borders of characters at both ends.  Lines are pieces of
their file without a line feed, so what stands within a line of a file is a piece of the file
that does not leave the line.
-/

namespace DecisionModel

open Text

namespace Text

/-! ### Borders of characters -/

/-- A border of a character, or an end, of text that starts at `offset`. -/
def IsBorder (offset : Nat) (text : List Char) (place : Nat) : Prop :=
  ∃ before after, text = before ++ after ∧ place = offset + byteLength before

theorem utf8ByteSize_ofList (cs : List Char) : (String.ofList cs).utf8ByteSize = byteLength cs := by
  induction cs with
  | nil => rfl
  | cons c rest ih =>
    rw [String.ofList_cons, String.utf8ByteSize_append, String.utf8ByteSize_singleton, ih,
      byteLength_cons]

/-- The borders of a text are the valid positions of its UTF-8 form. -/
theorem IsBorder.isValid {text : String} {place : Nat} (h : IsBorder 0 text.toList place) :
    (⟨place⟩ : String.Pos.Raw).IsValid text := by
  obtain ⟨before, after, htext, rfl⟩ := h
  rw [String.Pos.Raw.isValid_iff_exists_append]
  refine ⟨String.ofList before, String.ofList after, ?_, ?_⟩
  · rw [← String.ofList_append, ← htext, String.ofList_toList]
  · rw [String.rawEndPos, utf8ByteSize_ofList, Nat.zero_add]

theorem byteLength_eq_zero_iff {cs : List Char} : byteLength cs = 0 ↔ cs = [] := by
  cases cs with
  | nil => simp
  | cons c rest =>
    have hc : 0 < c.utf8Size := Char.utf8Size_pos c
    rw [byteLength_cons]
    constructor
    · intro hzero
      omega
    · intro hnil
      cases hnil

theorem takeBytes_zero (cs : List Char) : takeBytes 0 cs = [] := by
  cases cs with
  | nil => rfl
  | cons c rest => rfl

theorem takeBytes_append (before after : List Char) :
    takeBytes (byteLength before) (before ++ after) = before := by
  induction before with
  | nil => exact takeBytes_zero after
  | cons c rest ih =>
    have hc : 0 < c.utf8Size := Char.utf8Size_pos c
    have hne : c.utf8Size + byteLength rest ≠ 0 := by omega
    rw [byteLength_cons, List.cons_append, takeBytes, if_neg hne, Nat.add_sub_cancel_left, ih]

theorem dropBytes_append (before after : List Char) :
    dropBytes (byteLength before) (before ++ after) = after := by
  have hparts := takeBytes_append_dropBytes (byteLength before) (before ++ after)
  rw [takeBytes_append] at hparts
  exact List.append_cancel_left hparts

/-- Of two borders of a text, the text up to the earlier begins the text up to the later. -/
theorem exists_between_borders {before after before' after' : List Char}
    (h : before ++ after = before' ++ after') (hle : byteLength before ≤ byteLength before') :
    ∃ inside, before' = before ++ inside ∧ after = inside ++ after' := by
  rcases List.append_eq_append_iff.mp h with ⟨inside, hbefore, hafter⟩ | ⟨inside, hbefore, hafter⟩
  · exact ⟨inside, hbefore, hafter⟩
  · -- then nothing is between them
    have hinside : inside = [] := by
      rw [← byteLength_eq_zero_iff]
      rw [hbefore, byteLength_append] at hle
      omega
    subst hinside
    exact ⟨[], by simpa using hbefore.symm, by simpa using hafter.symm⟩

/-! ### What text ends with -/

/-- Text at `offset` ends with a piece that starts at `start`, given by its characters, last
    first. -/
def EndsWith (offset : Nat) (text : List Char) (start : Nat) (reversed : List Char) : Prop :=
  ∃ before, text = before ++ reversed.reverse ∧ start = offset + byteLength before

theorem endsWith_nil (offset : Nat) (text : List Char) :
    EndsWith offset text (offset + byteLength text) [] :=
  ⟨text, by simp, rfl⟩

theorem EndsWith.concat {offset : Nat} {text : List Char} {start : Nat} {reversed : List Char}
    (h : EndsWith offset text start reversed) (c : Char) :
    EndsWith offset (text ++ [c]) start (c :: reversed) := by
  obtain ⟨before, rfl, hstart⟩ := h
  exact ⟨before, by simp, hstart⟩

theorem endsWith_singleton (offset : Nat) (text : List Char) (c : Char) :
    EndsWith offset (text ++ [c]) (offset + byteLength text) [c] :=
  (endsWith_nil offset text).concat c

/-- Where a text ends with a last character behind an open piece. -/
theorem EndsWith.exists_before {offset : Nat} {text : List Char} {start : Nat}
    {reversed : List Char} {c : Char} (h : EndsWith offset text start (c :: reversed)) :
    ∃ before, text = before ++ [c] ∧ EndsWith offset before start reversed ∧
      start + byteLength reversed = offset + byteLength before := by
  obtain ⟨before, rfl, rfl⟩ := h
  refine ⟨before ++ reversed.reverse, by simp, ⟨before, rfl, rfl⟩, ?_⟩
  rw [byteLength_append, byteLength_reverse, Nat.add_assoc]

end Text

/-! ### Spans of pieces -/

namespace Span

/-- The span covers the piece `inside` of text that starts at `offset`. -/
def Covers (s : Span) (offset : Nat) (text inside : List Char) : Prop :=
  ∃ before after, text = before ++ inside ++ after ∧ s.start = offset + byteLength before ∧
    s.stop = s.start + byteLength inside

/-- The span stands in text that starts at `offset`, between borders of characters. -/
structure Within (s : Span) (offset : Nat) (text : List Char) : Prop where
  start : IsBorder offset text s.start
  stop : IsBorder offset text s.stop
  ordered : s.start ≤ s.stop

variable {s : Span} {offset : Nat} {text inside : List Char}

theorem Covers.within (h : s.Covers offset text inside) : s.Within offset text := by
  obtain ⟨before, after, rfl, hstart, hstop⟩ := h
  refine ⟨⟨before, inside ++ after, by simp, hstart⟩, ⟨before ++ inside, after, rfl, ?_⟩, ?_⟩
  · rw [hstop, hstart, byteLength_append, Nat.add_assoc]
  · rw [hstop]
    exact Nat.le_add_right _ _

theorem Covers.mem (h : s.Covers offset text inside) {c : Char} (hc : c ∈ inside) : c ∈ text := by
  obtain ⟨before, after, rfl, -⟩ := h
  simp [hc]

/-- What stands between borders covers a piece. -/
theorem Within.exists_covers (h : s.Within offset text) :
    ∃ inside, s.Covers offset text inside := by
  obtain ⟨⟨before, after, htext, hstart⟩, ⟨before', after', htext', hstop⟩, hordered⟩ := h
  obtain ⟨inside, rfl, rfl⟩ := exists_between_borders (htext.symm.trans htext') (by omega)
  refine ⟨inside, before, after', by rw [htext'], hstart, ?_⟩
  rw [hstop, hstart, byteLength_append, Nat.add_assoc]

theorem Within.cover {t : Span} (hs : s.Within offset text) (ht : t.Within offset text) :
    (s.cover t).Within offset text := by
  have hsle := hs.ordered
  have htle := ht.ordered
  refine ⟨?_, ?_, ?_⟩
  · show IsBorder offset text (min s.start t.start)
    rcases Nat.le_total s.start t.start with hle | hle
    · rw [Nat.min_eq_left hle]
      exact hs.start
    · rw [Nat.min_eq_right hle]
      exact ht.start
  · show IsBorder offset text (max s.stop t.stop)
    rcases Nat.le_total s.stop t.stop with hle | hle
    · rw [Nat.max_eq_right hle]
      exact ht.stop
    · rw [Nat.max_eq_left hle]
      exact hs.stop
  · show min s.start t.start ≤ max s.stop t.stop
    omega

/-- The end of text. -/
theorem covers_point (offset : Nat) (text : List Char) :
    (Span.point (offset + byteLength text)).Covers offset text [] :=
  ⟨text, [], by simp, rfl, rfl⟩

theorem Covers.append_right (h : s.Covers offset text inside) (more : List Char) :
    s.Covers offset (text ++ more) inside := by
  obtain ⟨before, after, rfl, hspan⟩ := h
  exact ⟨before, after ++ more, by simp, hspan⟩

/-- A piece of a piece. -/
theorem Covers.trans {t : Span} {piece : List Char} (hpiece : t.Covers offset text piece)
    (h : s.Covers t.start piece inside) : s.Covers offset text inside := by
  obtain ⟨before, after, rfl, hstart, -⟩ := hpiece
  obtain ⟨before', after', rfl, hstart', hstop'⟩ := h
  refine ⟨before ++ before', after' ++ after, by simp, ?_, hstop'⟩
  rw [hstart', hstart, byteLength_append, Nat.add_assoc]

end Span

theorem Text.EndsWith.covers {offset : Nat} {text : List Char} {start : Nat}
    {reversed : List Char} (h : EndsWith offset text start reversed) :
    (⟨start, start + byteLength reversed.reverse⟩ : Span).Covers offset text reversed.reverse := by
  obtain ⟨before, rfl, hstart⟩ := h
  exact ⟨before, [], by simp, hstart, rfl⟩

/-- The token covers its text. -/
def Token.StandsIn {κ : Type} (t : Token κ) (offset : Nat) (text : List Char) : Prop :=
  t.span.Covers offset text t.text.toList

theorem Token.StandsIn.append_right {κ : Type} {t : Token κ} {offset : Nat} {text : List Char}
    (h : t.StandsIn offset text) (more : List Char) : t.StandsIn offset (text ++ more) :=
  Span.Covers.append_right h more

theorem Text.EndsWith.standsIn {κ : Type} (kind : κ) {offset : Nat} {text : List Char}
    {start : Nat} {reversed : List Char} (h : EndsWith offset text start reversed) :
    (Token.ofChars kind start reversed.reverse).StandsIn offset text := by
  unfold Token.StandsIn Token.ofChars
  rw [String.toList_ofList]
  exact h.covers

/-! ### Lines -/

/-- The line is a piece of the text without a line feed. -/
structure Line.StandsIn (l : Line) (text : List Char) : Prop where
  covers : l.span.Covers 0 text l.text
  no_lineFeed : '\n' ∉ l.text

namespace Line

theorem standsIn_ofReversed {text : List Char} {start : Nat} {reversed : List Char}
    (hopen : EndsWith 0 text start reversed) (hline : '\n' ∉ reversed) :
    (ofReversed start reversed).StandsIn text := by
  obtain ⟨before, rfl, hstart⟩ := hopen
  have hparts : reversed = reversed.takeWhile (· == '\r') ++ reversed.dropWhile (· == '\r') :=
    List.takeWhile_append_dropWhile.symm
  constructor
  · -- the carriage returns at the end stand behind the line
    refine ⟨before, (reversed.takeWhile (· == '\r')).reverse, ?_, hstart, rfl⟩
    rw [List.append_assoc, ofReversed, ← List.reverse_append, ← hparts]
  · intro hmem
    rw [ofReversed, List.mem_reverse] at hmem
    exact hline ((List.dropWhile_sublist _).mem hmem)

theorem standsIn_split {before : List Char} {start : Nat} {reversed : List Char}
    (hopen : EndsWith 0 before start reversed) (hline : '\n' ∉ reversed) (text : List Char) :
    ∀ l ∈ split start reversed (byteLength before) text, l.StandsIn (before ++ text) := by
  induction text generalizing before start reversed with
  | nil =>
    intro l hl
    rw [List.append_nil]
    simp only [split] at hl
    split at hl
    · cases hl
    · rw [List.mem_singleton] at hl
      subst hl
      exact standsIn_ofReversed hopen hline
  | cons c rest ih =>
    have hplace : byteLength before + c.utf8Size = byteLength (before ++ [c]) := by simp
    have htext : before ++ c :: rest = before ++ [c] ++ rest := by simp
    intro l hl
    rw [htext]
    by_cases hc : c = '\n'
    · simp only [split, if_pos hc, hplace] at hl
      rcases List.mem_cons.mp hl with rfl | hlater
      · obtain ⟨hcovers, hfeed⟩ := standsIn_ofReversed hopen hline
        rw [List.append_assoc]
        exact ⟨hcovers.append_right _, hfeed⟩
      · have hnext := endsWith_nil 0 (before ++ [c])
        rw [Nat.zero_add] at hnext
        exact ih hnext (by simp) l hlater
    · simp only [split, if_neg hc, hplace] at hl
      exact ih (hopen.concat c) (by simpa [Ne.symm hc] using hline) l hl

/-- **The lines of a text stand in it.** -/
theorem standsIn_ofText (text : List Char) : ∀ l ∈ ofText text, l.StandsIn text :=
  standsIn_split (endsWith_nil 0 []) (by simp) text

end Line

namespace Span

/-- The span covers a piece of the text without a line feed. -/
def OnOneLine (s : Span) (text : List Char) : Prop :=
  ∃ inside, s.Covers 0 text inside ∧ '\n' ∉ inside

/-- What stands within a line of a text stays on it. -/
theorem Within.onOneLine {s : Span} {l : Line} {text : List Char} (h : s.Within l.offset l.text)
    (hl : l.StandsIn text) : s.OnOneLine text := by
  obtain ⟨inside, hcovers⟩ := h.exists_covers
  refine ⟨inside, hl.covers.trans hcovers, ?_⟩
  intro hfeed
  exact hl.no_lineFeed (hcovers.mem hfeed)

end Span

/-! ### Files -/

namespace SourceFile

theorem slice_of_covers {file : SourceFile} {s : Span} {inside : List Char}
    (h : s.Covers 0 file.content.toList inside) : file.slice s = inside := by
  obtain ⟨before, after, htext, hstart, hstop⟩ := h
  rw [slice, hstop, Nat.add_sub_cancel_left, hstart, Nat.zero_add, htext, List.append_assoc,
    dropBytes_append, takeBytes_append]

theorem onOneLine_endSpan (file : SourceFile) : file.endSpan.OnOneLine file.content.toList := by
  have hend := Span.covers_point 0 file.content.toList
  rw [Nat.zero_add] at hend
  exact ⟨[], hend, by simp⟩

end SourceFile

/-- A span between characters of the file, on one of its lines. -/
structure Span.PlacedIn (s : Span) (file : SourceFile) : Prop where
  ordered : s.start ≤ s.stop
  inside : s.stop ≤ file.content.utf8ByteSize
  start_valid : (⟨s.start⟩ : String.Pos.Raw).IsValid file.content
  stop_valid : (⟨s.stop⟩ : String.Pos.Raw).IsValid file.content
  no_lineFeed : '\n' ∉ file.slice s
  line : file.lineNumber s.start = 1 + (takeBytes s.start file.content.toList).count '\n'
  one_line : file.lineIndex s.stop = file.lineIndex s.start

/-- **A piece without a line feed has its place** in the file. -/
theorem Span.OnOneLine.placedIn {s : Span} {file : SourceFile}
    (h : s.OnOneLine file.content.toList) : s.PlacedIn file := by
  obtain ⟨inside, hcovers, hfeed⟩ := h
  have hwithin := hcovers.within
  have hslice := SourceFile.slice_of_covers hcovers
  obtain ⟨before, after, htext, hstart, hstop⟩ := hcovers
  rw [Nat.zero_add] at hstart
  have hstop' : s.stop = byteLength (before ++ inside) := by rw [hstop, hstart, byteLength_append]
  have hline : file.lineIndex s.start = before.count '\n' := by
    rw [hstart]
    exact SourceFile.lineIndex_of_border (by rw [htext, List.append_assoc])
  refine ⟨hwithin.ordered, ?_, hwithin.start.isValid, hwithin.stop.isValid, ?_, ?_, ?_⟩
  · rw [hstop', ← String.ofList_toList (s := file.content), utf8ByteSize_ofList, htext,
      byteLength_append _ after]
    exact Nat.le_add_right _ _
  · rw [hslice]
    exact hfeed
  · rw [SourceFile.lineNumber, hline, hstart, htext, List.append_assoc, takeBytes_append,
      Nat.add_comm]
  · rw [hline, hstop', SourceFile.lineIndex_of_border htext, List.count_append,
      List.count_eq_zero.mpr hfeed, Nat.add_zero]

end DecisionModel
