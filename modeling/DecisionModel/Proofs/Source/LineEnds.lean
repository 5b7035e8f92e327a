import DecisionModel.Proofs.Source.Line
import DecisionModel.Proofs.Source.Moved
import DecisionModel.Proofs.Source.Place

/-!
# Carriage returns before line feeds

A file may end its lines with a carriage return and a line feed in place of a line feed alone.
Each place then moves by the number of line feeds before it, which is the index of its line.  So
places keep their order and their lines, and the lines themselves move as a whole.
-/

namespace DecisionModel

open Text

namespace Text

/-- The text with a carriage return before each line feed. -/
def crlf (text : List Char) : List Char :=
  text.flatMap fun c => if c = '\n' then LineEnd.carriageReturn.text else [c]

@[simp] theorem crlf_append (before after : List Char) :
    crlf (before ++ after) = crlf before ++ crlf after :=
  List.flatMap_append

theorem crlf_cons_lineFeed (rest : List Char) : crlf ('\n' :: rest) = '\r' :: '\n' :: crlf rest :=
  rfl

theorem crlf_cons_of_ne {c : Char} (h : c ≠ '\n') (rest : List Char) :
    crlf (c :: rest) = c :: crlf rest := by
  rw [crlf, List.flatMap_cons, if_neg h]
  rfl

theorem crlf_eq_self {text : List Char} (h : '\n' ∉ text) : crlf text = text := by
  induction text with
  | nil => rfl
  | cons c rest ih =>
    simp only [List.mem_cons, not_or] at h
    rw [crlf_cons_of_ne (Ne.symm h.1), ih h.2]

/-- Each line feed makes the text longer by one byte. -/
theorem byteLength_crlf (text : List Char) :
    byteLength (crlf text) = byteLength text + text.count '\n' := by
  induction text with
  | nil => rfl
  | cons c rest ih =>
    by_cases hc : c = '\n'
    · subst hc
      have hreturn : '\r'.utf8Size = 1 := rfl
      rw [crlf_cons_lineFeed, byteLength_cons, byteLength_cons, byteLength_cons, ih, hreturn,
        List.count_cons_self]
      omega
    · rw [crlf_cons_of_ne hc, byteLength_cons, byteLength_cons, ih, List.count_cons_of_ne hc,
        Nat.add_assoc]

theorem byteLength_crlf_concat_lineFeed (before : List Char) :
    byteLength (crlf (before ++ ['\n'])) =
      byteLength (crlf before) + '\r'.utf8Size + '\n'.utf8Size := by
  rw [crlf_append, crlf_cons_lineFeed, byteLength_append, byteLength_cons, byteLength_cons]
  rfl

theorem byteLength_crlf_concat_of_ne {c : Char} (h : c ≠ '\n') (before : List Char) :
    byteLength (crlf (before ++ [c])) = byteLength (crlf before) + c.utf8Size := by
  rw [crlf_append, crlf_cons_of_ne h, byteLength_append]
  rfl

end Text

namespace SourceFile

/-- The file with a carriage return before each line feed. -/
def crlf (file : SourceFile) : SourceFile :=
  ⟨file.name, String.ofList (Text.crlf file.content.toList)⟩

theorem toList_content_crlf (file : SourceFile) :
    file.crlf.content.toList = Text.crlf file.content.toList :=
  String.toList_ofList

/-- Where a place of the file is once carriage returns stand before the line feeds. -/
def crlfPlace (file : SourceFile) (place : Nat) : Nat := place + file.lineIndex place

variable (file : SourceFile)

theorem lineIndex_mono : Monotone file.lineIndex := by
  intro place later hle
  have hcount : file.lineStarts.countP (· ≤ place) ≤ file.lineStarts.countP (· ≤ later) := by
    apply List.countP_mono_left
    intro start _ hstart
    rw [decide_eq_true_eq] at hstart ⊢
    exact Nat.le_trans hstart hle
  exact Nat.sub_le_sub_right hcount 1

/-- **Places keep their order.** -/
theorem crlfPlace_strictMono : StrictMono file.crlfPlace :=
  fun _ _ h => Nat.add_lt_add_of_lt_of_le h (file.lineIndex_mono h.le)

variable {file} {before after : List Char}

/-- **A border moves along** with the text before it. -/
theorem crlfPlace_of_border (h : file.content.toList = before ++ after) :
    file.crlfPlace (byteLength before) = byteLength (Text.crlf before) := by
  rw [crlfPlace, lineIndex_of_border h, byteLength_crlf]

/-- What has no line feed moves as a whole. -/
theorem crlfPlace_add {inside : List Char}
    (h : file.content.toList = before ++ inside ++ after) (hline : '\n' ∉ inside) :
    file.crlfPlace (byteLength before + byteLength inside) =
      file.crlfPlace (byteLength before) + byteLength inside := by
  have hbefore : file.content.toList = before ++ (inside ++ after) := by
    rw [h, List.append_assoc]
  rw [← byteLength_append, crlfPlace_of_border h, crlfPlace_of_border hbefore, crlf_append,
    byteLength_append, crlf_eq_self hline]

theorem crlfPlace_zero : file.crlfPlace 0 = 0 :=
  crlfPlace_of_border (List.nil_append file.content.toList).symm

variable (file) in
theorem endSpan_crlf : file.crlf.endSpan = file.endSpan.move file.crlfPlace := by
  have hlength := crlfPlace_of_border (List.append_nil file.content.toList).symm
  simp only [endSpan, length, toList_content_crlf, Span.point, Span.move, hlength]

/-! ### Lines -/

theorem startsAfter_crlf (rest : List Char) :
    ∀ before, file.content.toList = before ++ rest →
      startsAfter (byteLength (Text.crlf before)) (Text.crlf rest) =
        (startsAfter (byteLength before) rest).map file.crlfPlace := by
  induction rest with
  | nil => exact fun _ _ => rfl
  | cons c rest ih =>
    intro before h
    have hnext : file.content.toList = before ++ [c] ++ rest := by rw [h]; simp
    have hstop : byteLength before + c.utf8Size = byteLength (before ++ [c]) := by simp
    have hrest := ih (before ++ [c]) hnext
    by_cases hc : c = '\n'
    · subst hc
      rw [crlf_cons_lineFeed, startsAfter, if_neg (by decide), startsAfter, if_pos rfl, startsAfter,
        if_pos rfl, ← byteLength_crlf_concat_lineFeed, hstop, hrest, List.map_cons,
        crlfPlace_of_border hnext]
    · rw [crlf_cons_of_ne hc, startsAfter, if_neg hc, startsAfter, if_neg hc,
        ← byteLength_crlf_concat_of_ne hc, hstop, hrest]

/-- **Places keep their lines.** -/
theorem lineIndex_crlf (file : SourceFile) (place : Nat) :
    file.crlf.lineIndex (file.crlfPlace place) = file.lineIndex place := by
  have hstarts : file.crlf.lineStarts = file.lineStarts.map file.crlfPlace := by
    rw [lineStarts, toList_content_crlf, lineStarts, List.map_cons, crlfPlace_zero]
    exact congrArg (0 :: ·) (startsAfter_crlf file.content.toList [] rfl)
  rw [lineIndex, hstarts, List.countP_map, lineIndex]
  congr 2
  funext start
  exact decide_eq_decide.mpr file.crlfPlace_strictMono.le_iff_le

/-- Errors of reading the file with carriage returns are those of the file, moved. -/
theorem ofLocated_move {φ : Type} (embed : φ → Fault) (file : SourceFile) (e : Located φ) :
    ParseError.ofLocated embed file.crlf (e.move file.crlfPlace) =
      (ParseError.ofLocated embed file e).move file.crlfPlace := by
  have hline : file.crlf.lineNumber (e.move file.crlfPlace).span.start =
      file.lineNumber e.span.start :=
    congrArg (· + 1) (file.lineIndex_crlf e.span.start)
  simp only [ParseError.ofLocated, ParseError.move, hline]
  rfl

end SourceFile

/-! ### Lines -/

namespace Line

theorem split_crlf {file : SourceFile} (rest : List Char) :
    ∀ before start reversed, file.content.toList = before ++ rest →
      split (file.crlfPlace start) reversed (byteLength (crlf before)) (crlf rest) =
        (split start reversed (byteLength before) rest).map (Line.move file.crlfPlace) := by
  induction rest with
  | nil =>
    intro before start reversed _
    simp only [crlf, List.flatMap_nil, split]
    split
    · rfl
    · rfl
  | cons c rest ih =>
    intro before start reversed h
    have hnext : file.content.toList = before ++ [c] ++ rest := by rw [h]; simp
    have hstop : byteLength before + c.utf8Size = byteLength (before ++ [c]) := by simp
    by_cases hc : c = '\n'
    · subst hc
      have hrest := ih (before ++ ['\n']) (byteLength (before ++ ['\n'])) [] hnext
      rw [SourceFile.crlfPlace_of_border hnext] at hrest
      rw [crlf_cons_lineFeed, split, if_neg (by decide), split, if_pos rfl, split, if_pos rfl,
        ← byteLength_crlf_concat_lineFeed, hstop, List.map_cons, hrest]
      rfl
    · rw [crlf_cons_of_ne hc, split, if_neg hc, split, if_neg hc,
        ← byteLength_crlf_concat_of_ne hc, hstop, ih (before ++ [c]) start (c :: reversed) hnext]

/-- **The lines of the file** move, each as it is. -/
theorem ofText_crlf (file : SourceFile) :
    ofText (crlf file.content.toList) =
      (ofText file.content.toList).map (Line.move file.crlfPlace) := by
  have hsplit := split_crlf file.content.toList [] 0 [] (List.nil_append _).symm
  rw [SourceFile.crlfPlace_zero] at hsplit
  exact hsplit

end Line

end DecisionModel
