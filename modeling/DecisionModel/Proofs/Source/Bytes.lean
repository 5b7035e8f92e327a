import Mathlib.Data.List.Basic
import DecisionModel.Source.File

/-!
# Lines in bytes

Places count the bytes of the UTF-8 form of a text.  No character but the line feed has a byte
that looks like one, so where lines start can be read off the bytes: at 0, and behind each line
feed.  The line of a place is told by the line feeds before it, whether or not the place is on
the border of a character.
-/

namespace DecisionModel

open Text

namespace Text

def lineFeed : UInt8 := 10

/-- The UTF-8 form of text. -/
def bytes (cs : List Char) : List UInt8 := cs.flatMap String.utf8EncodeChar

theorem bytes_cons (c : Char) (rest : List Char) :
    bytes (c :: rest) = String.utf8EncodeChar c ++ bytes rest :=
  List.flatMap_cons

theorem bytes_append (cs rest : List Char) : bytes (cs ++ rest) = bytes cs ++ bytes rest :=
  List.flatMap_append

theorem length_bytes (cs : List Char) : (bytes cs).length = byteLength cs := by
  induction cs with
  | nil => rfl
  | cons c rest ih =>
    rw [bytes_cons, List.length_append, String.length_utf8EncodeChar, ih, byteLength_cons]

/-- Only the line feed itself has its byte. -/
theorem lineFeed_notMem_utf8EncodeChar {c : Char} (h : c ≠ '\n') :
    lineFeed ∉ String.utf8EncodeChar c := by
  have hval : c.val.toNat ≠ 10 := by
    intro hten
    exact h (Char.ext (UInt32.toNat_inj.mp hten))
  intro hmem
  rw [String.utf8EncodeChar] at hmem
  -- one case for each number of bytes; from two on, all of them have the highest bit
  split_ifs at hmem
  all_goals
    simp only [lineFeed, List.mem_cons, List.not_mem_nil, or_false, ← UInt8.toNat_inj,
      UInt8.toNat_ofNat', UInt8.toNat_ofNat] at hmem
    omega

theorem count_lineFeed_bytes (cs : List Char) : (bytes cs).count lineFeed = cs.count '\n' := by
  induction cs with
  | nil => rfl
  | cons c rest ih =>
    rw [bytes_cons, List.count_append, ih]
    by_cases hc : c = '\n'
    · subst hc
      rw [List.count_cons_self, Nat.add_comm]
      rfl
    · rw [List.count_cons_of_ne hc, List.count_eq_zero.mpr (lineFeed_notMem_utf8EncodeChar hc),
        Nat.zero_add]

end Text

namespace SourceFile

def bytes (file : SourceFile) : List UInt8 := file.content.toUTF8.data.toList

theorem bytes_eq (file : SourceFile) : file.bytes = Text.bytes file.content.toList := by
  rw [bytes, String.toUTF8, ← String.utf8Encode_toList, List.utf8Encode, Text.bytes]
  simp

theorem length_bytes (file : SourceFile) : file.bytes.length = file.length := by
  rw [bytes_eq, Text.length_bytes, length]

/-! ### Where lines start -/

theorem startsAfter_eq_findIdxs (offset : Nat) (cs : List Char) :
    startsAfter offset cs = (Text.bytes cs).findIdxs (· == lineFeed) (offset + 1) := by
  induction cs generalizing offset with
  | nil => rfl
  | cons c rest ih =>
    rw [bytes_cons, List.findIdxs_append, String.length_utf8EncodeChar, startsAfter, ih,
      Nat.add_right_comm offset 1]
    split
    · rename_i hc
      subst hc
      rfl
    · rename_i hc
      have hnone : (String.utf8EncodeChar c).findIdxs (· == lineFeed) (offset + 1) = [] := by
        rw [List.findIdxs_eq_nil_iff]
        intro x hx
        rw [beq_eq_false_iff_ne]
        rintro rfl
        exact lineFeed_notMem_utf8EncodeChar hc hx
      rw [hnone, List.nil_append]

theorem lineStarts_eq (file : SourceFile) :
    file.lineStarts = 0 :: file.bytes.findIdxs (· == lineFeed) 1 := by
  rw [lineStarts, startsAfter_eq_findIdxs, bytes_eq]

/-- Up to a place, as many lines start as line feeds stand before it, besides the first. -/
theorem countP_lineStarts (file : SourceFile) (place : Nat) :
    file.lineStarts.countP (· ≤ place) = (file.bytes.take place).count lineFeed + 1 := by
  rw [lineStarts_eq, List.countP_cons_of_pos (by simp), Nat.add_right_cancel_iff]
  have hparts : file.bytes.findIdxs (· == lineFeed) 1 =
      (file.bytes.take place).findIdxs (· == lineFeed) 1 ++
        (file.bytes.drop place).findIdxs (· == lineFeed) (1 + (file.bytes.take place).length) := by
    rw [← List.findIdxs_append, List.take_append_drop]
  have hbefore : ((file.bytes.take place).findIdxs (· == lineFeed) 1).countP (· ≤ place) =
      (file.bytes.take place).count lineFeed := by
    rw [List.countP_eq_length.mpr, List.length_findIdxs, List.count]
    intro start hstart
    have hlt := List.lt_add_of_mem_findIdxs start hstart
    rw [List.length_take] at hlt
    rw [decide_eq_true_eq]
    omega
  have hbehind : ((file.bytes.drop place).findIdxs (· == lineFeed)
      (1 + (file.bytes.take place).length)).countP (· ≤ place) = 0 := by
    rw [List.countP_eq_zero]
    intro start hstart
    have hge := List.ge_of_mem_findIdxs start hstart
    have hlt := List.lt_add_of_mem_findIdxs start hstart
    rw [List.length_take] at hge hlt
    rw [List.length_drop] at hlt
    rw [decide_eq_true_eq]
    omega
  rw [hparts, List.countP_append, hbefore, hbehind, Nat.add_zero]

/-- **The line of a place** is told by the line feeds before it. -/
theorem lineIndex_eq (file : SourceFile) (place : Nat) :
    file.lineIndex place = (file.bytes.take place).count lineFeed := by
  rw [lineIndex, countP_lineStarts, Nat.add_sub_cancel]

/-- The line of a border of characters. -/
theorem lineIndex_of_border {file : SourceFile} {before after : List Char}
    (h : file.content.toList = before ++ after) :
    file.lineIndex (byteLength before) = before.count '\n' := by
  rw [lineIndex_eq, bytes_eq, h, bytes_append, ← Text.length_bytes, List.take_left,
    count_lineFeed_bytes]

end SourceFile

end DecisionModel
