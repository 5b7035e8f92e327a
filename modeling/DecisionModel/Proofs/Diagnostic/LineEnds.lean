import DecisionModel.Proofs.Names.LineEnds
import DecisionModel.Proofs.TreeFile.Moved

/-!
# Line ends make no difference

Schema and tree text with carriage returns before the line feeds is read as without them.  What
is accepted is the same, and what is refused is refused for the same reason on the same line.
-/

namespace DecisionModel

open Text

namespace TreeFile

/-- The lines of a file move as a whole, as they have no line feeds. -/
theorem movesBy_crlfPlace {file : SourceFile} {l : Line} (hl : l.StandsIn file.content.toList) :
    ∃ k, MovesBy file.crlfPlace l k := by
  obtain ⟨before, after, htext, hspan, -⟩ := hl.covers
  have hstart : l.offset = byteLength before := by
    rw [← Nat.zero_add (byteLength before)]
    exact hspan
  refine ⟨file.lineIndex l.offset, ?_⟩
  rintro place ⟨front, back, hline, rfl⟩
  have hsplit : file.content.toList = before ++ front ++ (back ++ after) := by
    rw [htext, hline]
    simp
  have hfront : '\n' ∉ front := by
    intro hmem
    exact hl.no_lineFeed (by simp [hline, hmem])
  have hplace := SourceFile.crlfPlace_add hsplit hfront
  rw [← hstart] at hplace
  rw [hplace, SourceFile.crlfPlace]
  omega

/-- **Tree text is read alike** with carriage returns before its line feeds: only places of
    errors move. -/
theorem parse_crlf (schema : Schema) (file : SourceFile) :
    parse schema file.crlf = (parse schema file).mapError (ParseError.move file.crlfPlace) := by
  have hread := read_move file.crlfPlace_strictMono.monotone schema
    (fun l hl => movesBy_crlfPlace (Line.standsIn_ofText _ l hl)) file.endSpan
  rw [parse_eq_run, parse_eq_run, SourceFile.toList_content_crlf, Line.ofText_crlf,
    SourceFile.endSpan_crlf, hread]
  rcases (Line.ofText file.content.toList).foldlM (State.step schema) .header >>=
      (·.finish file.endSpan) with e | top
  · exact congrArg Except.error (SourceFile.ofLocated_move .tree file e)
  · rfl

end TreeFile

/-- Both readings accept the same, or both refuse, for the same reason on the same line. -/
inductive SameReading {α : Type} : Except ParseError α → Except ParseError α → Prop
  | accepted (a : α) : SameReading (.ok a) (.ok a)
  | refused {e e' : ParseError} (kind : e.kind = e'.kind) (message : e.message = e'.message)
      (label : e.label = e'.label) (line : e.line = e'.line) : SameReading (.error e) (.error e')

theorem sameReading_move {α : Type} (x : Except ParseError α) (f : Nat → Nat) :
    SameReading (x.mapError (ParseError.move f)) x := by
  rcases x with e | a
  · exact .refused rfl rfl rfl rfl
  · exact .accepted a

/-- **Line ends make no difference.**  Whatever the text of a file, with a carriage return before
    each of its line feeds it is read as without them, as a schema and as a tree over any schema. -/
theorem line_ends_make_no_difference (file : SourceFile) :
    SameReading (Names.parse file.crlf) (Names.parse file) ∧
      ∀ schema : Schema,
        SameReading (TreeFile.parse schema file.crlf) (TreeFile.parse schema file) := by
  constructor
  · rw [Names.parse_crlf]
    exact sameReading_move _ _
  · intro schema
    rw [TreeFile.parse_crlf]
    exact sameReading_move _ _

end DecisionModel
