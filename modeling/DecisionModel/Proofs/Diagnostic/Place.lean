import DecisionModel.Diagnostic.Basic
import DecisionModel.Proofs.Names.Place
import DecisionModel.Proofs.TreeFile.Place
import DecisionModel.Proofs.TreeFile.WellFormed

/-!
# Places of parse errors

An error of reading schema or tree text says where in its file the fault is, and maybe where
else its name is defined.  Both are between characters of the file and on one of its lines, so
labels can be drawn for them.
-/

namespace DecisionModel

open Text

/-- The error is at a place of the file, on the line that it gives.  What else it points at is
    the same name. -/
structure ParseError.PlacedIn (e : ParseError) (file : SourceFile) : Prop where
  span : e.span.PlacedIn file
  line : e.line = 1 + (takeBytes e.span.start file.content.toList).count '\n'
  related : ∀ r, e.related = some r → r.PlacedIn file
  same_name : ∀ r, e.related = some r →
    file.slice r = file.slice e.span ∧ Names.IsName (String.ofList (file.slice r))
  labels : ∀ l ∈ e.diagnostic.labels, l.span.PlacedIn file

namespace ParseError

/-- The labels of an error are at its places. -/
theorem span_of_label {e : ParseError} {l : Label} (h : l ∈ e.diagnostic.labels) :
    l.span = e.span ∨ e.related = some l.span := by
  rcases List.mem_cons.mp h with rfl | hrelated
  · exact .inl rfl
  · rw [Option.mem_toList] at hrelated
    obtain ⟨r, hr, rfl⟩ := Option.map_eq_some_iff.mp hrelated
    exact .inr hr

theorem placedIn_ofLocated {φ : Type} (embed : φ → Fault) {file : SourceFile} {fault : Located φ}
    (hspan : fault.span.OnOneLine file.content.toList)
    (hrelated : ∀ r, fault.related = some r → ∃ name : String, Names.IsName name ∧
      fault.span.Covers 0 file.content.toList name.toList ∧
      r.Covers 0 file.content.toList name.toList) :
    (ofLocated embed file fault).PlacedIn file := by
  have hplaced : ∀ r, fault.related = some r → r.PlacedIn file := by
    intro r hr
    obtain ⟨name, hname, -, hcovers⟩ := hrelated r hr
    have hline : r.OnOneLine file.content.toList := ⟨_, hcovers, hname.no_lineFeed⟩
    exact hline.placedIn
  refine ⟨hspan.placedIn, hspan.placedIn.line, hplaced, ?_, ?_⟩
  · intro r hr
    obtain ⟨name, hname, hcovers, hcovers'⟩ := hrelated r hr
    have hslice : file.slice r = name.toList := SourceFile.slice_of_covers hcovers'
    constructor
    · rw [hslice]
      exact (SourceFile.slice_of_covers hcovers).symm
    · rw [hslice, String.ofList_toList]
      exact hname
  · intro l hl
    rcases span_of_label hl with hl | hl
    · rw [hl]
      exact hspan.placedIn
    · exact hplaced _ hl

theorem placedIn_of_names_error {file : SourceFile} {e : ParseError}
    (h : Names.parse file = .error e) : e.PlacedIn file := by
  obtain ⟨fault, rfl, hspan, hrelated⟩ := Names.standsIn_of_parse_error h
  exact placedIn_ofLocated .names hspan hrelated

theorem placedIn_of_tree_error {schema : Schema} {file : SourceFile} {e : ParseError}
    (h : TreeFile.parse schema file = .error e) : e.PlacedIn file := by
  obtain ⟨fault, rfl, hspan, hnone⟩ := TreeFile.onOneLine_of_parse_error h
  apply placedIn_ofLocated .tree hspan
  intro r hr
  rw [hnone] at hr
  cases hr

/-- **Every parse error points at a real place**, whatever the text and the schema. -/
theorem placedIn_of_parse (file : SourceFile) :
    (∀ e, Names.parse file = .error e → e.PlacedIn file) ∧
      ∀ schema e, TreeFile.parse schema file = .error e → e.PlacedIn file :=
  ⟨fun _ => placedIn_of_names_error, fun _ _ => placedIn_of_tree_error⟩

/-- A schema that declares a continuous attribute as its decision. -/
def sizeNames : SourceFile where
  name := "größe.names"
  content := "größe.\r\ngröße: continuous.\r\n"

/-- A tree that decides no value of `state`, without a line feed at its end. -/
def sizeTree : SourceFile where
  name := "größe.tree"
  content := "id=\"größe\"\r\ntype=\"0\" class=\"stöp\""

/-- Places count bytes, also where characters have several of them or carriage returns end the
    lines. -/
theorem placedIn_size :
    (∃ e, Names.parse sizeNames = .error e ∧ e.span = ⟨0, 7⟩ ∧ e.related = some ⟨10, 17⟩ ∧
      e.PlacedIn sizeNames) ∧
    ∃ e, TreeFile.parse TreeFile.policySchema sizeTree = .error e ∧ e.span = ⟨29, 36⟩ ∧ e.line = 2 ∧
      e.PlacedIn sizeTree := by
  have hnames : Names.parse sizeNames = .error
      ⟨.names (.unusableDecision (.decisionNotEnumerated "größe")), ⟨0, 7⟩, 1, some ⟨10, 17⟩⟩ := by
    cbv
  have htree : TreeFile.parse TreeFile.policySchema sizeTree = .error
      ⟨.tree (.unknownDecision "stöp" "state"), ⟨29, 36⟩, 2, none⟩ := by
    cbv
  refine ⟨⟨_, hnames, rfl, rfl, ?_⟩, _, htree, rfl, rfl, ?_⟩
  · exact (placedIn_of_parse sizeNames).1 _ hnames
  · exact (placedIn_of_parse sizeTree).2 TreeFile.policySchema _ htree

end ParseError

end DecisionModel
