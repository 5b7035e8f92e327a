import Mathlib
import DecisionModel.Tree.Display
import DecisionModel.Proofs.Names.Schema
import DecisionModel.Proofs.Tree.Paths
import DecisionModel.Proofs.TreeFile.WellFormed
import DecisionModel.Proofs.Value.Line

/-!
# What a drawing tells

Below its first line the drawing of a tree has a line for each branch, in preorder.  A line
starts with a column for each branch above and a connector, all of four characters, which tell
how deep the branch is and whether it is the last of its test.  The text behind them cannot be
mistaken for more of them, nor for more lines, so the shape of the tree can be read from its
drawing.
-/

namespace DecisionModel

open Text TreeFile

/-! ### Labels stay on their line -/

namespace Attribute

variable {a : Attribute}

theorem onOneLine_codeLabel (h : a.AllNames OnOneLine) (code : Int) :
    OnOneLine (a.codeLabel code) := by
  unfold codeLabel
  rcases hname : a.nameOf? code with _ | name
  · exact onOneLine_toString code
  · obtain ⟨entry, hentry, rfl⟩ := Option.map_eq_some_iff.mp hname
    exact h.2 entry (List.mem_of_find?_eq_some hentry)

theorem onOneLine_scalarLabel (h : a.AllNames OnOneLine) (item : Scalar) :
    OnOneLine (a.scalarLabel item) := by
  cases item with
  | integer code => exact onOneLine_codeLabel h code
  | unsigned n => exact Scalar.onOneLine_display (.unsigned n)
  | floating x => exact Scalar.onOneLine_display (.floating x)
  | text text => exact Scalar.onOneLine_display (.text text)

theorem onOneLine_braced {labels : List String} (h : ∀ label ∈ labels, OnOneLine label) :
    OnOneLine (braced labels) :=
  .append (.append (by decide) (.intercalate (by decide) h)) (by decide)

theorem onOneLine_testLabel (h : a.AllNames OnOneLine) (test : Test) :
    OnOneLine (a.testLabel test) := by
  unfold testLabel
  split
  · rename_i m _ _
    refine onOneLine_braced fun label hlabel => ?_
    obtain ⟨code, -, rfl⟩ := List.mem_map.mp hlabel
    exact onOneLine_codeLabel h code
  · rename_i items _ _
    split
    · dsimp only
      split
      · refine onOneLine_braced fun label hlabel => ?_
        obtain ⟨item, -, rfl⟩ := List.mem_map.mp hlabel
        exact onOneLine_scalarLabel h item
      · exact Value.onOneLine_displayWithin _ _
    · exact Value.onOneLine_displayWithin _ _
  · split
    · exact onOneLine_codeLabel h _
    · exact Value.onOneLine_displayWithin _ _
  · exact Value.onOneLine_displayWithin _ _

end Attribute

theorem Condition.onOneLine_symbol (c : Condition) : OnOneLine c.symbol := by
  cases c <;> decide

namespace Schema

variable {s : Schema}

theorem onOneLine_branchLabel (h : s.AllNames OnOneLine) {α : Type} (b : Branch α) :
    OnOneLine (s.branchLabel b) := by
  have hname : ∀ a, s.attributeById? b.attr = some a → a.AllNames OnOneLine :=
    fun a ha => h a (List.mem_of_getElem? ha)
  unfold branchLabel
  split
  · decide
  · rename_i a ha _
    exact .append (hname a ha).1 (by decide)
  · rename_i t _ _
    refine .append (.append (.append (by decide) t.condition.onOneLine_symbol) (by decide)) ?_
    exact t.value.onOneLine_displayWithin _
  · rename_i a t ha _
    refine .append (.append (.append (.append (hname a ha).1 (by decide))
      t.condition.onOneLine_symbol) (by decide)) ?_
    exact Attribute.onOneLine_testLabel (hname a ha) t

theorem WellFormed.onOneLine_decisionLabel (hs : s.WellFormed) (h : s.AllNames OnOneLine)
    (v : Value) : OnOneLine (s.decisionLabel v) := by
  unfold decisionLabel
  split
  · rename_i code
    rcases hname : s.decisionName? code with _ | name
    · exact onOneLine_toString code
    · have hvalues := (h _ s.decisionAttribute_mem).2
      exact hvalues (name, code) ((hs.decision_table name code).mpr hname)
  · exact v.onOneLine_display

theorem WellFormed.onOneLine_outcome (hs : s.WellFormed) (h : s.AllNames OnOneLine) (n : Node) :
    OnOneLine (s.outcome n) := by
  cases n with
  | terminal v => exact .append (by decide) (hs.onOneLine_decisionLabel h v)
  | test branches => exact List.not_mem_nil

end Schema

/-! ### Lines -/

namespace Node

variable {s : Schema}

/-- The columns in front of the line of a branch, one for each branch above it from the top. -/
def guides (top : Node) (path : List Nat) : String :=
  String.join (path.inits.tail.dropLast.map fun above => column (top.isLast above))

/-- The line of the branch at the path. -/
def row (s : Schema) (top : Node) (path : List Nat) : Option String :=
  (top.branchAt? path).map fun b =>
    let front := top.guides path ++ connector (top.isLast path) ++ s.branchLabel b
    match b.child with
    | .terminal v => front ++ " => " ++ s.decisionLabel v
    | .test _ => front

theorem row_eq (top : Node) (path : List Nat) :
    top.row s path = (top.branchAt? path).map fun b =>
      top.guides path ++ connector (top.isLast path) ++ s.branchLabel b ++ s.outcome b.child := by
  unfold row
  congr 1
  funext b
  cases b.child with
  | terminal v => exact String.append_assoc
  | test branches => exact String.append_empty.symm

theorem guides_singleton (top : Node) (i : Nat) : top.guides [i] = "" := rfl

theorem guides_cons {top : Node} {i : Nat} {b : Branch Node} (hb : top.branches[i]? = some b)
    {path : List Nat} (h : path ≠ []) :
    top.guides (i :: path) = column (top.isLast [i]) ++ b.child.guides path := by
  obtain ⟨j, path, rfl⟩ := List.exists_cons_of_ne_nil h
  have habove : (i :: j :: path).inits.tail.dropLast =
      [i] :: (j :: path).inits.tail.dropLast.map (i :: ·) := by
    rw [List.inits_cons, List.tail_cons, List.inits_cons, List.map_cons, List.tail_cons,
      List.dropLast_cons_of_ne_nil (by cases path <;> simp), List.map_dropLast]
  rw [guides, habove, List.map_cons, String.join_cons, List.map_map, guides]
  congr 2
  refine List.map_congr_left fun above habove => ?_
  have hne : above ≠ [] := by
    rintro rfl
    have hmem := List.mem_of_mem_dropLast habove
    simp at hmem
  rw [Function.comp_apply, isLast_cons hb hne]

theorem row_singleton (top : Node) (i : Nat) :
    top.row s [i] = top.branches[i]?.map fun b =>
      connector (top.isLast [i]) ++ s.branchLabel b ++ s.outcome b.child := by
  rw [row_eq, branchAt?_singleton, guides_singleton, String.empty_append]

theorem row_cons {top : Node} {i : Nat} {b : Branch Node} (hb : top.branches[i]? = some b)
    {path : List Nat} (h : path ≠ []) :
    top.row s (i :: path) = (b.child.row s path).map (column (top.isLast [i]) ++ ·) := by
  rw [row_eq, row_eq, branchAt?_cons top i h, hb, Option.bind_some, guides_cons hb h,
    isLast_cons hb h, Option.map_map]
  simp only [Function.comp_def, String.append_assoc]

theorem branchLines_eq (columns : String) (branches : List (Branch Node)) :
    ∀ (i : Nat) (rest : List (Branch Node)), branches.drop i = rest →
      branchLines s columns rest = (rest.zipIdx i).flatMap fun x =>
        (columns ++ connector ((test branches).isLast [x.2]) ++ s.branchLabel x.1 ++
            s.outcome x.1.child) ::
          x.1.child.lines s (columns ++ column ((test branches).isLast [x.2])) := by
  intro i rest hrest
  induction rest generalizing i with
  | nil => rfl
  | cons b rest ih =>
    obtain ⟨attr, slot, test, child⟩ := b
    have hlater : branches.drop (i + 1) = rest := by
      rw [← List.drop_drop, hrest, List.drop_one, List.tail_cons]
    have hlast : (Node.test branches).isLast [i] = rest.isEmpty := by
      rw [Bool.eq_iff_iff, isLast_singleton_iff, List.isEmpty_iff, ← hlater, List.drop_eq_nil_iff]
      rfl
    rw [List.zipIdx_cons, List.flatMap_cons, ← ih (i + 1) hlater, hlast]
    rfl

theorem lines_test (columns : String) (branches : List (Branch Node)) :
    (test branches).lines s columns = branches.zipIdx.flatMap fun x =>
      (columns ++ connector ((test branches).isLast [x.2]) ++ s.branchLabel x.1 ++
          s.outcome x.1.child) ::
        x.1.child.lines s (columns ++ column ((test branches).isLast [x.2])) :=
  branchLines_eq columns branches 0 branches rfl

/-- **The lines of a node are those of the branches behind it.** -/
theorem map_some_lines (n : Node) (columns : String) :
    (n.lines s columns).map some = n.paths.map fun path => (n.row s path).map (columns ++ ·) := by
  -- behind a branch there is a column more in front of the lines, and a position in the paths
  induction n using Node.induct generalizing columns with
  | terminal v => rfl
  | test bs ih =>
    rw [lines_test, paths_test, List.map_flatMap, List.map_flatMap]
    refine List.flatMap_congr fun x hx => ?_
    have hat : (test bs).branches[x.2]? = some x.1 := List.mem_zipIdx_iff_getElem?.mp hx
    rw [List.map_cons, List.map_cons, ih x.1 (List.mem_of_getElem? hat), row_singleton, hat,
      List.map_map]
    congr 1
    · simp only [Option.map_some, String.append_assoc]
    · refine List.map_congr_left fun path hpath => ?_
      rw [Function.comp_apply, row_cons hat (ne_nil_of_mem_paths hpath), Option.map_map]
      simp only [Function.comp_def, String.append_assoc]

theorem map_some_lines_root (n : Node) : (n.lines s "").map some = n.paths.map (n.row s) := by
  rw [map_some_lines]
  simp

theorem mem_lines_iff {n : Node} {line : String} :
    line ∈ n.lines s "" ↔ ∃ path, n.row s path = some line := by
  have hmem : line ∈ n.lines s "" ↔ some line ∈ n.paths.map (n.row s) := by
    rw [← map_some_lines_root]
    simp
  rw [hmem, List.mem_map]
  constructor
  · rintro ⟨path, -, hpath⟩
    exact ⟨path, hpath⟩
  · rintro ⟨path, hpath⟩
    have hat : (n.branchAt? path).isSome := by
      rw [row] at hpath
      exact Option.isSome_iff_exists.mpr
        ((Option.map_eq_some_iff.mp hpath).imp fun _ hb => hb.1)
    exact ⟨path, mem_paths.mpr hat, hpath⟩

end Node

/-! ### Reading a drawing -/

/-- How many columns a line has, and whether its connector is that of a last branch. -/
def readLine : List Char → Nat × Bool
  | '│' :: _ :: _ :: _ :: rest => (readLine rest).map (· + 1) id
  | ' ' :: _ :: _ :: _ :: rest => (readLine rest).map (· + 1) id
  | '└' :: _ => (0, true)
  | _ => (0, false)

/-- What the lines below the first tell. -/
def readDrawing (text : String) : List (Nat × Bool) :=
  (text.toList.splitOn '\n').tail.dropLast.map readLine

theorem readLine_columns (flags : List Bool) (isLast : Bool) (label : List Char) :
    readLine ((String.join (flags.map column)).toList ++ ((connector isLast).toList ++ label)) =
      (flags.length, isLast) := by
  induction flags with
  | nil =>
    cases isLast <;> simp [connector, readLine]
  | cons flag flags ih =>
    rw [List.map_cons, String.join_cons, String.toList_append, List.append_assoc]
    cases flag <;> simp [column, readLine, ih, -String.toList_join]

theorem readLine_of_row {s : Schema} {top : Node} {path : List Nat} {line : String}
    (h : top.row s path = some line) :
    readLine line.toList = (path.length - 1, top.isLast path) := by
  rw [Node.row_eq, Option.map_eq_some_iff] at h
  obtain ⟨b, -, rfl⟩ := h
  have hguides : top.guides path =
      String.join ((path.inits.tail.dropLast.map top.isLast).map column) := by
    rw [List.map_map]
    rfl
  rw [hguides, String.append_assoc, String.append_assoc, String.toList_append,
    String.toList_append, readLine_columns]
  simp

/-- The lines of all branches tell of each how deep it is, and whether it is the last. -/
theorem map_readLine {s : Schema} {top : Node} {lines : List String}
    (h : lines.map some = top.paths.map (top.row s)) :
    (lines.map fun line => readLine line.toList) =
      top.paths.map fun path => (path.length - 1, top.isLast path) := by
  refine List.map_injective_iff.mpr (Option.some_injective _) ?_
  calc (lines.map fun line => readLine line.toList).map some
      = (lines.map some).map (Option.map fun line => readLine line.toList) := by simp
    _ = top.paths.map fun path => (top.row s path).map fun line => readLine line.toList := by
      rw [h, List.map_map]
      rfl
    _ = (top.paths.map fun path => (path.length - 1, top.isLast path)).map some := by
      rw [List.map_map]
      refine List.map_congr_left fun path hpath => ?_
      obtain ⟨b, hb⟩ := Option.isSome_iff_exists.mp (Node.mem_paths.mp hpath)
      obtain ⟨line, hline⟩ : ∃ line, top.row s path = some line := by
        rw [Node.row, hb]
        exact ⟨_, rfl⟩
      rw [hline, Option.map_some, readLine_of_row hline, Function.comp_apply]

/-! ### Trees -/

namespace DecisionTree

/-- The first line. -/
def heading (t : DecisionTree) (s : Schema) : String :=
  t.name ++ match t.top with
    | none => " (empty)"
    | some top => s.outcome top

theorem lines_eq (t : DecisionTree) (s : Schema) :
    t.lines s = t.heading s :: t.root.lines s "" := by
  rw [lines, heading, root]
  cases t.top with
  | none => rfl
  | some top => rfl

theorem onOneLine_heading {s : Schema} (hs : s.WellFormed) (names : s.AllNames OnOneLine)
    {t : DecisionTree} (named : OnOneLine t.name) : OnOneLine (t.heading s) := by
  have hempty : OnOneLine " (empty)" := by decide
  rw [heading]
  cases t.top with
  | none => exact named.append hempty
  | some top => exact named.append (hs.onOneLine_outcome names top)

end DecisionTree

theorem onOneLine_guides (top : Node) (path : List Nat) : OnOneLine (top.guides path) := by
  refine .join fun text htext => ?_
  obtain ⟨above, -, rfl⟩ := List.mem_map.mp htext
  cases top.isLast above <;> decide

theorem onOneLine_of_row {s : Schema} (hs : s.WellFormed) (names : s.AllNames OnOneLine)
    {top : Node} {path : List Nat} {line : String} (h : top.row s path = some line) :
    OnOneLine line := by
  rw [Node.row_eq, Option.map_eq_some_iff] at h
  obtain ⟨b, -, rfl⟩ := h
  have hconnector : OnOneLine (connector (top.isLast path)) := by
    cases top.isLast path <;> decide
  exact (((onOneLine_guides top path).append hconnector).append
    (Schema.onOneLine_branchLabel names b)).append (hs.onOneLine_outcome names b.child)

/-- **A drawing shows the shape of its tree.**  If the names stay on a line, then the drawing has
    a line for the tree and one for each branch, in preorder.  How deep the branches are, which
    of them are the last of their tests, and even their paths can be read from it. -/
theorem drawing_shows_shape {origin s : Schema}
    (source : origin.Built ∨ ∃ names, Names.parse names = .ok origin) (bound : origin.Rebound s)
    (names : s.AllNames OnOneLine) {t : DecisionTree} (named : OnOneLine t.name) :
    (t.root.paths.Pairwise (· < ·) ∧
      ∀ path, path ∈ t.root.paths ↔ (t.root.branchAt? path).isSome) ∧
    ∃ rows, HasLines (t.display s) (t.heading s :: rows) ∧
      (t.heading s :: rows).length = 1 + t.stats.branches ∧
      rows.map some = t.root.paths.map (t.root.row s) ∧
      readDrawing (t.display s) =
        t.root.paths.map (fun path => (path.length - 1, t.root.isLast path)) ∧
      pathsOfDepths [] ((readDrawing (t.display s)).map Prod.fst) = t.root.paths := by
  have hs : s.WellFormed := bound.wellFormed (Names.wellFormed_of_source source)
  have hrows := t.root.map_some_lines_root (s := s)
  have hdrawn : HasLines (t.display s) (t.heading s :: t.root.lines s "") := by
    rw [DecisionTree.display, t.lines_eq]
    refine hasLines_join fun line hline => ?_
    rcases List.mem_cons.mp hline with rfl | hline
    · exact DecisionTree.onOneLine_heading hs names named
    · obtain ⟨path, hpath⟩ := Node.mem_lines_iff.mp hline
      exact onOneLine_of_row hs names hpath
  have hread : readDrawing (t.display s) =
      t.root.paths.map fun path => (path.length - 1, t.root.isLast path) := by
    have hbelow : readDrawing (t.display s) =
        (t.root.lines s "").map fun line => readLine line.toList := by
      rw [readDrawing, hdrawn]
      simp
    rw [hbelow, map_readLine hrows]
  have hcount : (t.root.lines s "").length = t.stats.branches := by
    rw [← t.length_paths_root, ← List.length_map (f := some), hrows, List.length_map]
  refine ⟨⟨t.root.pairwise_paths, fun _ => Node.mem_paths⟩, t.root.lines s "", hdrawn, ?_, hrows,
    hread, ?_⟩
  · rw [List.length_cons, hcount, Nat.add_comm]
  · rw [hread, List.map_map]
    exact t.root.pathsOfDepths_paths

/-- A tree with texts that do not stay on a line, and a branch on an unknown attribute. -/
def textTree : DecisionTree where
  name := "state"
  decisionType := .text
  top := some <| .test
    [⟨⟨2⟩, .unbound, some ⟨.eq, .integer 0⟩, .test
        [⟨⟨1⟩, .unbound, some ⟨.gt, .text "a\nb"⟩, .terminal (.integer 0)⟩]⟩,
      ⟨⟨2⟩, .unbound, none, .test
        [⟨⟨2⟩, .unbound, some ⟨.within, .mask ⟨6⟩⟩, .test []⟩,
          ⟨⟨9⟩, .unbound, none, .terminal (.text "c\nd")⟩]⟩]

theorem allNames_policySchema : policySchema.AllNames OnOneLine := by
  intro a ha
  obtain ⟨hname, hvalues⟩ := Names.allNames_of_parse parse_policyNames a ha
  exact ⟨hname.no_lineFeed, fun entry hentry => (hvalues entry hentry).no_lineFeed⟩

theorem drawing_of_textTree :
    Names.parse policyNames = .ok policySchema ∧ policySchema.Rebound policySchema ∧
      policySchema.AllNames OnOneLine ∧ OnOneLine textTree.name ∧
      readDrawing (textTree.display policySchema) =
        [(0, false), (1, true), (0, true), (1, false), (1, true)] ∧
      pathsOfDepths [] ((readDrawing (textTree.display policySchema)).map Prod.fst) =
        [[0], [0, 0], [1], [1, 0], [1, 1]] ∧
      ∃ rows, HasLines (textTree.display policySchema) ("state" :: rows) ∧ rows.length = 5 := by
  have hname : OnOneLine textTree.name := by decide
  obtain ⟨-, rows, hlines, hlength, -, hread, hpaths⟩ :=
    drawing_shows_shape (.inr ⟨policyNames, parse_policyNames⟩) .refl allNames_policySchema hname
  have hcount : textTree.stats.branches = 5 := by decide
  refine ⟨parse_policyNames, .refl, allNames_policySchema, hname, ?_, ?_, rows, hlines, ?_⟩
  · rw [hread]
    decide
  · rw [hpaths]
    decide
  · rw [List.length_cons, hcount] at hlength
    omega

example : (policy .unbound .unbound).lines policySchema =
    ["state",
      "├── count = low",
      "│   └── level ? => stop",
      "└── count in \x7bmid, high\x7d",
      "    ├── count = low => pause",
      "    └── count = mid => play"] := by
  cbv

/-- The name of a tree is any text, and a name on two lines takes two lines of the drawing. -/
theorem drawing_of_two_line_name :
    Names.parse policyNames = .ok policySchema ∧ policySchema.AllNames OnOneLine ∧
      ¬ ∃ lines, HasLines ((DecisionTree.empty "a\nb" .integer).display policySchema) lines ∧
        lines.length = 1 + (DecisionTree.empty "a\nb" .integer).stats.branches := by
  refine ⟨parse_policyNames, allNames_policySchema, ?_⟩
  rintro ⟨lines, hlines, hlength⟩
  have htwo : HasLines ((DecisionTree.empty "a\nb" .integer).display policySchema)
      ["a", "b (empty)"] := by cbv
  rw [hlines.unique htwo] at hlength
  cases hlength

end DecisionModel
