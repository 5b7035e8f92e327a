import DecisionModel.Proofs.TreeFile.NodeLines
import DecisionModel.Proofs.TreeFile.WellFormed

/-!
# Reading undoes writing

An outline that fits a schema is read back as the node it stands for, in whatever layout it
was written.  The lines of a node take a state that expects one to the state with the node
plugged in, and the lines of children fill an open test branch by branch.
-/

namespace DecisionModel.TreeFile

open State

variable {schema : Schema} {start : State} {stack : List Frame}

/-! ### Children -/

/-- The outline stands for the node, and is read as the node however it is written. -/
structure ReadsAs (schema : Schema) (o : Outline) (n : Node) : Prop where
  elaborates : o.elaborate? schema = some n
  reaches : ∀ style start stack, Expects start stack →
    Reaches schema (o.lines style) start (plug n stack)

theorem exists_nodes_of_forall {children : List Outline}
    (h : ∀ child ∈ children, ∃ n, ReadsAs schema child n) :
    ∃ nodes, Outline.elaborateAll? schema children = some nodes ∧
      List.Forall₂ (ReadsAs schema) children nodes := by
  induction children with
  | nil => exact ⟨[], rfl, .nil⟩
  | cons child rest ih =>
    obtain ⟨n, hn⟩ := h child (by simp)
    obtain ⟨nodes, hnodes, hall⟩ := ih fun c hc => h c (by simp [hc])
    refine ⟨n :: nodes, ?_, .cons hn hall⟩
    rw [Outline.elaborateAll?, hn.elaborates, hnodes]
    rfl

/-- The children of an open test fill its branches one after the other. -/
theorem reaches_frame {children : List Outline} {nodes : List Node}
    (h : List.Forall₂ (ReadsAs schema) children nodes) (style : List Nat → Style) (i : Nat)
    (done : List (Branch Node)) (current : Branch Unit) (pending : List (Branch Unit))
    (hlength : (current :: pending).length = children.length) :
    Reaches schema (Outline.childLines style i children) (.node (⟨done, current, pending⟩ :: stack))
      (plug (.test (done ++ List.zipWith withChild (current :: pending) nodes)) stack) := by
  induction h generalizing i done current pending with
  | nil => cases hlength
  | @cons child n rest nodes hn hrest ih =>
    have hfirst := hn.reaches (fun path => style (i :: path)) _ _
      (.node (⟨done, current, pending⟩ :: stack))
    cases pending with
    | nil =>
      have hnone : rest = [] := by
        simpa [eq_comm] using hlength
      subst hnone
      rw [Outline.childLines, Outline.childLines, List.append_nil]
      exact hfirst
    | cons next later =>
      have hlater := ih (i + 1) (done ++ [withChild current n]) next later (by simpa using hlength)
      rw [List.append_assoc, List.singleton_append] at hlater
      rw [Outline.childLines]
      exact hfirst.append hlater

/-- The children of a test fill it. -/
theorem reaches_childLines {children : List Outline} {nodes : List Node}
    (h : List.Forall₂ (ReadsAs schema) children nodes) {branches : List (Branch Unit)}
    (hlength : branches.length = children.length) (style : List Nat → Style) :
    Reaches schema (Outline.childLines style 0 children) (descend branches stack)
      (plug (.test (List.zipWith withChild branches nodes)) stack) := by
  cases branches with
  | nil =>
    have hnone : children = [] := by
      simpa [eq_comm] using hlength
    subst hnone
    rw [Outline.childLines]
    exact .nil
  | cons current pending => exact reaches_frame h style 0 [] current pending hlength

/-- Blank lines, the lines that open a test, and its children make a node. -/
theorem reaches_test (h : Expects start stack) {head : List (List Char)}
    {branches : List (Branch Unit)} (hhead : Reaches schema head start (descend branches stack))
    {children : List Outline} {nodes : List Node}
    (hall : List.Forall₂ (ReadsAs schema) children nodes)
    (hlength : branches.length = children.length) (style : List Nat → Style) :
    Reaches schema ((style []).before.map Subtype.val ++ head ++ Outline.childLines style 0 children)
      start (plug (.test (List.zipWith withChild branches nodes)) stack) :=
  ((reaches_blanks h.ne_placeholder _).append hhead).append (reaches_childLines hall hlength style)

theorem zipWith_take_left {α β γ : Type} (f : α → β → γ) (xs : List α) (ys : List β) :
    List.zipWith f (xs.take ys.length) ys = List.zipWith f xs ys := by
  induction xs generalizing ys with
  | nil => simp
  | cons x xs ih => cases ys <;> simp [ih]

theorem zipWith_valueBranches (a : Attribute) (nodes : List Node) :
    List.zipWith withChild (valueBranches a nodes.length) nodes =
      List.zipWith (fun value child => ⟨a.id, a.slot, some ⟨.eq, .integer value.2⟩, child⟩)
        a.sortedValues nodes := by
  rw [valueBranches, List.zipWith_map_left, zipWith_take_left]
  rfl

theorem zipWith_thresholdBranches (a : Attribute) (nodes : List Node) :
    List.zipWith withChild (thresholdBranches a nodes.length) nodes =
      nodes.map fun child => ⟨a.id, a.slot, none, child⟩ := by
  induction nodes with
  | nil => rfl
  | cons n rest ih =>
    rw [List.map_cons, ← ih]
    rfl

theorem zipWith_subsetBranches (a : Attribute) (codes : List (List Int)) (nodes : List Node) :
    List.zipWith withChild (subsetBranches a codes) nodes =
      List.zipWith (fun set child => ⟨a.id, a.slot, some (subsetTest set), child⟩) codes nodes := by
  rw [subsetBranches, List.zipWith_map_left]
  rfl

/-! ### Nodes -/

theorem onOneLine_of_attribute? (hlines : schema.AllNames OnOneLine) {attr : String} {a : Attribute}
    (ha : schema.attribute? attr = some a) :
    OnOneLine attr ∧ ∀ value code, a.codeOf? value = some code → OnOneLine value := by
  have hname : a.name = attr := by simpa using List.find?_some ha
  obtain ⟨hattr, hvalues⟩ := hlines a (List.mem_of_find?_eq_some ha)
  refine ⟨hname ▸ hattr, ?_⟩
  intro value code hcode
  exact hvalues (value, code) (mem_of_lookup_eq_some hcode)

/-- **An outline that fits is read as the node it stands for.** -/
theorem exists_readsAs (hlines : schema.AllNames OnOneLine) {o : Outline} (h : o.Fits schema) :
    ∃ n, ReadsAs schema o n := by
  induction h with
  | @leaf decision code hcode =>
    have hline : OnOneLine decision :=
      (hlines _ (Schema.decisionAttribute_mem schema)).2 (decision, code)
        (mem_of_lookup_eq_some hcode)
    refine ⟨.terminal (.integer code), ?_, ?_⟩
    · rw [Outline.elaborate?, hcode]
      rfl
    · intro style start stack hstart
      rw [Outline.lines]
      exact (reaches_blanks hstart.ne_placeholder _).append (reaches_leaf hstart hline hcode)
  | @values attr a children ha hhigh hcount _ ih =>
    obtain ⟨hattr, -⟩ := onOneLine_of_attribute? hlines ha
    obtain ⟨nodes, hnodes, hall⟩ := exists_nodes_of_forall ih
    refine ⟨_, by rw [Outline.elaborate?, ha, hnodes]; rfl, ?_⟩
    intro style start stack hstart
    have hhead := reaches_values hstart hattr ha hhigh hcount (style []).placeholder
    have hlength : (valueBranches a children.length).length = children.length := by
      have hsorted : a.sortedValues.length = a.valueCount := List.length_mergeSort a.values
      simp only [valueBranches, List.length_map, List.length_take, hsorted]
      omega
    have htest := reaches_test hstart hhead hall hlength style
    rw [hall.length_eq, zipWith_valueBranches, ← hall.length_eq] at htest
    rw [Outline.lines]
    exact htest
  | @threshold attr a children ha hlow hhigh _ ih =>
    obtain ⟨hattr, -⟩ := onOneLine_of_attribute? hlines ha
    obtain ⟨nodes, hnodes, hall⟩ := exists_nodes_of_forall ih
    refine ⟨_, by rw [Outline.elaborate?, ha, hnodes]; rfl, ?_⟩
    intro style start stack hstart
    have hhead := reaches_threshold hstart hattr ha hlow hhigh
    have hlength : (thresholdBranches a children.length).length = children.length := by
      simp [thresholdBranches]
    have htest := reaches_test hstart hhead hall hlength style
    rw [hall.length_eq, zipWith_thresholdBranches, ← hall.length_eq] at htest
    rw [Outline.lines]
    exact htest
  | @subsets attr a sets children ha hsets hlow hhigh hne hvalues _ ih =>
    obtain ⟨hattr, hnames⟩ := onOneLine_of_attribute? hlines ha
    obtain ⟨nodes, hnodes, hall⟩ := exists_nodes_of_forall ih
    obtain ⟨codes, hcodes, hcount⟩ : ∃ codes,
        sets.mapM (fun values => values.mapM a.codeOf?) = some codes ∧
          codes.length = sets.length := by
      refine exists_mapM_eq_some ?_
      intro values hmem
      obtain ⟨set, hset, -⟩ := exists_mapM_eq_some (hvalues values hmem)
      exact ⟨set, hset⟩
    have hvalueLines : ∀ values ∈ sets, ∀ v ∈ values, OnOneLine v := by
      intro values hmem v hv
      obtain ⟨code, hcode⟩ := hvalues values hmem v hv
      exact hnames v code hcode
    refine ⟨.test (List.zipWith (fun set child => ⟨a.id, a.slot, some (subsetTest set), child⟩)
      codes nodes), ?_, ?_⟩
    · simp only [Outline.elaborate?, ha, hcodes, hnodes, Option.bind_eq_bind, Option.bind_some]
    intro style start stack hstart
    have hhead := reaches_subsetLines hstart hattr ha (by omega) (by omega) hne hvalueLines hcodes
      (style [])
    have hlength : (subsetBranches a codes).length = children.length := by
      rw [subsetBranches, List.length_map, hcount, hsets]
    have htest := reaches_test hstart hhead hall hlength style
    rw [zipWith_subsetBranches] at htest
    rw [Outline.lines]
    exact htest

/-! ### Whole texts -/

theorem reaches_headerLine (line : HeaderLine) :
    Reaches schema [line.text] .header .header := by
  have hrecord : ∀ {fields : List Content}, (∀ f ∈ fields, Writable f) → fields ≠ [] →
      (∀ r : Record, r.fields.map Field.content = fields → isHeader r = .ok true) →
      Reaches schema [recordText fields] .header .header := by
    intro fields hfields hne h
    refine reaches_record (by simp) hfields hne ?_
    intro r hr
    simp only [State.record, h r hr, bind, Except.bind, if_true]
  cases line with
  | id value =>
    refine hrecord (by simpa using writable_single (by decide) value.property) (by simp) ?_
    intro r hr
    have htype : (r.field? "type").isSome = false := Record.isSome_field? hr "type"
    have hentries : r.field? "entries" = none := by
      rw [← Option.isNone_iff_eq_none, ← Option.isSome_eq_false_iff]
      exact Record.isSome_field? hr "entries"
    have hid : (r.field? "id").isSome = true := Record.isSome_field? hr "id"
    simp only [isHeader, htype, hentries, hid, Bool.false_eq_true, if_false]
  | entries =>
    refine hrecord (by simpa using writable_single (by decide) (by decide)) (by simp) ?_
    intro r hr
    have htype : (r.field? "type").isSome = false := Record.isSome_field? hr "type"
    obtain ⟨entries, hentries, hcontent⟩ := Record.exists_field hr "entries" rfl
    obtain ⟨span, hsingle⟩ := Field.single_eq_ok (by rw [hcontent])
    simp only [isHeader, htype, hentries, hsingle, bind, Except.bind, Bool.false_eq_true, if_false,
      if_true]
  | blank line => exact reaches_blanks (by simp) [line]

theorem reaches_header (header : List HeaderLine) :
    Reaches schema (header.map HeaderLine.text) .header .header := by
  induction header with
  | nil => exact .nil
  | cons line rest ih => exact (reaches_headerLine line).append ih

/-- The text of an outline is read as the node it stands for. -/
theorem parse_render (hlines : schema.AllNames OnOneLine) {o : Outline} (h : o.Fits schema) :
    ∃ top, o.elaborate? schema = some top ∧ ∀ (layout : Layout) (name : String),
      parse schema ⟨name, o.render layout⟩ = .ok (.withTop schema top) := by
  obtain ⟨top, htop⟩ := exists_readsAs hlines h
  refine ⟨top, htop.elaborates, ?_⟩
  intro layout name
  have hnode : Reaches schema (o.lines layout.style) .header (.complete top) :=
    htop.reaches layout.style .header [] .header
  have htrailer : Reaches schema (layout.trailer.map Subtype.val) (.complete top)
      (.complete top) := reaches_blanks (by simp) layout.trailer
  have htext := ((reaches_header layout.header).append hnode).append htrailer
  refine parse_of_run (htext.run _ ?_)
  rw [Outline.render, String.toList_ofList]
  exact Line.map_text_ofText_linesText htext.on_lines layout.lineEnd layout.closed

theorem allNames_onOneLine_of_parse {names : SourceFile} {origin bound : Schema}
    (h : Names.parse names = .ok origin) (hbound : origin.Rebound bound) :
    bound.AllNames OnOneLine := by
  intro a ha
  obtain ⟨hname, hvalues⟩ := hbound.allNames (Names.allNames_of_parse h) a ha
  exact ⟨hname.no_lineFeed, fun entry hentry => (hvalues entry hentry).no_lineFeed⟩

/-- **Reading undoes writing.**  Every outline that fits a schema whose names stay on a line
    stands for a node, and its text in every layout is read as the tree with that node at the
    top.  The names of a schema that was read do stay on a line. -/
theorem parse_render_of_onOneLine :
    (∀ (names : SourceFile) (origin bound : Schema), Names.parse names = .ok origin →
      origin.Rebound bound → bound.AllNames OnOneLine) ∧
    ∀ schema : Schema, schema.AllNames OnOneLine → ∀ o : Outline, o.Fits schema →
      ∃ top, o.elaborate? schema = some top ∧ ∀ (layout : Layout) (name : String),
        parse schema ⟨name, o.render layout⟩ =
          .ok ⟨schema.decisionAttribute.name, schema.decisionAttribute.valueType, some top⟩ := by
  constructor
  · intro names origin bound hnames hbound
    exact allNames_onOneLine_of_parse hnames hbound
  · intro schema hlines o ho
    exact parse_render hlines ho

/-- What `policyTree` says. -/
def policyOutline : Outline :=
  .subsets "count" [["low"], ["mid", "high"]]
    [.threshold "level" [.leaf "stop"], .values "count" [.leaf "pause", .leaf "play"]]

/-- The layout of `policyTree`. -/
def policyLayout : Layout where
  header := [.id ⟨"policy", by decide⟩]
  style _ := ⟨[], .blank .empty, false, fun _ => []⟩
  trailer := []
  lineEnd := .lineFeed
  closed := true

theorem policyOutline_fits : policyOutline.Fits policySchema.bindById := by
  have hlevel : policySchema.bindById.attribute? "level" =
      some ⟨"level", ⟨1⟩, .continuous, .index 1, []⟩ := by decide
  have hcount : policySchema.bindById.attribute? "count" =
      some ⟨"count", ⟨2⟩, .enumerated, .index 2, [("low", 0), ("mid", 1), ("high", 2)]⟩ := by decide
  have hstop : policySchema.bindById.decisionCode? "stop" = some 0 := by decide
  have hpause : policySchema.bindById.decisionCode? "pause" = some 1 := by decide
  have hplay : policySchema.bindById.decisionCode? "play" = some 2 := by decide
  have hthreshold : (Outline.threshold "level" [.leaf "stop"]).Fits policySchema.bindById :=
    .threshold hlevel (by decide) (by decide) (by simpa using .leaf hstop)
  have hvalues : (Outline.values "count" [.leaf "pause", .leaf "play"]).Fits
      policySchema.bindById :=
    .values hcount (by decide) (by decide) (by simpa using ⟨.leaf hpause, .leaf hplay⟩)
  refine .subsets hcount rfl (by decide) (by decide) (by decide) ?_
    (by simpa using ⟨hthreshold, hvalues⟩)
  simp only [List.forall_mem_cons, List.not_mem_nil, false_imp_iff, implies_true, and_true]
  exact ⟨⟨0, rfl⟩, ⟨1, rfl⟩, ⟨2, rfl⟩⟩

theorem parse_render_policyOutline :
    policySchema.bindById.AllNames OnOneLine ∧ policyOutline.Fits policySchema.bindById ∧
      policyOutline.render policyLayout = policyTree.content ∧
      policyOutline.elaborate? policySchema.bindById = (policy (.index 1) (.index 2)).top ∧
      parse policySchema.bindById ⟨"policy.tree", policyOutline.render policyLayout⟩ =
        .ok (policy (.index 1) (.index 2)) := by
  have hlines : policySchema.bindById.AllNames OnOneLine :=
    parse_render_of_onOneLine.1 policyNames policySchema policySchema.bindById parse_policyNames
      (.bindById .refl)
  obtain ⟨top, htop, hparse⟩ :=
    parse_render_of_onOneLine.2 policySchema.bindById hlines policyOutline policyOutline_fits
  have helaborated : policyOutline.elaborate? policySchema.bindById =
      (policy (.index 1) (.index 2)).top := by
    cbv
  have hpolicy := hparse policyLayout "policy.tree"
  rw [← htop, helaborated] at hpolicy
  exact ⟨hlines, policyOutline_fits, by cbv, helaborated, hpolicy⟩

end DecisionModel.TreeFile
