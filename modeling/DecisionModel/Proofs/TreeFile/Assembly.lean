import DecisionModel.Proofs.TreeFile.NodeLines
import DecisionModel.Proofs.TreeFile.Usage

/-!
# Trees from lines with a use

Text that is read as a tree has a use for each of its lines.  Here is the converse: lines that can
be put to uses in the order of a tree are read as this tree.  So what a text is read as is a matter
of the uses of its lines alone.

A run is followed along the uses.  In front of a node some state expects it; the nodes that are
listed from there on fill the stack of this state one after the other.
-/

namespace DecisionModel.TreeFile

open State

/-! ### Filling a stack -/

/-- From a state that expects them, nodes lead one after the other to another state. -/
inductive Fills : State → List Node → State → Prop
  | nil (s : State) : Fills s [] s
  | cons {start s : State} {stack : List Frame} {n : Node} {nodes : List Node} :
      Expects start stack → Fills (plug n stack) nodes s → Fills start (n :: nodes) s

/-- No line is waited for as a placeholder. -/
def State.Passes (s : State) : Prop := ∀ a forks span stack, s ≠ .placeholder a forks span stack

theorem passes_plug (n : Node) (stack : List Frame) : (plug n stack).Passes := by
  induction stack generalizing n with
  | nil => exact fun _ _ _ _ h => by cases h
  | cons f stack ih =>
    unfold plug
    split
    · exact ih _
    · exact fun _ _ _ _ h => by cases h

theorem passes_descend (branches : List (Branch Unit)) (stack : List Frame) :
    (descend branches stack).Passes := by
  cases branches with
  | nil => exact passes_plug _ stack
  | cons next rest => exact fun _ _ _ _ h => by cases h

theorem Fills.passes {start s : State} {nodes : List Node} (h : Fills start nodes s)
    (hs : s.Passes) : start.Passes := by
  cases h with
  | nil => exact hs
  | cons hstart _ => exact hstart.ne_placeholder

variable {stack : List Frame} {s : State} {kids nodes : List Node}

/-- The nodes behind the branches of an open test fill it. -/
theorem fills_frame {done : List (Branch Node)} {current : Branch Unit}
    {pending : List (Branch Unit)} (hlength : kids.length = (current :: pending).length)
    (h : Fills (plug (.test (done ++ List.zipWith withChild (current :: pending) kids)) stack)
      nodes s) :
    Fills (.node (⟨done, current, pending⟩ :: stack)) (kids ++ nodes) s := by
  induction pending generalizing done current kids with
  | nil =>
    obtain ⟨kid, rfl⟩ := List.length_eq_one_iff.mp hlength
    exact .cons (.node _) h
  | cons next later ih =>
    obtain ⟨kid, rest, rfl⟩ := List.exists_cons_of_length_eq_add_one hlength
    refine .cons (.node _) (ih (by simpa using hlength) ?_)
    simpa using h

theorem fills_descend {branches : List (Branch Unit)} (hlength : kids.length = branches.length)
    (h : Fills (plug (.test (List.zipWith withChild branches kids)) stack) nodes s) :
    Fills (descend branches stack) (kids ++ nodes) s := by
  cases branches with
  | nil =>
    obtain rfl := List.length_eq_zero_iff.mp hlength
    exact h
  | cons current pending => exact fills_frame hlength h

/-! ### Lines and their records -/

section

variable {schema : Schema} {start : State} {l : Line} {r : Record}

theorem step_of_blank (hs : s.Passes) (hl : l.isBlank = true) : s.step schema l = .ok s := by
  rw [step_eq_of_ne_placeholder hs, if_pos hl]

theorem step_of_record (hs : s.Passes) (hl : l.isBlank = false) (hr : Record.parse l = .ok r) :
    s.step schema l = s.record schema r := by
  rw [step_eq_of_ne_placeholder hs, hl, hr]
  rfl

theorem isSome_type_of_nodeType {type : NodeType} (h : r.nodeType = .ok type) :
    (r.field? "type").isSome = true := by
  obtain ⟨_, h, -⟩ := bind_eq_ok_iff.mp h
  obtain ⟨field, hfield, -⟩ := bind_eq_ok_iff.mp h
  unfold Record.required at hfield
  split at hfield
  · rename_i found hfound
    rw [hfound]
    rfl
  · cases hfield

/-- Where a node is expected, the record of a node is read as one. -/
theorem Expects.record_of_nodeType (h : Expects start stack) {type : NodeType}
    (htype : r.nodeType = .ok type) : start.record schema r = nodeRecord schema r stack := by
  cases h with
  | header =>
    simp only [State.record, isHeader, isSome_type_of_nodeType htype, if_true, ok_bind,
      Bool.false_eq_true, if_false]
  | node => rfl

theorem nodeType_of_says {head : Head} (h : r.Says schema head) :
    ∃ type, r.nodeType = .ok type := by
  cases h with
  | leaf htype | values htype | threshold htype | inlineSets htype | followingSets htype =>
    exact ⟨_, htype⟩

/-- A use that is not that of a blank line is made of a record. -/
theorem LineUsedAs.exists_record {use : Use} (h : LineUsedAs schema l use)
    (huse : use.isBlank = false) :
    ∃ r, l.isBlank = false ∧ Record.parse l = .ok r ∧ r.UsedAs schema use := by
  cases h with
  | blank | blankPlaceholder => cases huse
  | record hl hr hused => exact ⟨_, hl, hr, hused⟩

theorem checkPlaceholder_of_used {use : Use} (h : LineUsedAs schema l use)
    (huse : use = .blankPlaceholder ∨ use = .leafPlaceholder) : checkPlaceholder l = .ok () := by
  unfold checkPlaceholder
  rcases huse with rfl | rfl
  · have hblank : l.isBlank = true := h.isBlank_eq
    rw [if_pos hblank]
  · obtain ⟨r, hl, hr, hused⟩ := h.exists_record rfl
    cases hused with
    | leafPlaceholder hleaf =>
      simp only [hl, hr, hleaf, ok_bind, Bool.false_eq_true, if_false, if_true]

/-- The record of a node leads on from where a node is expected. -/
theorem step_of_node (h : Expects start stack) {head : Head}
    (hl : LineUsedAs schema l (.node head)) :
    ∃ r, r.Says schema head ∧ start.step schema l = nodeRecord schema r stack := by
  obtain ⟨r, hblank, hr, hused⟩ := hl.exists_record rfl
  cases hused with
  | node hdescribed =>
    obtain ⟨type, htype⟩ := nodeType_of_says hdescribed
    refine ⟨r, hdescribed, ?_⟩
    rw [step_of_record h.ne_placeholder hblank hr, h.record_of_nodeType htype]

/-- The state that still needs the given sets, behind others. -/
def awaiting (a : Attribute) (done sets : List (List Int)) (stack : List Frame) : State :=
  match sets with
  | [] => descend (subsetBranches a done) stack
  | _ :: _ => .subsets a sets.length done stack

theorem passes_awaiting (a : Attribute) (done sets : List (List Int)) (stack : List Frame) :
    (awaiting a done sets stack).Passes := by
  cases sets with
  | nil => exact passes_descend _ stack
  | cons => exact fun _ _ _ _ h => by cases h

theorem run_sets {a : Attribute} {sets : List (List Int)} {lines : List Line} {uses : List Use}
    (hsets : ListsSets a uses sets) (hlines : List.Forall₂ (LineUsedAs schema) lines uses)
    (done : List (List Int)) :
    lines.foldlM (State.step schema) (awaiting a done sets stack) =
      .ok (descend (subsetBranches a (done ++ sets)) stack) := by
  induction hsets generalizing lines done with
  | nil =>
    cases hlines
    rw [List.append_nil]
    rfl
  | @blank uses sets _ ih =>
    cases hlines with
    | cons hl hlines =>
      rw [foldlM_cons_ok (step_of_blank (passes_awaiting a done sets stack) hl.isBlank_eq),
        ih hlines]
  | @set codes uses sets _ ih =>
    cases hlines with
    | @cons l _ rest _ hl hlines =>
      obtain ⟨r, hblank, hr, hused⟩ := hl.exists_record rfl
      cases hused with
      | set hfield hcodes =>
        have hstep : (awaiting a done (codes :: sets) stack).step schema l =
            .ok (awaiting a (done ++ [codes]) sets stack) := by
          rw [step_of_record (passes_awaiting a done _ stack) hblank hr]
          simp only [awaiting, State.record, subsetRecord, hfield, hcodes, ok_bind]
          cases sets <;> simp
        rw [foldlM_cons_ok hstep, ih hlines, List.append_assoc, List.singleton_append]

/-- What stands between the record of a test and the nodes behind its branches opens the test. -/
theorem run_opening {head : Head} (hdescribed : r.Says schema head) {opening : List Use}
    {branches : List (Branch Unit)} (hopens : Opens head opening branches) {lines : List Line}
    (hlines : List.Forall₂ (LineUsedAs schema) lines opening) (stack : List Frame) :
    ∃ next, nodeRecord schema r stack = .ok next ∧
      lines.foldlM (State.step schema) next = .ok (descend branches stack) := by
  cases hopens with
  | @values a forks placeholder hkind hroom =>
    cases hdescribed with
    | values htype ha hforks =>
      obtain ⟨field, hfield⟩ := exists_required_of_forks hforks
      obtain ⟨l, hl, rfl⟩ : ∃ l, LineUsedAs schema l placeholder ∧ lines = [l] := by
        simpa [List.forall₂_cons_right_iff] using hlines
      have hfits : ¬ a.valueCount < forks - 1 := by omega
      have hstep : (State.placeholder a forks field.span stack).step schema l =
          .ok (descend (valueBranches a (forks - 1)) stack) := by
        simp only [State.step, checkPlaceholder_of_used hl hkind, ok_bind, afterPlaceholder,
          if_neg hfits]
      refine ⟨.placeholder a forks field.span stack, ?_, ?_⟩
      · simp only [nodeRecord, htype, ha, hforks, hfield, ok_bind]
      · rw [foldlM_cons_ok hstep]
        rfl
  | threshold a forks =>
    cases hlines
    cases hdescribed with
    | threshold htype ha hforks =>
      exact ⟨_, by simp only [nodeRecord, htype, ha, hforks, ok_bind], rfl⟩
  | inlineSets a sets =>
    cases hlines
    cases hdescribed with
    | inlineSets htype ha hforks hne hsets =>
      obtain ⟨extra, more, hinline⟩ := List.exists_cons_of_ne_nil hne
      have hcount := length_eq_of_mapM_ok hsets
      rw [hinline] at hsets hcount
      refine ⟨_, ?_, rfl⟩
      simp only [nodeRecord, htype, ha, hforks, ok_bind, openSubsets, hinline, if_pos hcount.symm,
        hsets]
  | @followingSets a uses sets hlists =>
    cases hdescribed with
    | followingSets htype ha hforks hnone =>
      refine ⟨awaiting a [] sets stack, ?_, run_sets hlists hlines []⟩
      obtain ⟨hlow, -⟩ := Record.forks_bounds hforks
      obtain ⟨first, rest, rfl⟩ := List.exists_cons_of_length_pos hlow
      simp only [nodeRecord, htype, ha, hforks, ok_bind, openSubsets, hnone, awaiting]

end

/-! ### Whole texts -/

section

variable {schema : Schema} {lines : List Line} {uses : List Use}

theorem exists_of_forall₂_append {α β : Type} {R : α → β → Prop} {xs : List α} {ys zs : List β}
    (h : List.Forall₂ R xs (ys ++ zs)) :
    ∃ front back, xs = front ++ back ∧ List.Forall₂ R front ys ∧ List.Forall₂ R back zs :=
  ⟨xs.take ys.length, xs.drop ys.length, (List.take_append_drop ..).symm,
    List.forall₂_take_append xs ys zs h, List.forall₂_drop_append xs ys zs h⟩

/-- Lines that are used for nodes are read as these nodes. -/
theorem run_of_lists {start : State} (hlists : Lists uses nodes)
    (hlines : List.Forall₂ (LineUsedAs schema) lines uses) (hfills : Fills start nodes s)
    (hs : s.Passes) : lines.foldlM (State.step schema) start = .ok s := by
  induction hlists generalizing lines start with
  | nil =>
    cases hlines
    cases hfills
    rfl
  | blank _ ih =>
    cases hlines with
    | cons hl hlines =>
      rw [foldlM_cons_ok (step_of_blank (hfills.passes hs) hl.isBlank_eq), ih hlines hfills]
  | leaf code _ ih =>
    cases hlines with
    | @cons l _ _ _ hl hlines =>
      cases hfills with
      | @cons _ _ stack _ _ hstart hrest =>
        obtain ⟨r, hdescribed, hstep⟩ := step_of_node hstart hl
        cases hdescribed with
        | leaf htype hterminal =>
          have hleaf : start.step schema l = .ok (plug (.terminal (.integer code)) stack) := by
            rw [hstep]
            simp only [nodeRecord, htype, hterminal, ok_bind]
          rw [foldlM_cons_ok hleaf, ih hlines hrest]
  | @test head opening uses branches kids nodes hopens hkids _ ih =>
    cases hlines with
    | @cons l _ _ _ hl hlines =>
      cases hfills with
      | @cons _ _ stack _ _ hstart hrest =>
        obtain ⟨front, back, rfl, hfront, hback⟩ := exists_of_forall₂_append hlines
        obtain ⟨r, hdescribed, hstep⟩ := step_of_node hstart hl
        obtain ⟨next, hnext, hrun⟩ := run_opening hdescribed hopens hfront stack
        rw [hnext] at hstep
        rw [foldlM_cons_ok hstep, foldlM_append_ok hrun, ih hback (fills_descend hkids hrest)]

theorem run_of_heading {heading : List Use} (hheading : IsHeading heading)
    (hlines : List.Forall₂ (LineUsedAs schema) lines heading) :
    lines.foldlM (State.step schema) .header = .ok .header := by
  have hpasses : State.header.Passes := fun _ _ _ _ h => by cases h
  induction hlines with
  | nil => rfl
  | @cons l use rest uses hl _ ih =>
    obtain ⟨huse, huses⟩ := List.forall_mem_cons.mp hheading
    have hstep : State.header.step schema l = .ok .header := by
      rcases huse with rfl | rfl
      · exact step_of_blank hpasses hl.isBlank_eq
      · obtain ⟨r, hblank, hr, hused⟩ := hl.exists_record rfl
        cases hused with
        | header hheader =>
          rw [step_of_record hpasses hblank hr]
          simp only [State.record, hheader, ok_bind, if_true]
    rw [foldlM_cons_ok hstep, ih huses]

/-- The uses of all lines of a text that is read as the node, for what the text says of itself and
    then for the tree. -/
def ListsTree (uses : List Use) (top : Node) : Prop :=
  ∃ heading body, uses = heading ++ body ∧ IsHeading heading ∧ Lists body [top]

/-- **A text is read as a tree exactly if its lines have uses for this tree.** -/
theorem parse_eq_ok_iff {file : SourceFile} {tree : DecisionTree} :
    parse schema file = .ok tree ↔ ∃ top uses, tree = .withTop schema top ∧ ListsTree uses top ∧
      List.Forall₂ (LineUsedAs schema) (Line.ofText file.content.toList) uses := by
  constructor
  · intro h
    rw [parse_eq_readTree, mapError_eq_ok_iff, map_eq_ok_iff] at h
    obtain ⟨top, hread, rfl⟩ := h
    obtain ⟨heading, body, hheading, hlists, hlines⟩ := uses_of_readTree hread
    exact ⟨top, heading ++ body, rfl, ⟨heading, body, rfl, hheading, hlists⟩, hlines⟩
  · rintro ⟨top, uses, rfl, ⟨heading, body, rfl, hheading, hlists⟩, hlines⟩
    obtain ⟨front, back, hsplit, hfront, hback⟩ := exists_of_forall₂_append hlines
    have hcomplete : (State.complete top).Passes := fun _ _ _ _ h => by cases h
    apply parse_of_run
    rw [hsplit, foldlM_append_ok (run_of_heading hheading hfront)]
    exact run_of_lists hlists hback (.cons .header (.nil _)) hcomplete

end

end DecisionModel.TreeFile
