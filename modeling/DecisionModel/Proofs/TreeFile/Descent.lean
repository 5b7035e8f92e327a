import DecisionModel.Proofs.TreeFile.Step

/-!
# Reading by descent

A tree can also be read node by node.  A node starts with its record, past blank lines.  A test
goes on with its placeholder or its sets, if they are not on its record, and then with the
nodes behind its branches, which are read the same way.  Each reader returns the lines it has
left.  A node takes a line at least, and this is why the descent ends.

Reading line by line with a stack of open tests comes to the same, down to the faults.
-/

namespace DecisionModel.TreeFile

/-! ### The readers -/

/-- What is left of some lines when at least one has been read. -/
abbrev Behind (lines : List Line) := { rest : List Line // rest.length < lines.length }

/-- What is left of some lines when any number has been read. -/
abbrev From (lines : List Line) := { rest : List Line // rest.length ≤ lines.length }

/-- The record on the first line that is not blank. -/
def nextRecord (expected : Expected) (stop : Span) :
    (lines : List Line) → Except (Located Fault) (Record × Behind lines)
  | [] => .error ⟨.unexpectedEnd expected, stop, none⟩
  | l :: rest =>
    if l.isBlank then do
      let (r, ⟨behind, hbehind⟩) ← nextRecord expected stop rest
      .ok (r, ⟨behind, Nat.lt_succ_of_lt hbehind⟩)
    else do
      let r ← Record.parse l
      .ok (r, ⟨rest, Nat.lt_succ_self _⟩)

/-- The line right behind the record of a test on values. -/
def readPlaceholder (stop : Span) : (lines : List Line) → Except (Located Fault) (Behind lines)
  | [] => .error ⟨.unexpectedEnd .placeholder, stop, none⟩
  | l :: rest => do
    State.checkPlaceholder l
    .ok ⟨rest, Nat.lt_succ_self _⟩

/-- Sets of values of the attribute, each on a line of its own. -/
def readSetLines (stop : Span) (a : Attribute) :
    Nat → (lines : List Line) → Except (Located Fault) (List (List Int) × From lines)
  | 0, lines => .ok ([], ⟨lines, Nat.le_refl _⟩)
  | count + 1, lines => do
    let (r, ⟨behind, hbehind⟩) ← nextRecord .subset stop lines
    let codes ← (← r.required "elts").codes a
    let (sets, ⟨rest, hrest⟩) ← readSetLines stop a count behind
    .ok (codes :: sets, ⟨rest, by omega⟩)

/-- The sets of a test, from its record or from the lines behind it. -/
def readSets (stop : Span) (r : Record) (a : Attribute) (forks : Nat) (lines : List Line) :
    Except (Located Fault) (List (List Int) × From lines) := do
  match r.fieldsNamed "elts" with
  | [] => readSetLines stop a forks lines
  | extra :: more =>
    if (extra :: more).length = forks then
      .ok (← (extra :: more).mapM (·.codes a), ⟨lines, Nat.le_refl _⟩)
    else .error ⟨.subsetCount (extra :: more).length forks, extra.span, none⟩

/-- The branches of a test, from its record and the lines behind it. -/
def readTest (stop : Span) (r : Record) (type : NodeType) (a : Attribute) (forks : Nat)
    (lines : List Line) : Except (Located Fault) (List (Branch Unit) × From lines) := do
  match type with
  | .values =>
    let ⟨behind, hbehind⟩ ← readPlaceholder stop lines
    if a.valueCount < forks - 1 then
      .error ⟨.tooManyForks a.name a.valueCount (forks - 1), (← r.required "forks").span, none⟩
    else .ok (valueBranches a (forks - 1), ⟨behind, Nat.le_of_lt hbehind⟩)
  | .threshold => .ok (thresholdBranches a forks, ⟨lines, Nat.le_refl _⟩)
  | _ =>
    let (sets, rest) ← readSets stop r a forks lines
    .ok (subsetBranches a sets, rest)

mutual

/-- Reads a node from the front of the lines. -/
def readNode (schema : Schema) (stop : Span) (lines : List Line) :
    Except (Located Fault) (Node × Behind lines) := do
  let (r, ⟨behind, hbehind⟩) ← nextRecord .node stop lines
  let type ← r.nodeType
  if type = .leaf then .ok (← r.terminal schema, ⟨behind, hbehind⟩)
  else
    let a ← r.tested schema
    let forks ← r.forks
    let (branches, ⟨children, hchildren⟩) ← readTest stop r type a forks behind
    let (done, ⟨rest, hrest⟩) ← readChildren schema stop branches children
    .ok (.test done, ⟨rest, by omega⟩)
termination_by (lines.length, 0)

/-- Reads the nodes behind branches, one after the other. -/
def readChildren (schema : Schema) (stop : Span) (branches : List (Branch Unit))
    (lines : List Line) : Except (Located Fault) (List (Branch Node) × From lines) :=
  match branches with
  | [] => .ok ([], ⟨lines, Nat.le_refl _⟩)
  | b :: later => do
    let (child, ⟨behind, hbehind⟩) ← readNode schema stop lines
    let (done, ⟨rest, hrest⟩) ← readChildren schema stop later behind
    .ok (withChild b child :: done, ⟨rest, by omega⟩)
termination_by (lines.length, 1)

end

/-- The lines from the first on that is not in front of the nodes. -/
def skipHeader : List Line → Except (Located Fault) (List Line)
  | [] => .ok []
  | l :: rest =>
    if l.isBlank then skipHeader rest
    else do
      if ← State.isHeader (← Record.parse l) then skipHeader rest else .ok (l :: rest)

/-- Refuses records behind the tree. -/
def expectEnd : List Line → Except (Located Fault) Unit
  | [] => .ok ()
  | l :: rest =>
    if l.isBlank then expectEnd rest
    else do
      let r ← Record.parse l
      .error ⟨.trailingRecord, r.span, none⟩

/-- Reads the node at the top from the lines of a text. -/
def readTree (schema : Schema) (stop : Span) (lines : List Line) :
    Except (Located Fault) Node := do
  let (top, ⟨rest, _⟩) ← readNode schema stop (← skipHeader lines)
  expectEnd rest
  .ok top

/-! ### Reading line by line comes to the same -/

namespace State

/-- What reading the lines from a state on comes to. -/
def run (schema : Schema) (stop : Span) (s : State) (lines : List Line) :
    Except (Located Fault) Node :=
  lines.foldlM (State.step schema) s >>= (·.finish stop)

variable {schema : Schema} {stop : Span}

theorem run_cons (s : State) (l : Line) (rest : List Line) :
    s.run schema stop (l :: rest) = s.step schema l >>= fun t => t.run schema stop rest := by
  simp only [run, List.foldlM_cons, bind_assoc]

theorem run_complete (top : Node) (lines : List Line) :
    (State.complete top).run schema stop lines = expectEnd lines >>= fun _ => .ok top := by
  induction lines with
  | nil => rfl
  | cons l rest ih =>
    rw [run_cons, step_eq_of_ne_placeholder (by simp), expectEnd]
    by_cases hblank : l.isBlank = true
    · simp only [if_pos hblank]
      exact ih
    · simp only [if_neg hblank, bind_assoc]
      rfl

/-- A state that expects a record takes the next one. -/
theorem run_of_expects {s : State} {expected : Expected}
    (hs : ∀ a forks span stack, s ≠ .placeholder a forks span stack)
    (hend : s.finish stop = .error ⟨.unexpectedEnd expected, stop, none⟩) (lines : List Line) :
    s.run schema stop lines = nextRecord expected stop lines >>= fun (r, behind) =>
      s.record schema r >>= fun t => t.run schema stop behind.1 := by
  induction lines with
  | nil => exact hend
  | cons l rest ih =>
    rw [run_cons, step_eq_of_ne_placeholder hs, nextRecord]
    by_cases hblank : l.isBlank = true
    · simp only [if_pos hblank, bind_assoc]
      exact ih
    · simp only [if_neg hblank, bind_assoc]
      rfl

theorem run_node (stack : List Frame) (lines : List Line) :
    (State.node stack).run schema stop lines = nextRecord .node stop lines >>= fun (r, behind) =>
      nodeRecord schema r stack >>= fun t => t.run schema stop behind.1 :=
  run_of_expects (by simp) rfl lines

theorem run_placeholder (a : Attribute) (forks : Nat) (span : Span) (stack : List Frame)
    (lines : List Line) :
    (State.placeholder a forks span stack).run schema stop lines =
      readPlaceholder stop lines >>= fun behind =>
        afterPlaceholder a forks span stack >>= fun t => t.run schema stop behind.1 := by
  cases lines with
  | nil => rfl
  | cons l rest =>
    rw [run_cons, readPlaceholder]
    simp only [step, bind_assoc]
    rfl

/-- The lines of the sets that are still missing. -/
theorem run_subsets (a : Attribute) (stack : List Frame) (missing : Nat) :
    ∀ (sets : List (List Int)) (lines : List Line),
      (State.subsets a (missing + 1) sets stack).run schema stop lines =
        readSetLines stop a (missing + 1) lines >>= fun (more, rest) =>
          (descend (subsetBranches a (sets ++ more)) stack).run schema stop rest.1 := by
  induction missing with
  | zero =>
    intro sets lines
    rw [run_of_expects (by simp) rfl]
    simp only [record, subsetRecord, readSetLines, bind_assoc]
    rfl
  | succ missing ih =>
    intro sets lines
    rw [run_of_expects (by simp) rfl, readSetLines]
    have hmissing : ¬ missing + 1 + 1 ≤ 1 := by omega
    simp only [record, subsetRecord, bind_assoc, if_neg hmissing, Nat.add_sub_cancel]
    refine bind_congr fun (r, behind) => bind_congr fun field => bind_congr fun codes => ?_
    refine (ih (sets ++ [codes]) behind.1).trans (bind_congr fun (more, rest) => ?_)
    have hsets : sets ++ [codes] ++ more = sets ++ codes :: more := by simp
    simp only [hsets]
    rfl

theorem exists_required_of_forks {r : Record} {forks : Nat} (h : r.forks = .ok forks) :
    ∃ field, r.required "forks" = .ok field := by
  unfold Record.forks Record.value at h
  obtain ⟨_, h, -⟩ := bind_eq_ok_iff.mp h
  obtain ⟨field, hfield, -⟩ := bind_eq_ok_iff.mp h
  exact ⟨field, hfield⟩

/-- The record of a test and the lines behind it lead to its branches. -/
theorem run_nodeRecord_test {r : Record} {type : NodeType} (htype : r.nodeType = .ok type)
    (hne : type ≠ .leaf) (stack : List Frame) (lines : List Line) :
    (nodeRecord schema r stack >>= fun t => t.run schema stop lines) =
      r.tested schema >>= fun a => r.forks >>= fun forks =>
        readTest stop r type a forks lines >>= fun (branches, rest) =>
          (descend branches stack).run schema stop rest.1 := by
  unfold nodeRecord
  rw [htype, ok_bind]
  rcases r.tested schema with e | a
  · cases type <;> first | exact absurd rfl hne | rfl
  rcases hforks : r.forks with e | forks
  · cases type <;> first | exact absurd rfl hne | rfl
  cases type with
  | leaf => exact absurd rfl hne
  | values =>
    obtain ⟨field, hfield⟩ := exists_required_of_forks hforks
    simp only [ok_bind, hfield, readTest, bind_assoc]
    refine (run_placeholder a forks field.span stack lines).trans ?_
    refine bind_congr fun behind => ?_
    unfold afterPlaceholder
    split <;> rfl
  | threshold => rfl
  | subsets =>
    obtain ⟨hlow, -⟩ := Record.forks_bounds hforks
    obtain ⟨missing, rfl⟩ : ∃ missing, forks = missing + 1 := ⟨forks - 1, by omega⟩
    simp only [ok_bind, readTest, readSets, openSubsets, bind_assoc]
    rcases r.fieldsNamed "elts" with _ | ⟨extra, more⟩
    · exact run_subsets a stack missing [] lines
    · dsimp only
      split
      · simp only [bind_assoc]
        rfl
      · rfl

variable (schema stop) in
/-- From up to `bound` lines, the node that comes next is read by descent. -/
def ReadsNodes (bound : Nat) : Prop :=
  ∀ (stack : List Frame) (lines : List Line), lines.length ≤ bound →
    (State.node stack).run schema stop lines =
      readNode schema stop lines >>= fun (n, rest) => (plug n stack).run schema stop rest.1

variable {bound : Nat}

/-- Children that are read one after the other fill an open test. -/
theorem run_frame (h : ReadsNodes schema stop bound) (stack : List Frame)
    (pending : List (Branch Unit)) :
    ∀ (current : Branch Unit) (done : List (Branch Node)) (lines : List Line),
      lines.length ≤ bound →
      (State.node (⟨done, current, pending⟩ :: stack)).run schema stop lines =
        readChildren schema stop (current :: pending) lines >>= fun (more, rest) =>
          (plug (.test (done ++ more)) stack).run schema stop rest.1 := by
  induction pending with
  | nil =>
    intro current done lines hlines
    rw [h _ lines hlines, readChildren, bind_assoc]
    refine bind_congr fun (n, rest) => ?_
    simp only [readChildren, ok_bind, plug]
  | cons next later ih =>
    intro current done lines hlines
    rw [h _ lines hlines, readChildren, bind_assoc]
    refine bind_congr fun (n, ⟨behind, hbehind⟩) => ?_
    have hlater := ih next (done ++ [withChild current n]) behind (by omega)
    simp only [bind_assoc, ok_bind, plug]
    refine hlater.trans (bind_congr fun (more, rest) => ?_)
    simp only [List.append_assoc, List.singleton_append]

theorem run_descend (h : ReadsNodes schema stop bound) (branches : List (Branch Unit))
    (stack : List Frame) {lines : List Line} (hlines : lines.length ≤ bound) :
    (descend branches stack).run schema stop lines =
      readChildren schema stop branches lines >>= fun (done, rest) =>
        (plug (.test done) stack).run schema stop rest.1 := by
  cases branches with
  | nil =>
    rw [readChildren]
    rfl
  | cons current pending => exact run_frame h stack pending current [] lines hlines

theorem readsNodes (bound : Nat) : ReadsNodes schema stop bound := by
  induction bound using Nat.strongRecOn with
  | ind bound ih =>
    intro stack lines hlines
    rw [run_node, readNode, bind_assoc]
    refine bind_congr fun (r, ⟨behind, hbehind⟩) => ?_
    rcases htype : r.nodeType with e | type
    · simp only [nodeRecord, htype, error_bind]
    -- the nodes behind the branches start behind the record, so they have fewer lines
    have hchildren : ReadsNodes schema stop behind.length := ih behind.length (by omega)
    by_cases hleaf : type = .leaf
    · subst hleaf
      simp only [nodeRecord, htype, ok_bind, if_true, bind_assoc]
    · dsimp only
      rw [run_nodeRecord_test htype hleaf, htype, ok_bind, if_neg hleaf]
      simp only [bind_assoc]
      refine bind_congr fun a => bind_congr fun forks => ?_
      refine bind_congr fun (branches, ⟨children, hle⟩) => ?_
      exact run_descend hchildren branches stack hle

theorem run_header (lines : List Line) :
    State.header.run schema stop lines =
      skipHeader lines >>= fun nodes => (State.node []).run schema stop nodes := by
  induction lines with
  | nil => rfl
  | cons l rest ih =>
    rw [run_cons, step_eq_of_ne_placeholder (by simp), skipHeader]
    by_cases hblank : l.isBlank = true
    · simp only [if_pos hblank, ok_bind]
      exact ih
    · simp only [if_neg hblank, bind_assoc]
      rcases hparse : Record.parse l with e | r
      · rfl
      rcases hheader : isHeader r with e | header
      · simp only [ok_bind, State.record, hheader, error_bind]
      cases header with
      | true =>
        simp only [ok_bind, State.record, hheader, if_true]
        exact ih
      | false =>
        have hfirst : (State.node []).step schema l = nodeRecord schema r [] := by
          rw [step_eq_of_ne_placeholder (by simp), if_neg hblank, hparse]
          rfl
        simp only [ok_bind, State.record, hheader, Bool.false_eq_true, if_false, run_cons, hfirst]

end State

/-- **Reading line by line is reading by descent.** -/
theorem parse_eq_readTree (schema : Schema) (file : SourceFile) :
    parse schema file =
      ((readTree schema file.endSpan (Line.ofText file.content.toList)).map
        (DecisionTree.withTop schema)).mapError (.ofLocated .tree file) := by
  have hrun : State.header.run schema file.endSpan (Line.ofText file.content.toList) =
      readTree schema file.endSpan (Line.ofText file.content.toList) := by
    rw [State.run_header, readTree]
    refine bind_congr fun nodes => ?_
    rw [State.readsNodes nodes.length [] nodes (Nat.le_refl _)]
    refine bind_congr fun (top, rest) => ?_
    exact State.run_complete top rest.1
  rw [← hrun, State.run, parse_eq_run]

end DecisionModel.TreeFile
