import DecisionModel.Proofs.Lists
import DecisionModel.TreeFile.Parser

/-!
# What a line of tree text can do

Reading goes from state to state, a line at a time.  Here it is said once where a line that
is accepted can lead, with everything that was checked on the way.
-/

namespace DecisionModel

/-- The code of some value of the attribute. -/
def Attribute.HasCode (a : Attribute) (code : Int) : Prop := ∃ value, a.codeOf? value = some code

namespace TreeFile

/-- Where the record of a node can lead from a stack. -/
inductive NodeMove (schema : Schema) (stack : List Frame) : State → Prop
  | terminal {value : String} {code : Int} : schema.decisionCode? value = some code →
      NodeMove schema stack (.plug (.terminal (.integer code)) stack)
  | values {name : String} {a : Attribute} {forks : Nat} (span : Span) :
      schema.attribute? name = some a → 1 ≤ forks → forks ≤ maxForks →
      NodeMove schema stack (.placeholder a forks span stack)
  | threshold {name : String} {a : Attribute} {forks : Nat} :
      schema.attribute? name = some a → 1 ≤ forks → forks ≤ maxForks →
      NodeMove schema stack (.descend (thresholdBranches a forks) stack)
  | inlineSets {name : String} {a : Attribute} {sets : List (List Int)} :
      schema.attribute? name = some a → 1 ≤ sets.length → sets.length ≤ maxForks →
      (∀ codes ∈ sets, ∀ code ∈ codes, a.HasCode code) →
      NodeMove schema stack (.descend (subsetBranches a sets) stack)
  | followingSets {name : String} {a : Attribute} {forks : Nat} :
      schema.attribute? name = some a → 1 ≤ forks → forks ≤ maxForks →
      NodeMove schema stack (.subsets a forks [] stack)

/-- Where a line can lead. -/
inductive Move (schema : Schema) (l : Line) : State → State → Prop
  | blank {s : State} : l.isBlank = true → Move schema l s s
  | header : l.isBlank = false → Move schema l .header .header
  | top {s : State} : l.isBlank = false → NodeMove schema [] s → Move schema l .header s
  | node {stack : List Frame} {s : State} : l.isBlank = false → NodeMove schema stack s →
      Move schema l (.node stack) s
  | placeholder {a : Attribute} {forks : Nat} (span : Span) (stack : List Frame) :
      forks - 1 ≤ a.valueCount →
      Move schema l (.placeholder a forks span stack)
        (.descend (valueBranches a (forks - 1)) stack)
  | nextSet {a : Attribute} {missing : Nat} (sets : List (List Int)) {codes : List Int}
      (stack : List Frame) : l.isBlank = false → 1 < missing →
      (∀ code ∈ codes, a.HasCode code) →
      Move schema l (.subsets a missing sets stack)
        (.subsets a (missing - 1) (sets ++ [codes]) stack)
  | lastSet {a : Attribute} {missing : Nat} (sets : List (List Int)) {codes : List Int}
      (stack : List Frame) : l.isBlank = false → missing ≤ 1 →
      (∀ code ∈ codes, a.HasCode code) →
      Move schema l (.subsets a missing sets stack)
        (.descend (subsetBranches a (sets ++ [codes])) stack)

/-! ### Fields -/

theorem Field.hasCode_of_codes {f : Field} {a : Attribute} {codes : List Int}
    (h : f.codes a = .ok codes) : ∀ code ∈ codes, a.HasCode code := by
  intro code hcode
  obtain ⟨⟨value, span⟩, -, hvalue⟩ := exists_mem_of_mapM_ok h hcode
  dsimp only at hvalue
  split at hvalue
  · rename_i code' hcode'
    cases hvalue
    exact ⟨value, hcode'⟩
  · cases hvalue

theorem Record.forks_bounds {r : Record} {forks : Nat} (h : r.forks = .ok forks) :
    1 ≤ forks ∧ forks ≤ maxForks := by
  unfold Record.forks at h
  obtain ⟨⟨text, span⟩, -, hforks⟩ := bind_eq_ok_iff.mp h
  dsimp only at hforks
  split at hforks
  · split at hforks
    · rename_i hbounds
      cases hforks
      exact hbounds
    · cases hforks
  · cases hforks

theorem Record.tested_known {r : Record} {schema : Schema} {a : Attribute}
    (h : r.tested schema = .ok a) : ∃ name, schema.attribute? name = some a := by
  unfold Record.tested at h
  obtain ⟨⟨name, span⟩, -, hname⟩ := bind_eq_ok_iff.mp h
  dsimp only at hname
  split at hname
  · rename_i a' ha'
    cases hname
    exact ⟨name, ha'⟩
  · cases hname

theorem Record.terminal_code {r : Record} {schema : Schema} {n : Node}
    (h : r.terminal schema = .ok n) :
    ∃ value code, schema.decisionCode? value = some code ∧ n = .terminal (.integer code) := by
  unfold Record.terminal at h
  obtain ⟨⟨value, span⟩, -, hvalue⟩ := bind_eq_ok_iff.mp h
  dsimp only at hvalue
  split at hvalue
  · rename_i code hcode
    cases hvalue
    exact ⟨value, code, hcode, rfl⟩
  · cases hvalue

/-! ### Records -/

namespace State

theorem nodeMove_openSubsets {schema : Schema} {r : Record} {name : String} {a : Attribute}
    {forks : Nat} {stack : List Frame} {s : State} (known : schema.attribute? name = some a)
    (low : 1 ≤ forks) (high : forks ≤ maxForks) (h : openSubsets r a forks stack = .ok s) :
    NodeMove schema stack s := by
  unfold openSubsets at h
  split at h
  · cases h
    exact .followingSets known low high
  · rename_i extra more _
    split at h
    · rename_i hcount
      obtain ⟨sets, hsets, hs⟩ := bind_eq_ok_iff.mp h
      cases hs
      have hlength : sets.length = forks := by
        rw [length_eq_of_mapM_ok hsets, hcount]
      refine .inlineSets known (by omega) (by omega) ?_
      intro codes hcodes
      obtain ⟨f, -, hf⟩ := exists_mem_of_mapM_ok hsets hcodes
      exact f.hasCode_of_codes hf
    · cases h

theorem nodeMove_nodeRecord {schema : Schema} {r : Record} {stack : List Frame} {s : State}
    (h : nodeRecord schema r stack = .ok s) : NodeMove schema stack s := by
  unfold nodeRecord at h
  obtain ⟨type, -, h⟩ := bind_eq_ok_iff.mp h
  cases type with
  | leaf =>
    obtain ⟨n, hn, h⟩ := bind_eq_ok_iff.mp h
    obtain ⟨value, code, hcode, rfl⟩ := Record.terminal_code hn
    cases h
    exact .terminal hcode
  | values =>
    obtain ⟨a, ha, h⟩ := bind_eq_ok_iff.mp h
    obtain ⟨forks, hforks, h⟩ := bind_eq_ok_iff.mp h
    obtain ⟨field, -, h⟩ := bind_eq_ok_iff.mp h
    obtain ⟨name, hname⟩ := Record.tested_known ha
    obtain ⟨hlow, hhigh⟩ := Record.forks_bounds hforks
    cases h
    exact .values _ hname hlow hhigh
  | threshold =>
    obtain ⟨a, ha, h⟩ := bind_eq_ok_iff.mp h
    obtain ⟨forks, hforks, h⟩ := bind_eq_ok_iff.mp h
    obtain ⟨name, hname⟩ := Record.tested_known ha
    obtain ⟨hlow, hhigh⟩ := Record.forks_bounds hforks
    cases h
    exact .threshold hname hlow hhigh
  | subsets =>
    obtain ⟨a, ha, h⟩ := bind_eq_ok_iff.mp h
    obtain ⟨forks, hforks, h⟩ := bind_eq_ok_iff.mp h
    obtain ⟨name, hname⟩ := Record.tested_known ha
    obtain ⟨hlow, hhigh⟩ := Record.forks_bounds hforks
    exact nodeMove_openSubsets hname hlow hhigh h

theorem move_subsetRecord {schema : Schema} {l : Line} (hline : l.isBlank = false) {r : Record}
    {a : Attribute} {missing : Nat} {sets : List (List Int)} {stack : List Frame} {s : State}
    (h : subsetRecord r a missing sets stack = .ok s) :
    Move schema l (.subsets a missing sets stack) s := by
  unfold subsetRecord at h
  obtain ⟨field, -, h⟩ := bind_eq_ok_iff.mp h
  obtain ⟨codes, hcodes, h⟩ := bind_eq_ok_iff.mp h
  have hvalues := Field.hasCode_of_codes hcodes
  dsimp only at h
  split at h
  · rename_i hlast
    cases h
    exact .lastSet sets stack hline hlast hvalues
  · rename_i hnext
    cases h
    exact .nextSet sets stack hline (by omega) hvalues

theorem move_record {schema : Schema} {l : Line} (hline : l.isBlank = false) {r : Record}
    {s s' : State} (hs : ∀ a forks span stack, s ≠ .placeholder a forks span stack)
    (h : s.record schema r = .ok s') : Move schema l s s' := by
  cases s with
  | header =>
    obtain ⟨isHeader, -, h⟩ := bind_eq_ok_iff.mp h
    cases isHeader with
    | true =>
      cases h
      exact .header hline
    | false => exact .top hline (nodeMove_nodeRecord h)
  | node stack => exact .node hline (nodeMove_nodeRecord h)
  | placeholder a forks span stack => exact absurd rfl (hs a forks span stack)
  | subsets a missing sets stack => exact move_subsetRecord hline h
  | complete top => cases h

/-! ### Lines -/

theorem placeholder_or_ne (s : State) :
    (∃ a forks span stack, s = .placeholder a forks span stack) ∨
      ∀ a forks span stack, s ≠ .placeholder a forks span stack := by
  cases s with
  | placeholder a forks span stack => exact .inl ⟨a, forks, span, stack, rfl⟩
  | _ => exact .inr (by simp)

/-- Only the line behind a test on values is read as a placeholder. -/
theorem step_eq_of_ne_placeholder {s : State}
    (hs : ∀ a forks span stack, s ≠ .placeholder a forks span stack) (schema : Schema) (l : Line) :
    s.step schema l = if l.isBlank then .ok s else Record.parse l >>= s.record schema := by
  cases s with
  | placeholder a forks span stack => exact absurd rfl (hs a forks span stack)
  | _ => rfl

/-- **Every line that is accepted moves** as listed. -/
theorem move_of_step {schema : Schema} {l : Line} {s s' : State} (h : s.step schema l = .ok s') :
    Move schema l s s' := by
  rcases s.placeholder_or_ne with ⟨a, forks, span, stack, rfl⟩ | hs
  · obtain ⟨-, -, h⟩ := bind_eq_ok_iff.mp h
    unfold afterPlaceholder at h
    split at h
    · cases h
    · cases h
      exact .placeholder span stack (by omega)
  · rw [step_eq_of_ne_placeholder hs] at h
    by_cases hblank : l.isBlank = true
    · rw [if_pos hblank] at h
      cases h
      exact .blank hblank
    · rw [if_neg hblank] at h
      obtain ⟨r, -, h⟩ := bind_eq_ok_iff.mp h
      exact move_record (by simpa using hblank) hs h

end State

/-- A parse is a run over all lines, and what the state behind it comes to. -/
theorem parse_eq_run (schema : Schema) (file : SourceFile) :
    parse schema file =
      (((Line.ofText file.content.toList).foldlM (State.step schema) .header >>=
        (·.finish file.endSpan)).map (DecisionTree.withTop schema)).mapError
          (.ofLocated .tree file) := by
  unfold parse
  rcases (Line.ofText file.content.toList).foldlM (State.step schema) .header with e | s
  · rfl
  · simp only [ok_bind]
    rcases s.finish file.endSpan with e | top
    · rfl
    · rfl

/-- A parse that succeeds is a run over all lines that ends in a complete tree. -/
theorem run_of_parse {schema : Schema} {file : SourceFile} {tree : DecisionTree}
    (h : parse schema file = .ok tree) :
    ∃ top, (Line.ofText file.content.toList).foldlM (State.step schema) .header =
        .ok (.complete top) ∧
      tree = .withTop schema top := by
  rw [parse_eq_run, mapError_eq_ok_iff, map_eq_ok_iff] at h
  obtain ⟨top, h, rfl⟩ := h
  obtain ⟨s, hrun, hfinish⟩ := bind_eq_ok_iff.mp h
  cases s with
  | complete top' =>
    cases hfinish
    exact ⟨top, hrun, rfl⟩
  | _ => cases hfinish

/-- A run over all lines that ends in a complete tree is a parse that succeeds. -/
theorem parse_of_run {schema : Schema} {file : SourceFile} {top : Node}
    (h : (Line.ofText file.content.toList).foldlM (State.step schema) .header =
      .ok (.complete top)) :
    parse schema file = .ok (.withTop schema top) := by
  rw [parse_eq_run, h]
  rfl

end TreeFile

end DecisionModel
