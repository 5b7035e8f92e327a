import DecisionModel.Evaluation
import DecisionModel.Proofs.Lists

/-!
# The walk of an evaluation

At a test the first branch that is not passed over decides: it is taken, or it stops the walk.
-/

namespace DecisionModel

/-- What the branch says of a record. -/
def Branch.verdict {α : Type} (b : Branch α) (options : EvalOptions) (record : Record) : Verdict :=
  DecisionModel.verdict options record b.attr b.slot b.test

theorem Branch.verdict_of_fault {α : Type} {b : Branch α} {options : EvalOptions} {record : Record}
    {attr : AttrId} (h : b.verdict options record = .fault attr) :
    attr = b.attr ∧ b.slot = .unbound ∧ b.test.isSome = true := by
  obtain ⟨battr, slot, test, child⟩ := b
  rcases test with _ | test
  · simp [Branch.verdict, DecisionModel.verdict] at h
  · cases slot with
    | unbound =>
      simp only [Branch.verdict, DecisionModel.verdict, Slot.isBound, Bool.false_eq_true, if_false,
        Verdict.fault.injEq] at h
      exact ⟨h.symm, rfl, rfl⟩
    | index n =>
      simp only [Branch.verdict, DecisionModel.verdict, Slot.isBound, if_true] at h
      split at h
      · cases h
      · split at h <;> cases h

theorem decideBranches_cons (options : EvalOptions) (record : Record) (b : Branch Node)
    (rest : List (Branch Node)) :
    decideBranches options record (b :: rest) =
      match b.verdict options record with
      | .fault attr => .error (.unboundSlot attr)
      | .take => b.child.decide options record
      | .passOver => decideBranches options record rest := by
  obtain ⟨attr, slot, test, child⟩ := b
  rfl

/-- **What decides at a test:** nothing, or the first branch that is not passed over. -/
theorem decideBranches_cases (options : EvalOptions) (record : Record)
    (branches : List (Branch Node)) :
    ((∀ b ∈ branches, b.verdict options record = .passOver) ∧
      decideBranches options record branches = .error .noMatch) ∨
    ∃ before b after, branches = before ++ b :: after ∧
      (∀ p ∈ before, p.verdict options record = .passOver) ∧
      ((b.verdict options record = .take ∧
          decideBranches options record branches = b.child.decide options record) ∨
        ∃ attr, b.verdict options record = .fault attr ∧
          decideBranches options record branches = .error (.unboundSlot attr)) := by
  induction branches with
  | nil => exact .inl ⟨by simp, rfl⟩
  | cons b rest ih =>
    rw [decideBranches_cons]
    rcases hverdict : b.verdict options record with _ | _ | attr
    · dsimp only
      rcases ih with ⟨hover, hresult⟩ | ⟨before, c, after, rfl, hbefore, hdecides⟩
      · left
        exact ⟨List.forall_mem_cons.mpr ⟨hverdict, hover⟩, hresult⟩
      · right
        exact ⟨b :: before, c, after, rfl, List.forall_mem_cons.mpr ⟨hverdict, hbefore⟩, hdecides⟩
    · right
      exact ⟨[], b, rest, rfl, by simp, .inl ⟨hverdict, rfl⟩⟩
    · right
      exact ⟨[], b, rest, rfl, by simp, .inr ⟨attr, hverdict, rfl⟩⟩

/-- Branches that are passed over in front of others do not matter. -/
theorem decideBranches_append {options : EvalOptions} {record : Record}
    {before : List (Branch Node)} (h : ∀ b ∈ before, b.verdict options record = .passOver)
    (rest : List (Branch Node)) :
    decideBranches options record (before ++ rest) = decideBranches options record rest := by
  induction before with
  | nil => rfl
  | cons b before ih =>
    rw [List.cons_append, decideBranches_cons, h b (by simp)]
    exact ih fun p hp => h p (by simp [hp])

theorem decideBranches_of_passOver {options : EvalOptions} {record : Record}
    {branches : List (Branch Node)} (h : ∀ b ∈ branches, b.verdict options record = .passOver) :
    decideBranches options record branches = .error .noMatch := by
  have hall := decideBranches_append h []
  rw [List.append_nil] at hall
  rw [hall]
  rfl

/-- Where all branches say the same, and what is behind each decides the same, so do they. -/
theorem decideBranches_congr {options options' : EvalOptions} {record record' : Record}
    {branches : List (Branch Node)}
    (hverdict : ∀ b ∈ branches, b.verdict options record = b.verdict options' record')
    (hchild : ∀ b ∈ branches, b.child.decide options record = b.child.decide options' record') :
    decideBranches options record branches = decideBranches options' record' branches := by
  induction branches with
  | nil => rfl
  | cons b rest ih =>
    have hrest := ih (fun c hc => hverdict c (by simp [hc])) (fun c hc => hchild c (by simp [hc]))
    rw [decideBranches_cons, decideBranches_cons, hverdict b (by simp), hchild b (by simp), hrest]

/-- Where each branch is made from an entry and a child, and the entry says whether the branch
    is taken, the child at the position of the first such entry decides. -/
theorem decideBranches_zipWith {α : Type} {options : EvalOptions} {record : Record}
    {f : α → Node → Branch Node} (takes : α → Bool) (hchild : ∀ x n, (f x n).child = n)
    (hverdict : ∀ x n, (f x n).verdict options record = if takes x then .take else .passOver)
    (xs : List α) (nodes : List Node) :
    decideBranches options record (List.zipWith f xs nodes) =
      match (xs.findIdx? takes).bind fun i => nodes[i]? with
      | some n => n.decide options record
      | none => .error .noMatch := by
  induction xs generalizing nodes with
  | nil => simp [decideBranches]
  | cons x xs ih =>
    cases nodes with
    | nil => simp [decideBranches]
    | cons n nodes =>
      rw [List.zipWith_cons_cons, decideBranches_cons, hverdict, hchild, List.findIdx?_cons]
      by_cases htakes : takes x = true
      · simp [htakes]
      · simp only [htakes, Bool.false_eq_true, if_false]
        rw [ih, Option.bind_map]
        rfl

/-! ### Walks that meet the same verdicts -/

/-- The branch leads on from the node, or from one behind it. -/
inductive Node.HasBranch (b : Branch Node) : Node → Prop
  | here {branches : List (Branch Node)} : b ∈ branches → HasBranch b (.test branches)
  | behind {branches : List (Branch Node)} {c : Branch Node} : c ∈ branches →
      HasBranch b c.child → HasBranch b (.test branches)

/-- **A node decides by what its branches say.**  Where they all say the same, whatever the
    options and the records, the same is decided. -/
theorem Node.decide_congr {options options' : EvalOptions} {record record' : Record} {n : Node}
    (h : ∀ b, n.HasBranch b → b.verdict options record = b.verdict options' record') :
    n.decide options record = n.decide options' record' := by
  induction n using Node.induct with
  | terminal v => rfl
  | test branches ih =>
    apply decideBranches_congr
    · intro b hb
      exact h b (.here hb)
    · intro b hb
      apply ih b hb
      intro c hc
      exact h c (.behind hb hc)

theorem DecisionTree.evaluate_congr {options options' : EvalOptions} {record record' : Record}
    {t : DecisionTree} (h : ∀ top b, t.top = some top → top.HasBranch b →
      b.verdict options record = b.verdict options' record') :
    t.evaluate options record = t.evaluate options' record' := by
  rcases htop : t.top with _ | top
  · simp only [evaluate, htop]
  · have hdecide : top.decide options record = top.decide options' record' :=
      Node.decide_congr fun b hb => h top b htop hb
    simp only [evaluate, htop, hdecide]

namespace Branch

variable {α : Type} {b : Branch α} {options options' : EvalOptions}

theorem verdict_eq_of_value_eq {record record' : Record} (h : record' b.slot = record b.slot) :
    b.verdict options record' = b.verdict options record := by
  obtain ⟨attr, slot, test, child⟩ := b
  rcases test with _ | t
  · rfl
  · simp only at h
    simp only [verdict, DecisionModel.verdict, h]

theorem verdict_eq_of_unbound (h : b.slot.isBound = false) (record record' : Record) :
    b.verdict options record' = b.verdict options record := by
  obtain ⟨attr, slot, test, child⟩ := b
  rcases test with _ | t
  · rfl
  · simp only at h
    simp only [verdict, DecisionModel.verdict, h, Bool.false_eq_true, if_false]

/-- A branch whose test every input passes or fails alike says the same under both options. -/
theorem verdict_eq_of_passes_eq (record : Record)
    (h : ∀ t input, b.test = some t → t.passes options input = t.passes options' input) :
    b.verdict options record = b.verdict options' record := by
  obtain ⟨attr, slot, test, child⟩ := b
  rcases test with _ | t
  · rfl
  · simp only [verdict, DecisionModel.verdict, h t _ rfl]

end Branch

/-! ### Branches on an attribute -/

theorem verdict_branch_of_missing {a : Attribute} (hslot : a.slot.isBound = true)
    {options : EvalOptions} {record : Record} (hmissing : record a.slot = none)
    (test : Option Test) (child : Node) :
    (a.branch test child).verdict options record = .passOver := by
  cases test with
  | none => rfl
  | some t => simp [Branch.verdict, Attribute.branch, verdict, hslot, hmissing]

theorem verdict_branch_of_held {a : Attribute} (hslot : a.slot.isBound = true)
    {options : EvalOptions} {record : Record} {input : Value}
    (hheld : record a.slot = some input) (t : Test) (child : Node) :
    (a.branch (some t) child).verdict options record =
      if t.passes options input then .take else .passOver := by
  simp [Branch.verdict, Attribute.branch, verdict, hslot, hheld]

end DecisionModel
