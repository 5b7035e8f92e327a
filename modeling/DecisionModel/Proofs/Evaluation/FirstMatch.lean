import Mathlib.Logic.Relation
import DecisionModel.Proofs.Evaluation.Walk

/-!
# The first-match walk

The branches of a test are tried in order.  A branch that tests an attribute without a slot is
a fault, and one whose test the record's value passes is a hit; all others say nothing.  The
first fault or hit decides.  A walk follows hits that decide, from node to node, until it is at
a terminal, or at a test where a fault decides or nothing does.

Evaluation is this walk: what it returns says where the walk ends.
-/

namespace DecisionModel

namespace Branch

variable {α : Type}

/-- A tested branch without a slot. -/
def IsFault (b : Branch α) : Prop := b.test.isSome = true ∧ b.slot.isBound = false

/-- A tested branch with a slot, whose value the record has and which it passes. -/
def IsHit (b : Branch α) (options : EvalOptions) (record : Record) : Prop :=
  ∃ t input, b.test = some t ∧ b.slot.isBound = true ∧ record b.slot = some input ∧
    t.passes options input = true

end Branch

section

variable (options : EvalOptions) (record : Record)

/-- The branch is the first that is a fault or a hit. -/
def DecidedBy (branches : List (Branch Node)) (b : Branch Node) : Prop :=
  ∃ before after, branches = before ++ b :: after ∧ (b.IsFault ∨ b.IsHit options record) ∧
    ∀ p ∈ before, ¬ p.IsFault ∧ ¬ p.IsHit options record

/-- One step of the walk. -/
inductive Node.Follows : Node → Node → Prop
  | hit {branches : List (Branch Node)} {b : Branch Node} : DecidedBy options record branches b →
      b.IsHit options record → Follows (.test branches) b.child

/-- The walk from the first node comes to the second. -/
def Node.Reaches : Node → Node → Prop := Relation.ReflTransGen (Node.Follows options record)

end

namespace DecisionTree

variable (t : DecisionTree) (options : EvalOptions) (record : Record)

/-- The walk from the top comes to a node with the given property. -/
def Reaches (p : Node → Prop) : Prop :=
  ∃ top n, t.top = some top ∧ top.Reaches options record n ∧ p n

/-- The walk ends at a terminal with the value. -/
def EndsWith (v : Value) : Prop := t.Reaches options record fun n => n = .terminal v

/-- The walk ends at a test that a fault on the attribute decides. -/
def EndsAtFault (attr : AttrId) : Prop :=
  t.Reaches options record fun n => ∃ branches b, n = .test branches ∧
    DecidedBy options record branches b ∧ b.IsFault ∧ b.attr = attr

/-- The walk ends at a test that no branch decides. -/
def EndsUndecided : Prop :=
  t.Reaches options record fun n => ∃ branches, n = .test branches ∧
    ¬ ∃ b, DecidedBy options record branches b

/-- The end of the walk that an outcome of the evaluation tells of. -/
def EndsAs : Except EvalError Decision → Prop
  | .error .unattached => t.top = none
  | .ok d => t.EndsWith options record d.value ∧ d.type = t.decisionType
  | .error (.unboundSlot attr) => t.EndsAtFault options record attr
  | .error .noMatch => t.EndsUndecided options record

end DecisionTree

/-! ### Verdicts -/

variable {options : EvalOptions} {record : Record}

namespace Branch

variable {α : Type} {b : Branch α}

theorem verdict_eq_take_iff : b.verdict options record = .take ↔ b.IsHit options record := by
  obtain ⟨attr, slot, test, child⟩ := b
  constructor
  · intro h
    rcases test with _ | t
    · cases h
    · simp only [verdict, DecisionModel.verdict] at h
      split at h
      · rename_i hbound
        rcases hinput : record slot with _ | input
        · simp [hinput] at h
        · by_cases hpasses : t.passes options input = true
          · exact ⟨t, input, rfl, hbound, hinput, hpasses⟩
          · simp [hinput, hpasses] at h
      · cases h
  · rintro ⟨t, input, rfl, hbound, hinput, hpasses⟩
    simp only at hbound hinput
    simp [verdict, DecisionModel.verdict, hbound, hinput, hpasses]

theorem verdict_eq_fault_iff {attr : AttrId} :
    b.verdict options record = .fault attr ↔ b.IsFault ∧ b.attr = attr := by
  constructor
  · intro h
    obtain ⟨hattr, hslot, htest⟩ := verdict_of_fault h
    exact ⟨⟨htest, by rw [hslot]; rfl⟩, hattr.symm⟩
  · rintro ⟨⟨htest, hslot⟩, rfl⟩
    obtain ⟨attr, slot, test, child⟩ := b
    rcases test with _ | t
    · cases htest
    · simp only at hslot
      simp [verdict, DecisionModel.verdict, hslot]

theorem verdict_eq_passOver_iff :
    b.verdict options record = .passOver ↔ ¬ b.IsFault ∧ ¬ b.IsHit options record := by
  rw [← verdict_eq_take_iff]
  constructor
  · intro h
    constructor
    · intro hfault
      have hverdict : b.verdict options record = .fault b.attr :=
        verdict_eq_fault_iff.mpr ⟨hfault, rfl⟩
      rw [h] at hverdict
      cases hverdict
    · rw [h]
      nofun
  · rintro ⟨hfault, hhit⟩
    rcases hverdict : b.verdict options record with _ | _ | attr
    · rfl
    · exact absurd hverdict hhit
    · exact absurd (verdict_eq_fault_iff.mp hverdict).1 hfault

end Branch

/-! ### One test -/

section

variable {branches : List (Branch Node)} {b : Branch Node}

theorem DecidedBy.mem (h : DecidedBy options record branches b) : b ∈ branches := by
  obtain ⟨before, after, rfl, -⟩ := h
  simp

/-- The branch that decides speaks for all of them. -/
theorem decideBranches_of_decidedBy (h : DecidedBy options record branches b) :
    decideBranches options record branches = decideBranches options record [b] := by
  obtain ⟨before, after, rfl, hb, hbefore⟩ := h
  have hover : ∀ p ∈ before, p.verdict options record = .passOver := by
    intro p hp
    exact Branch.verdict_eq_passOver_iff.mpr (hbefore p hp)
  rw [decideBranches_append hover, decideBranches_cons, decideBranches_cons]
  rcases hverdict : b.verdict options record with _ | _ | attr
  · -- the branch that decides is not passed over
    obtain ⟨hfault, hhit⟩ := Branch.verdict_eq_passOver_iff.mp hverdict
    rcases hb with h | h
    · exact absurd h hfault
    · exact absurd h hhit
  · rfl
  · rfl

theorem decideBranches_of_hit (h : DecidedBy options record branches b)
    (hit : b.IsHit options record) :
    decideBranches options record branches = b.child.decide options record := by
  rw [decideBranches_of_decidedBy h, decideBranches_cons, Branch.verdict_eq_take_iff.mpr hit]

theorem decideBranches_of_fault (h : DecidedBy options record branches b) (fault : b.IsFault) :
    decideBranches options record branches = .error (.unboundSlot b.attr) := by
  rw [decideBranches_of_decidedBy h, decideBranches_cons,
    Branch.verdict_eq_fault_iff.mpr ⟨fault, rfl⟩]

/-- Either every branch is passed over or there is one that decides. -/
theorem passOver_or_decidedBy (options : EvalOptions) (record : Record)
    (branches : List (Branch Node)) :
    (∀ b ∈ branches, b.verdict options record = .passOver) ∨
      ∃ b, DecidedBy options record branches b := by
  rcases decideBranches_cases options record branches with
    ⟨hover, -⟩ | ⟨before, b, after, rfl, hbefore, hb⟩
  · exact .inl hover
  · refine .inr ⟨b, before, after, rfl, ?_, ?_⟩
    · rcases hb with ⟨htake, -⟩ | ⟨attr, hfault, -⟩
      · exact .inr (Branch.verdict_eq_take_iff.mp htake)
      · exact .inl (Branch.verdict_eq_fault_iff.mp hfault).1
    · intro p hp
      exact Branch.verdict_eq_passOver_iff.mp (hbefore p hp)

theorem decideBranches_of_undecided (h : ¬ ∃ b, DecidedBy options record branches b) :
    decideBranches options record branches = .error .noMatch := by
  rcases passOver_or_decidedBy options record branches with hover | hdecided
  · exact decideBranches_of_passOver hover
  · exact absurd hdecided h

end

/-! ### The walk -/

namespace Node

/-- A step of the walk does not change what is decided. -/
theorem Follows.decide_eq {m n : Node} (h : m.Follows options record n) :
    m.decide options record = n.decide options record := by
  cases h with
  | hit hdecided hhit => exact decideBranches_of_hit hdecided hhit

/-- **A walk does not change what is decided.** -/
theorem Reaches.decide_eq {m n : Node} (h : m.Reaches options record n) :
    m.decide options record = n.decide options record := by
  induction h with
  | refl => rfl
  | tail _ hstep ih => exact ih.trans hstep.decide_eq

/-- **Every walk ends**, at a terminal or at a test that no hit decides. -/
theorem exists_end (options : EvalOptions) (record : Record) (n : Node) :
    (∃ v, n.Reaches options record (.terminal v)) ∨
      ∃ branches, n.Reaches options record (.test branches) ∧
        ((∃ b, DecidedBy options record branches b ∧ b.IsFault) ∨
          ¬ ∃ b, DecidedBy options record branches b) := by
  induction n using Node.induct with
  | terminal v => exact .inl ⟨v, .refl⟩
  | test branches ih =>
    by_cases hdecided : ∃ b, DecidedBy options record branches b
    · obtain ⟨b, hb⟩ := hdecided
      have hfaultOrHit : b.IsFault ∨ b.IsHit options record := by
        obtain ⟨-, -, -, h, -⟩ := hb
        exact h
      rcases hfaultOrHit with hfault | hhit
      · exact .inr ⟨branches, .refl, .inl ⟨b, hb, hfault⟩⟩
      · -- the walk goes on behind the branch
        have hstep : (Node.test branches).Follows options record b.child := .hit hb hhit
        rcases ih b hb.mem with ⟨v, hv⟩ | ⟨below, hbelow, hend⟩
        · exact .inl ⟨v, .head hstep hv⟩
        · exact .inr ⟨below, .head hstep hbelow, hend⟩
    · exact .inr ⟨branches, .refl, .inr hdecided⟩

end Node

/-! ### Trees -/

namespace DecisionTree

variable {t : DecisionTree}

theorem evaluate_of_no_top (h : t.top = none) :
    t.evaluate options record = .error .unattached := by
  simp only [evaluate, h]

theorem evaluate_of_endsWith {v : Value} (h : t.EndsWith options record v) :
    t.evaluate options record = .ok ⟨v, t.decisionType⟩ := by
  obtain ⟨top, n, htop, hreaches, rfl⟩ := h
  simp only [evaluate, htop, hreaches.decide_eq]
  rfl

theorem evaluate_of_endsAtFault {attr : AttrId} (h : t.EndsAtFault options record attr) :
    t.evaluate options record = .error (.unboundSlot attr) := by
  obtain ⟨top, n, htop, hreaches, branches, b, rfl, hb, hfault, rfl⟩ := h
  have hdecide : (Node.test branches).decide options record = .error (.unboundSlot b.attr) :=
    decideBranches_of_fault hb hfault
  simp only [evaluate, htop, hreaches.decide_eq, hdecide]
  rfl

theorem evaluate_of_endsUndecided (h : t.EndsUndecided options record) :
    t.evaluate options record = .error .noMatch := by
  obtain ⟨top, n, htop, hreaches, branches, rfl, hnone⟩ := h
  have hdecide : (Node.test branches).decide options record = .error .noMatch :=
    decideBranches_of_undecided hnone
  simp only [evaluate, htop, hreaches.decide_eq, hdecide]
  rfl

/-- A tree without a top has no walk, and each walk has one of three ends. -/
theorem end_cases (t : DecisionTree) (options : EvalOptions) (record : Record) :
    t.top = none ∨ (∃ v, t.EndsWith options record v) ∨
      (∃ attr, t.EndsAtFault options record attr) ∨ t.EndsUndecided options record := by
  rcases htop : t.top with _ | top
  · exact .inl rfl
  · right
    rcases top.exists_end options record with
      ⟨v, hv⟩ | ⟨branches, hreaches, ⟨b, hb, hfault⟩ | hnone⟩
    · exact .inl ⟨v, top, _, htop, hv, rfl⟩
    · exact .inr (.inl ⟨b.attr, top, _, htop, hreaches, branches, b, rfl, hb, hfault, rfl⟩)
    · exact .inr (.inr ⟨top, _, htop, hreaches, branches, rfl, hnone⟩)

/-- What evaluation returns tells where the walk ends. -/
theorem endsAs_evaluate (t : DecisionTree) (options : EvalOptions) (record : Record) :
    t.EndsAs options record (t.evaluate options record) := by
  rcases t.end_cases options record with htop | ⟨v, hv⟩ | ⟨attr, hattr⟩ | hnone
  · rw [evaluate_of_no_top htop]
    exact htop
  · rw [evaluate_of_endsWith hv]
    exact ⟨hv, rfl⟩
  · rw [evaluate_of_endsAtFault hattr]
    exact hattr
  · rw [evaluate_of_endsUndecided hnone]
    exact hnone

theorem evaluate_eq_iff_endsAs {outcome : Except EvalError Decision} :
    t.evaluate options record = outcome ↔ t.EndsAs options record outcome := by
  constructor
  · rintro rfl
    exact t.endsAs_evaluate options record
  · intro h
    rcases outcome with (_ | _ | attr) | ⟨v, type⟩
    · exact evaluate_of_endsUndecided h
    · exact evaluate_of_no_top h
    · exact evaluate_of_endsAtFault h
    · obtain ⟨hv, rfl⟩ := h
      exact evaluate_of_endsWith hv

/-- The ends of walks exclude each other. -/
theorem ends_exclusive (t : DecisionTree) (options : EvalOptions) (record : Record) :
    [t.top = none, ∃ v, t.EndsWith options record v, ∃ attr, t.EndsAtFault options record attr,
      t.EndsUndecided options record].Pairwise fun p q => ¬ (p ∧ q) := by
  simp only [List.pairwise_cons, List.mem_cons, List.not_mem_nil, forall_eq_or_imp, false_imp_iff,
    implies_true, or_false, forall_eq, and_true, List.Pairwise.nil]
  refine ⟨⟨?_, ?_, ?_⟩, ⟨?_, ?_⟩, ?_⟩
  · rintro ⟨htop, v, hv⟩
    cases (evaluate_of_no_top htop).symm.trans (evaluate_of_endsWith hv)
  · rintro ⟨htop, attr, hattr⟩
    cases (evaluate_of_no_top htop).symm.trans (evaluate_of_endsAtFault hattr)
  · rintro ⟨htop, hnone⟩
    cases (evaluate_of_no_top htop).symm.trans (evaluate_of_endsUndecided hnone)
  · rintro ⟨⟨v, hv⟩, attr, hattr⟩
    cases (evaluate_of_endsWith hv).symm.trans (evaluate_of_endsAtFault hattr)
  · rintro ⟨⟨v, hv⟩, hnone⟩
    cases (evaluate_of_endsWith hv).symm.trans (evaluate_of_endsUndecided hnone)
  · rintro ⟨⟨attr, hattr⟩, hnone⟩
    cases (evaluate_of_endsAtFault hattr).symm.trans (evaluate_of_endsUndecided hnone)

/-- **Evaluation is the first-match walk.**  It returns the value of the terminal where the
    walk ends, with the type of the tree's decisions, or the attribute of the fault that stops
    the walk, or that nothing decides at the test where it ends; a tree without a top is not
    walked at all.  Of these four cases there always is exactly one. -/
theorem evaluate_eq_walk (t : DecisionTree) (options : EvalOptions) (record : Record) :
    (t.evaluate options record = .error .unattached ↔ t.top = none) ∧
    (∀ d, t.evaluate options record = .ok d ↔
      t.EndsWith options record d.value ∧ d.type = t.decisionType) ∧
    (∀ attr, t.evaluate options record = .error (.unboundSlot attr) ↔
      t.EndsAtFault options record attr) ∧
    (t.evaluate options record = .error .noMatch ↔ t.EndsUndecided options record) ∧
    (t.top = none ∨ (∃ v, t.EndsWith options record v) ∨
      (∃ attr, t.EndsAtFault options record attr) ∨ t.EndsUndecided options record) ∧
    [t.top = none, ∃ v, t.EndsWith options record v, ∃ attr, t.EndsAtFault options record attr,
      t.EndsUndecided options record].Pairwise fun p q => ¬ (p ∧ q) := by
  refine ⟨?_, ?_, ?_, ?_, t.end_cases options record, t.ends_exclusive options record⟩
  · exact evaluate_eq_iff_endsAs
  · intro d
    exact evaluate_eq_iff_endsAs
  · intro attr
    exact evaluate_eq_iff_endsAs
  · exact evaluate_eq_iff_endsAs

end DecisionTree

end DecisionModel
