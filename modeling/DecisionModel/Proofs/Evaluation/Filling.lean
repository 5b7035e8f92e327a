import DecisionModel.Proofs.Evaluation.FirstMatch
import DecisionModel.Proofs.Evaluation.Safety
import DecisionModel.Proofs.TreeFile.Slots

/-!
# Filling in missing values

A record may lack values, and branches whose value it lacks are passed over.  With more values
an earlier branch could be taken in place of the one that decided.  In a tree that was read this
cannot happen: all branches of a test look at one slot, so that the record either has the value
for all of them or for none.
-/

namespace DecisionModel

/-- The second record has every value that the first one has. -/
def Record.FilledBy (record filled : Record) : Prop :=
  ∀ slot input, record slot = some input → filled slot = some input

variable {options : EvalOptions} {record filled : Record}

/-- Where all branches look at one slot and some branch says something, filling in values
    changes what none of them says. -/
theorem verdict_eq_of_filledBy (options : EvalOptions) (hfilled : record.FilledBy filled)
    {slot : Slot} {branches : List (Branch Node)} (hslot : ∀ b ∈ branches, b.slot = slot)
    {c : Branch Node} (hc : c ∈ branches) (hverdict : c.verdict options record ≠ .passOver) :
    ∀ b ∈ branches, b.verdict options filled = b.verdict options record := by
  intro b hb
  have hsame : b.slot = c.slot := by
    rw [hslot b hb, hslot c hc]
  by_cases hfault : c.IsFault
  · apply Branch.verdict_eq_of_unbound
    rw [hsame]
    exact hfault.2
  · by_cases hhit : c.IsHit options record
    · obtain ⟨t, input, -, -, hinput, -⟩ := hhit
      apply Branch.verdict_eq_of_value_eq
      rw [hsame, hinput]
      exact hfilled c.slot input hinput
    · exact absurd (Branch.verdict_eq_passOver_iff.mpr ⟨hfault, hhit⟩) hverdict

/-- **Filling in values does not change what a well-formed node decides**, if it decides at
    all. -/
theorem Node.WellFormed.decide_of_filledBy {s : Schema} {n : Node} (h : n.WellFormed s)
    (options : EvalOptions) (hfilled : record.FilledBy filled) :
    n.decide options record = .error .noMatch ∨
      n.decide options filled = n.decide options record := by
  induction h with
  | terminal => exact .inr rfl
  | @test a branches ha hlength hon hbelow ih =>
    have hslot : ∀ b ∈ branches, b.slot = a.slot := fun b hb => (hon b hb).slot_eq
    rcases decideBranches_cases options record branches with
      ⟨-, hnone⟩ | ⟨before, b, after, rfl, hbefore, hb⟩
    · exact .inl hnone
    · have hverdict : b.verdict options record ≠ .passOver := by
        rcases hb with ⟨htake, -⟩ | ⟨attr, hfault, -⟩
        · rw [htake]
          nofun
        · rw [hfault]
          nofun
      have hsame := verdict_eq_of_filledBy options hfilled hslot (c := b) (by simp) hverdict
      -- the same branch decides
      have hfirst : decideBranches options filled (before ++ b :: after) =
          decideBranches options filled (b :: after) := by
        apply decideBranches_append
        intro p hp
        rw [hsame p (by simp [hp]), hbefore p hp]
      rw [decideBranches_cons, hsame b (by simp)] at hfirst
      rcases hb with ⟨htake, hdecide⟩ | ⟨attr, hfault, hdecide⟩
      · rw [htake] at hfirst
        rcases ih b (by simp) with hnone | hkept
        · exact .inl (hdecide.trans hnone)
        · exact .inr (hfirst.trans (hkept.trans hdecide.symm))
      · rw [hfault] at hfirst
        exact .inr (hfirst.trans hdecide.symm)

theorem DecisionTree.WellFormed.evaluate_eq_of_filledBy {s : Schema} {tree : DecisionTree}
    (h : tree.WellFormed s) (options : EvalOptions) (hfilled : record.FilledBy filled) :
    tree.evaluate options record = .error .noMatch ∨
      tree.evaluate options filled = tree.evaluate options record := by
  obtain ⟨top, htop, hwf⟩ := h.top
  simp only [evaluate, htop]
  rcases hwf.decide_of_filledBy options hfilled with hnone | hkept
  · left
    rw [hnone]
    rfl
  · right
    rw [hkept]

/-- **Filling in missing values keeps every decision** of a tree that was read, and every
    attribute without a slot that stops its walk. -/
theorem evaluate_of_filledBy {origin schema : Schema}
    (source : origin.Built ∨ ∃ names, Names.parse names = .ok origin)
    (bound : origin.Rebound schema) {file : SourceFile} {tree : DecisionTree}
    (h : TreeFile.parse schema file = .ok tree) (options : EvalOptions) {record filled : Record}
    (hfilled : record.FilledBy filled) :
    (∀ d, tree.evaluate options record = .ok d → tree.evaluate options filled = .ok d) ∧
      ∀ attr, tree.evaluate options record = .error (.unboundSlot attr) →
        tree.evaluate options filled = .error (.unboundSlot attr) := by
  have horigin : origin.WellFormed := Names.wellFormed_of_source source
  have hwf : tree.WellFormed schema :=
    TreeFile.wellFormed_of_parse (bound.wellFormed horigin) h
  rcases hwf.evaluate_eq_of_filledBy options hfilled with hnone | hkept
  · -- nothing was decided
    constructor
    · intro d hd
      rw [hnone] at hd
      cases hd
    · intro attr hattr
      rw [hnone] at hattr
      cases hattr
  · rw [hkept]
    exact ⟨fun d hd => hd, fun attr hattr => hattr⟩

/-- A record with the value `mid` of `count` alone. -/
def countOnly : Record := .sparse [none, none, some (.integer 1)]

/-- The same with values of the other attributes. -/
def allFilled : Record := .dense [.integer 0, .text "loud", .integer 1]

open TreeFile in
/-- A record that decides a tree, and one that comes to an attribute without a slot. -/
theorem evaluate_policy_of_filledBy :
    Names.parse policyNames = .ok policySchema ∧
      policySchema.Rebound policySchema.bindById ∧ policySchema.Rebound partiallyBound ∧
      countOnly.FilledBy allFilled ∧
      TreeFile.parse policySchema.bindById policyTree = .ok (policy (.index 1) (.index 2)) ∧
      TreeFile.parse partiallyBound policyTree = .ok (policy (.index 7) .unbound) ∧
      (policy (.index 1) (.index 2)).evaluate ⟨.strict⟩ allFilled = .ok ⟨.integer 2, .integer⟩ ∧
      (policy (.index 7) .unbound).evaluate ⟨.strict⟩ allFilled = .error (.unboundSlot ⟨2⟩) := by
  have hbyId : policySchema.Rebound policySchema.bindById := .bindById .refl
  have hpartial : policySchema.Rebound partiallyBound := .bindSlot _ _ .refl
  have htree : TreeFile.parse policySchema.bindById policyTree =
      .ok (policy (.index 1) (.index 2)) := parse_policyTree hbyId
  have hfaulty : TreeFile.parse partiallyBound policyTree = .ok (policy (.index 7) .unbound) :=
    parse_policyTree hpartial
  have hfilled : countOnly.FilledBy allFilled := by
    intro slot input hinput
    rcases slot with _ | _ | _ | _ | n
    · cases hinput
    · cases hinput
    · cases hinput
    · exact hinput
    · simp [countOnly, Record.sparse] at hinput
  have hsource : policySchema.Built ∨ ∃ names, Names.parse names = .ok policySchema :=
    .inr ⟨policyNames, parse_policyNames⟩
  obtain ⟨hdecided, -⟩ := evaluate_of_filledBy hsource hbyId htree ⟨.strict⟩ hfilled
  obtain ⟨-, hstopped⟩ := evaluate_of_filledBy hsource hpartial hfaulty ⟨.strict⟩ hfilled
  exact ⟨parse_policyNames, hbyId, hpartial, hfilled, htree, hfaulty,
    hdecided ⟨.integer 2, .integer⟩ rfl, hstopped ⟨2⟩ rfl⟩

end DecisionModel
