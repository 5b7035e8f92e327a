import Mathlib.Data.List.Nodup
import Mathlib.Logic.Function.Basic
import DecisionModel.Proofs.Evaluation.Filling

/-!
# What evaluation sees of a record

A tree looks at a record only where one of its tested branches has a slot.  Two records that
agree there are evaluated alike, whatever they hold elsewhere, and whatever kind of record they
are: a list by slot, a list with gaps, a map from slots, or a function.
-/

namespace DecisionModel

/-! ### Records of different kinds -/

namespace Record

/-- The values that a list has, each with its slot. -/
def entries (values : List (Option Value)) : List (Slot × Value) :=
  (List.range values.length).filterMap fun i =>
    (sparse values (.index i)).map fun value => (.index i, value)

theorem mem_entries_iff {values : List (Option Value)} {slot : Slot} {value : Value} :
    (slot, value) ∈ entries values ↔ sparse values slot = some value := by
  simp only [entries, List.mem_filterMap, List.mem_range, Option.map_eq_some_iff, Prod.mk.injEq]
  constructor
  · rintro ⟨i, -, _, hi, rfl, rfl⟩
    exact hi
  · intro h
    cases slot with
    | unbound => cases h
    | index i =>
      refine ⟨i, ?_, value, h, rfl, rfl⟩
      by_contra hout
      have hnone : values[i]? = none := List.getElem?_eq_none (Nat.le_of_not_lt hout)
      simp only [sparse, hnone, Option.join_none, reduceCtorEq] at h

theorem nodup_slots_entries (values : List (Option Value)) :
    ((entries values).map (·.1)).Nodup := by
  rw [entries, List.map_filterMap]
  apply List.nodup_range.filterMap
  intro i j slot hi hj
  simp only [Option.mem_def, Option.map_map, Option.map_eq_some_iff, Function.comp_apply] at hi hj
  obtain ⟨-, -, rfl⟩ := hi
  obtain ⟨-, -, hslot⟩ := hj
  exact (Slot.index.inj hslot).symm

/-- **A map from slots is the list with gaps** that it was filled from, in whatever order. -/
theorem ofPairs_of_perm {values : List (Option Value)} {pairs : List (Slot × Value)}
    (h : pairs.Perm (entries values)) : ofPairs pairs = sparse values := by
  have hdistinct : (pairs.reverse.map (·.1)).Nodup := by
    rw [List.map_reverse, List.nodup_reverse]
    exact (h.map _).nodup_iff.mpr (nodup_slots_entries values)
  funext slot
  apply Option.ext
  intro value
  rw [ofPairs, lookup_eq_some_iff_mem hdistinct, List.mem_reverse, h.mem_iff, mem_entries_iff]

/-- A list without gaps. -/
theorem sparse_map_some (values : List Value) : sparse (values.map some) = dense values := by
  funext slot
  cases slot with
  | unbound => rfl
  | index i =>
    rw [sparse, List.getElem?_map, dense]
    cases values[i]? <;> rfl

end Record

/-! ### Evaluation -/

/-- Some branch of the tree tests what is at the slot. -/
def DecisionTree.TestsAt (t : DecisionTree) (slot : Slot) : Prop :=
  ∃ top b, t.top = some top ∧ top.HasBranch b ∧ b.test.isSome = true ∧ b.slot = slot

variable {record record' : Record}

/-- A branch looks at its slot only if that is bound, and the branch tests something. -/
theorem Branch.verdict_eq_of_agree {α : Type} {b : Branch α} {options : EvalOptions}
    (h : b.slot.isBound = true → b.test.isSome = true → record b.slot = record' b.slot) :
    b.verdict options record = b.verdict options record' := by
  by_cases hbound : b.slot.isBound = true
  · rcases htest : b.test with _ | t
    · simp only [verdict, DecisionModel.verdict, htest]
    · apply verdict_eq_of_value_eq
      exact h hbound (by rw [htest]; rfl)
  · exact verdict_eq_of_unbound (by simpa using hbound) record' record

theorem DecisionTree.evaluate_of_agree {t : DecisionTree} (options : EvalOptions)
    (h : ∀ slot, slot.isBound = true → t.TestsAt slot → record slot = record' slot) :
    t.evaluate options record = t.evaluate options record' := by
  apply evaluate_congr
  intro top b htop hb
  apply Branch.verdict_eq_of_agree
  intro hbound htest
  exact h b.slot hbound ⟨top, b, htop, hb, htest, rfl⟩

/-- **Evaluation sees of a record what is at the bound slots that the tree tests**, and nothing
    else.  So the values of a list can be given as any kind of record, and a function may answer
    anything where there is no slot; a list with gaps is evaluated as the map that lacks these
    slots; and what is put at a slot that no tested branch has changes no outcome. -/
theorem DecisionTree.evaluate_sees_tested_slots (t : DecisionTree) (options : EvalOptions) :
    (∀ record record' : Record,
      (∀ slot, slot.isBound = true → t.TestsAt slot → record slot = record' slot) →
      t.evaluate options record = t.evaluate options record') ∧
    (∀ (values : List Value) (pairs : List (Slot × Value)) (field : Record),
      pairs.Perm (Record.entries (values.map some)) → (∀ i, field (.index i) = values[i]?) →
      t.evaluate options (.sparse (values.map some)) = t.evaluate options (.dense values) ∧
      t.evaluate options (.ofPairs pairs) = t.evaluate options (.dense values) ∧
      t.evaluate options field = t.evaluate options (.dense values)) ∧
    (∀ (values : List (Option Value)) (pairs : List (Slot × Value)),
      pairs.Perm (Record.entries values) →
      t.evaluate options (.sparse values) = t.evaluate options (.ofPairs pairs)) ∧
    ∀ (record : Record) (slot : Slot) (held : Option Value),
      slot.isBound = false ∨ ¬ t.TestsAt slot →
      t.evaluate options (Function.update record slot held) = t.evaluate options record := by
  refine ⟨?_, ?_, ?_, ?_⟩
  · intro record record' h
    exact evaluate_of_agree options h
  · intro values pairs field hpairs hfield
    refine ⟨?_, ?_, ?_⟩
    · rw [Record.sparse_map_some]
    · rw [Record.ofPairs_of_perm hpairs, Record.sparse_map_some]
    · apply evaluate_of_agree
      intro slot hbound _
      cases slot with
      | unbound => cases hbound
      | index i => exact hfield i
  · intro values pairs hpairs
    rw [Record.ofPairs_of_perm hpairs]
  · intro record slot held hunseen
    apply evaluate_of_agree
    intro tested hbound htests
    apply Function.update_of_ne
    rintro rfl
    rcases hunseen with hunbound | huntested
    · rw [hbound] at hunbound
      cases hunbound
    · exact huntested htests

/-- The policy tests its count only. -/
theorem TreeFile.eq_of_testsAt_policy {level count slot : Slot}
    (h : (policy level count).TestsAt slot) : slot = count := by
  obtain ⟨top, b, htop, hb, htest, rfl⟩ := h
  cases htop
  cases hb with
  | here hmem =>
    simp only [List.mem_cons, List.not_mem_nil, or_false] at hmem
    rcases hmem with rfl | rfl
    · rfl
    · rfl
  | behind hmem hb =>
    simp only [List.mem_cons, List.not_mem_nil, or_false] at hmem
    rcases hmem with rfl | rfl
    · cases hb with
      | here hlevel =>
        rw [List.mem_singleton] at hlevel
        subst hlevel
        cases htest
      | behind hlevel hbelow =>
        rw [List.mem_singleton] at hlevel
        subst hlevel
        cases hbelow
    · cases hb with
      | here hcount =>
        simp only [List.mem_cons, List.not_mem_nil, or_false] at hcount
        rcases hcount with rfl | rfl
        · rfl
        · rfl
      | behind hcount hbelow =>
        simp only [List.mem_cons, List.not_mem_nil, or_false] at hcount
        rcases hcount with rfl | rfl
        · cases hbelow
        · cases hbelow

/-- The values of `allFilled`, in another order. -/
def filledPairs : List (Slot × Value) :=
  [(.index 2, .integer 1), (.index 0, .integer 0), (.index 1, .text "loud")]

/-- The values of `allFilled`, and a value for attributes that have no slot. -/
def filledFields : Record
  | .index i => [Value.integer 0, .text "loud", .integer 1][i]?
  | .unbound => some (.text "lost")

open TreeFile in
theorem evaluate_policy_sees_count :
    (∀ slot, slot.isBound = true → (policy (.index 1) (.index 2)).TestsAt slot →
      countOnly slot = filledFields slot) ∧
    filledPairs.Perm (Record.entries [some (.integer 0), some (.text "loud"), some (.integer 1)]) ∧
    (policy (.index 1) (.index 2)).evaluate ⟨.strict⟩ countOnly =
      (policy (.index 1) (.index 2)).evaluate ⟨.strict⟩ filledFields ∧
    (policy (.index 1) (.index 2)).evaluate ⟨.strict⟩ (.ofPairs filledPairs) =
      .ok ⟨.integer 2, .integer⟩ ∧
    (policy (.index 1) (.index 2)).evaluate ⟨.strict⟩ filledFields =
      .ok ⟨.integer 2, .integer⟩ ∧
    (policy (.index 1) (.index 2)).evaluate ⟨.strict⟩ (.ofPairs [(.index 2, .integer 1)]) =
      .ok ⟨.integer 2, .integer⟩ ∧
    (policy (.index 1) (.index 2)).evaluate ⟨.strict⟩
      (Function.update allFilled (.index 1) (some (.integer 9))) = .ok ⟨.integer 2, .integer⟩ := by
  have hagree : ∀ slot, slot.isBound = true → (policy (.index 1) (.index 2)).TestsAt slot →
      countOnly slot = filledFields slot := by
    intro slot _ htests
    rw [eq_of_testsAt_policy htests]
    rfl
  have hpairs : filledPairs.Perm
      (Record.entries [some (.integer 0), some (.text "loud"), some (.integer 1)]) := by decide
  have hcount : [(Slot.index 2, Value.integer 1)].Perm
      (Record.entries [none, none, some (.integer 1)]) := by decide
  have huntested : ¬ (policy (.index 1) (.index 2)).TestsAt (.index 1) := by
    intro htests
    cases eq_of_testsAt_policy htests
  obtain ⟨hsame, hkinds, hgaps, hunseen⟩ :=
    (policy (.index 1) (.index 2)).evaluate_sees_tested_slots ⟨.strict⟩
  obtain ⟨-, hmap, hfields⟩ := hkinds [.integer 0, .text "loud", .integer 1] filledPairs
    filledFields hpairs (fun _ => rfl)
  exact ⟨hagree, hpairs, hsame _ _ hagree, hmap.trans rfl, hfields.trans rfl,
    (hgaps _ _ hcount).symm.trans rfl, (hunseen allFilled _ _ (.inr huntested)).trans rfl⟩

end DecisionModel
