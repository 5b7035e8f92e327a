import Mathlib
import DecisionModel.Proofs.Evaluation.Walk
import DecisionModel.Proofs.Tree.Paths
import DecisionModel.Proofs.TreeFile.Asked
import DecisionModel.Proofs.TreeFile.Slots

/-!
# The order of branches

The first branch that matches decides, so branches cannot be reordered in general.  They can be
where the sets of codes that they test for have no code in common: then at most one of them matches,
whatever the input is.  All branches of a node are on one attribute, so those that test something
are faults all at once, and the same fault.

A tree whose nodes are reordered in this way, at any of them, decides what it decided before.
-/

namespace DecisionModel

/-! ### Reordered trees -/

/-- The tests of two branches, if they have tests, have no code in common. -/
def TestsApart (t u : Option Test) : Prop :=
  ∀ x ∈ t, ∀ y ∈ u, ∀ codes others, x.Codes codes → y.Codes others → codes.Disjoint others

/-- The tested branches have pairwise disjoint sets of codes. -/
def SetsApart {α : Type} (branches : List (Branch α)) : Prop :=
  (branches.map (·.test)).Pairwise TestsApart

/-- The branches of one node, with disjoint sets of codes, stand in another order. -/
inductive Node.Permuted : Node → Node → Prop
  | here {branches others : List (Branch Node)} : SetsApart branches → branches.Perm others →
      Permuted (.test branches) (.test others)
  | beneath {before after : List (Branch Node)} {b : Branch Node} {child : Node} :
      Permuted b.child child →
      Permuted (.test (before ++ b :: after)) (.test (before ++ { b with child := child } :: after))

/-- The branches of any number of nodes stand in another order. -/
def Node.Reordered : Node → Node → Prop := Relation.ReflTransGen Node.Permuted

/-- The other tree has the same nodes, some of them with their branches in another order. -/
def DecisionTree.Reordered (tree other : DecisionTree) : Prop :=
  ∃ top top', tree.top = some top ∧ top.Reordered top' ∧ other = { tree with top := some top' }

/-! ### Nodes on one attribute -/

/-- The branch is on the attribute at the slot, and if it tests anything, it tests for codes. -/
structure Branch.TestsCodes {α : Type} (attr : AttrId) (slot : Slot) (b : Branch α) : Prop where
  attr_eq : b.attr = attr
  slot_eq : b.slot = slot
  codes : ∀ t, b.test = some t → ∃ codes, t.Codes codes

/-- Every test is on one attribute, and for codes of it. -/
inductive Node.Uniform : Node → Prop
  | terminal (v : Value) : Uniform (.terminal v)
  | test {attr : AttrId} {slot : Slot} {branches : List (Branch Node)} :
      (∀ b ∈ branches, b.TestsCodes attr slot) → (∀ b ∈ branches, Uniform b.child) →
      Uniform (.test branches)

/-- What is reordered is on the same attributes. -/
theorem Node.Permuted.uniform {n n' : Node} (h : n.Permuted n') (hn : n.Uniform) :
    n'.Uniform := by
  induction h with
  | here _ hperm =>
    obtain _ | ⟨hon, hbelow⟩ := hn
    exact .test (fun b hb => hon b (hperm.mem_iff.mpr hb))
      fun b hb => hbelow b (hperm.mem_iff.mpr hb)
  | @beneath before after b child _ ih =>
    obtain _ | @⟨attr, slot, _, hon, hbelow⟩ := hn
    have hb : b ∈ before ++ b :: after := by simp
    have hmem : ∀ c ∈ before ++ { b with child := child } :: after,
        c = { b with child := child } ∨ c ∈ before ++ b :: after := by
      intro c hc
      simp only [List.mem_append, List.mem_cons] at hc ⊢
      tauto
    refine @Node.Uniform.test attr slot _ (fun c hc => ?_) fun c hc => ?_
    · rcases hmem c hc with rfl | hold
      · exact ⟨(hon b hb).attr_eq, (hon b hb).slot_eq, (hon b hb).codes⟩
      · exact hon c hold
    · rcases hmem c hc with rfl | hold
      · exact ih (hbelow b hb)
      · exact hbelow c hold

/-! ### Inputs and codes -/

/-- The code that an input stands for: integers do, and unsigned values do for masks. -/
def Value.code? : Value → Option Int
  | .integer n => some n
  | .unsigned n => some n
  | _ => none

/-- Whatever form a test for codes has, what passes it stands for one of its codes. -/
theorem Test.Codes.exists_code {t : Test} {codes : List Int} (h : t.Codes codes)
    {options : EvalOptions} {input : Value} (hpasses : t.passes options input = true) :
    ∃ code ∈ codes, input.code? = some code := by
  cases h with
  | eq code =>
    rw [TreeFile.passes_eq_integer_iff] at hpasses
    subst hpasses
    exact ⟨code, by simp, rfl⟩
  | mask m =>
    rcases input with ⟨n | n | x | s⟩ | m' | a
    · exact ⟨n, Bitmask.mem_codes_iff.mpr hpasses, rfl⟩
    · exact ⟨n, Bitmask.mem_codes_iff.mpr hpasses, rfl⟩
    all_goals simp [Test.passes, Bitmask.holds] at hpasses
  | array codes =>
    obtain ⟨code, hcode, rfl⟩ := (TreeFile.passes_array_iff codes options input).mp hpasses
    exact ⟨code, hcode, rfl⟩

/-- No input passes two tests without a common code. -/
theorem Test.Codes.not_both_pass {t u : Test} {codes others : List Int} (ht : t.Codes codes)
    (hu : u.Codes others) (hdisjoint : codes.Disjoint others) {options : EvalOptions}
    {input : Value} (hpasses : t.passes options input = true) : u.passes options input = false := by
  by_contra hboth
  obtain ⟨code, hcode, hinput⟩ := ht.exists_code hpasses
  obtain ⟨other, hother, hinput'⟩ := hu.exists_code (by simpa using hboth)
  obtain rfl : code = other := Option.some.inj (hinput.symm.trans hinput')
  exact hdisjoint hcode hother

/-! ### One node -/

section

variable {options : EvalOptions} {record : Record}

/-- Of two branches one is passed over, or both are the same fault. -/
def Branch.Agrees (options : EvalOptions) (record : Record) (b c : Branch Node) : Prop :=
  b.verdict options record = .passOver ∨ c.verdict options record = .passOver ∨
    ∃ attr, b.verdict options record = .fault attr ∧ c.verdict options record = .fault attr

theorem Branch.Agrees.symm {b c : Branch Node} (h : b.Agrees options record c) :
    c.Agrees options record b := by
  rcases h with hb | hc | ⟨attr, hb, hc⟩
  · exact .inr (.inl hb)
  · exact .inl hc
  · exact .inr (.inr ⟨attr, hc, hb⟩)

/-- Branches that agree decide the same in any order. -/
theorem decideBranches_perm {branches others : List (Branch Node)} (h : branches.Perm others)
    (agree : branches.Pairwise (Branch.Agrees options record)) :
    decideBranches options record branches = decideBranches options record others := by
  induction h with
  | nil => rfl
  | cons b _ ih =>
    rw [decideBranches_cons, decideBranches_cons, ih (List.pairwise_cons.mp agree).2]
  | swap b c rest =>
    have hagree : c.Agrees options record b := (List.pairwise_cons.mp agree).1 b (by simp)
    simp only [decideBranches_cons]
    rcases hagree with hc | hb | ⟨attr, hc, hb⟩
    · simp only [hc]
    · simp only [hb]
    · simp only [hb, hc]
  | trans hfirst _ ih ih' =>
    apply (ih agree).trans
    apply ih'
    exact (hfirst.pairwise_iff Branch.Agrees.symm).mp agree

/-- A branch that is replaced by one that says and decides the same does not matter. -/
theorem decideBranches_replace {b c : Branch Node}
    (hverdict : c.verdict options record = b.verdict options record)
    (hchild : c.child.decide options record = b.child.decide options record)
    (before after : List (Branch Node)) :
    decideBranches options record (before ++ c :: after) =
      decideBranches options record (before ++ b :: after) := by
  induction before with
  | nil => rw [List.nil_append, List.nil_append, decideBranches_cons, decideBranches_cons, hverdict,
      hchild]
  | cons p before ih =>
    rw [List.cons_append, List.cons_append, decideBranches_cons, decideBranches_cons, ih]

/-- Branches on one attribute agree if their tests have no code in common. -/
theorem Branch.TestsCodes.agrees {attr : AttrId} {slot : Slot} {b c : Branch Node}
    (hb : b.TestsCodes attr slot) (hc : c.TestsCodes attr slot) (hapart : TestsApart b.test c.test)
    (options : EvalOptions) (record : Record) : b.Agrees options record c := by
  obtain ⟨battr, bslot, btest, bchild⟩ := b
  obtain ⟨cattr, cslot, ctest, cchild⟩ := c
  obtain ⟨rfl, rfl, hbcodes⟩ := hb
  obtain ⟨hattr, hslot, hccodes⟩ := hc
  dsimp only at hattr hslot hapart hbcodes hccodes
  subst hattr hslot
  rcases btest with _ | t
  · exact .inl rfl
  · rcases ctest with _ | u
    · exact .inr (.inl rfl)
    · simp only [Branch.Agrees, Branch.verdict, DecisionModel.verdict]
      by_cases hbound : cslot.isBound = true
      · rcases hinput : record cslot with _ | input
        · exact .inl (by simp [hbound])
        · by_cases hpasses : t.passes options input = true
          · obtain ⟨codes, hcodes⟩ := hbcodes t rfl
            obtain ⟨others, hothers⟩ := hccodes u rfl
            have hdisjoint := hapart t rfl u rfl codes others hcodes hothers
            have hfails := hcodes.not_both_pass hothers hdisjoint hpasses
            exact .inr (.inl (by simp [hbound, hfails]))
          · exact .inl (by simp [hbound, hpasses])
      · exact .inr (.inr ⟨cattr, by simp [hbound], by simp [hbound]⟩)

end

/-! ### Trees -/

/-- **One node's branches in another order** decide the same. -/
theorem Node.Permuted.decide_eq {n n' : Node} (h : n.Permuted n') (hn : n.Uniform)
    (options : EvalOptions) (record : Record) :
    n'.decide options record = n.decide options record := by
  induction h with
  | @here branches others hapart hperm =>
    obtain _ | ⟨hon, -⟩ := hn
    have hagree : branches.Pairwise (Branch.Agrees options record) := by
      rw [SetsApart, List.pairwise_map] at hapart
      apply hapart.imp_of_mem
      intro b c hb hc hdisjoint
      exact (hon b hb).agrees (hon c hc) hdisjoint options record
    exact (decideBranches_perm hperm hagree).symm
  | @beneath before after b child _ ih =>
    obtain _ | ⟨-, hbelow⟩ := hn
    exact decideBranches_replace (b := b) (c := { b with child := child }) rfl
      (ih (hbelow b (by simp))) before after

/-- **Any number of nodes in another order** decide the same. -/
theorem Node.Reordered.decide_eq {n n' : Node} (h : n.Reordered n') (hn : n.Uniform)
    (options : EvalOptions) (record : Record) :
    n'.decide options record = n.decide options record := by
  have hboth : n'.Uniform ∧ n'.decide options record = n.decide options record := by
    induction h with
    | refl => exact ⟨hn, rfl⟩
    | tail _ hstep ih =>
      obtain ⟨huniform, hdecide⟩ := ih
      exact ⟨hstep.uniform huniform, (hstep.decide_eq huniform options record).trans hdecide⟩
  exact hboth.2

theorem DecisionTree.Reordered.evaluate_eq {tree other : DecisionTree} (h : tree.Reordered other)
    (huniform : ∀ top, tree.top = some top → top.Uniform) (options : EvalOptions)
    (record : Record) : other.evaluate options record = tree.evaluate options record := by
  obtain ⟨top, top', htop, hreordered, rfl⟩ := h
  have hdecide := hreordered.decide_eq (huniform top htop) options record
  simp only [evaluate, htop, hdecide]

namespace TreeFile

/-! ### Trees that are read -/

theorem testsCodes_branch (a : Attribute) {t : Option Test}
    (h : ∀ x, t = some x → ∃ codes, x.Codes codes) :
    (a.branch t () : Branch Unit).TestsCodes a.id a.slot :=
  ⟨rfl, rfl, h⟩

/-- The branches of a test are on its attribute. -/
theorem Opens.testsCodes {head : Head} {opening : List Use} {branches : List (Branch Unit)}
    (h : Opens head opening branches) :
    ∃ attr slot, ∀ b ∈ branches, b.TestsCodes attr slot := by
  have hsets : ∀ (a : Attribute) (sets : List (List Int)), ∀ b ∈ subsetBranches a sets,
      b.TestsCodes a.id a.slot := by
    intro a sets b hb
    obtain ⟨codes, -, rfl⟩ := List.mem_map.mp hb
    apply testsCodes_branch
    rintro x ⟨⟩
    obtain ⟨shown, hshown, -⟩ := exists_codes_subsetTest codes
    exact ⟨shown, hshown⟩
  cases h with
  | @values a forks =>
    refine ⟨a.id, a.slot, fun b hb => ?_⟩
    obtain ⟨⟨value, code⟩, -, rfl⟩ := List.mem_map.mp hb
    apply testsCodes_branch
    rintro x ⟨⟩
    exact ⟨[code], .eq code⟩
  | threshold a forks =>
    refine ⟨a.id, a.slot, fun b hb => ?_⟩
    rw [List.eq_of_mem_replicate hb]
    exact testsCodes_branch a nofun
  | inlineSets a sets => exact ⟨a.id, a.slot, hsets a sets⟩
  | @followingSets a uses sets => exact ⟨a.id, a.slot, hsets a sets⟩

theorem Lists.uniform {uses : List Use} {nodes : List Node} (h : Lists uses nodes) :
    ∀ n ∈ nodes, n.Uniform := by
  induction h with
  | nil => simp
  | blank _ ih => exact ih
  | leaf code _ ih => exact List.forall_mem_cons.mpr ⟨.terminal _, ih⟩
  | @test head opening uses branches kids nodes hopens hkids _ ih =>
    obtain ⟨attr, slot, hbranches⟩ := hopens.testsCodes
    have hmade : ∀ b ∈ List.zipWith withChild branches kids,
        b.TestsCodes attr slot ∧ b.child ∈ kids := by
      intro b hb
      obtain ⟨i, hi⟩ := List.mem_iff_getElem?.mp hb
      obtain ⟨fork, kid, hfork, hkid, rfl⟩ := List.getElem?_zipWith_eq_some.mp hi
      have hcodes := hbranches fork (List.mem_of_getElem? hfork)
      exact ⟨⟨hcodes.attr_eq, hcodes.slot_eq, hcodes.codes⟩, List.mem_of_getElem? hkid⟩
    refine List.forall_mem_cons.mpr ⟨.test (fun b hb => (hmade b hb).1) fun b hb => ?_, ?_⟩
    · exact ih _ (by simp [(hmade b hb).2])
    · exact fun n hn => ih n (by simp [hn])

/-- All nodes of a tree that was read are on one attribute each. -/
theorem uniform_of_parse {schema : Schema} {file : SourceFile} {tree : DecisionTree}
    (h : parse schema file = .ok tree) : ∀ top, tree.top = some top → top.Uniform := by
  obtain ⟨top, -, uses, rfl, -, hlists, -⟩ := (parse_uses_all_lines schema file).2.2 tree h
  rintro top' ⟨⟩
  exact hlists.uniform top (by simp)

/-! ### Tests of values -/

/-- Where each value has a code of its own, a test of each value has disjoint sets. -/
theorem setsApart_valueBranches {a : Attribute} (ha : (a.values.map (·.2)).Nodup) (count : Nat) :
    SetsApart (valueBranches a count) := by
  have hsorted : (a.sortedValues.map (·.2)).Nodup := by
    apply ((List.mergeSort_perm a.values _).map _).nodup_iff.mpr
    exact ha
  rw [SetsApart, valueBranches, List.map_map, List.pairwise_map]
  apply ((List.pairwise_map.mp hsorted).sublist (List.take_sublist count _)).imp
  rintro ⟨_, code⟩ ⟨_, other⟩ hne _ ⟨⟩ _ ⟨⟩ _ _ ⟨⟩ ⟨⟩
  simpa [eq_comm] using hne

theorem setsApart_zipWith {branches : List (Branch Unit)} (h : SetsApart branches)
    {kids : List Node} (hkids : kids.length = branches.length) :
    SetsApart (List.zipWith withChild branches kids) := by
  have htests : (List.zipWith withChild branches kids).map (·.test) = branches.map (·.test) := by
    apply List.ext_getElem
    · simp [hkids]
    · simp [withChild]
  rwa [SetsApart, htests]

theorem Head.Describes.setsApart {a : Attribute} {forks : Nat} {n : Node}
    (h : (Head.values a forks).Describes n) (ha : (a.values.map (·.2)).Nodup) :
    SetsApart n.branches := by
  obtain _ | ⟨hopens, hkids⟩ := h
  cases hopens with
  | values => exact setsApart_zipWith (setsApart_valueBranches ha _) hkids

/-! ### Reading, then reordering -/

/-- **Branches matter in order only where their sets overlap.**  Whatever branches of a tree that
    was read are put in another order, at nodes whose tests are for disjoint sets of codes, the
    outcome is the same for all records and options.

    Over a schema from text all nodes that test each value by itself are such nodes: those whose
    record says so, of the records that list the tree in preorder. -/
theorem evaluate_of_reordered {schema : Schema} {file : SourceFile} {tree : DecisionTree}
    (h : parse schema file = .ok tree) :
    (∀ other, tree.Reordered other → ∀ options record,
      other.evaluate options record = tree.evaluate options record) ∧
    ∀ names origin, Names.parse names = .ok origin → origin.Rebound schema →
      ∃ top heading uses, tree = .withTop schema top ∧ IsHeading heading ∧ Lists uses [top] ∧
        List.Forall₂ (LineUsedAs schema) (Line.ofText file.content.toList) (heading ++ uses) ∧
        List.Forall₂ (fun head n => head.Describes n ∧
            ∀ a forks, head = .values a forks → SetsApart n.branches)
          ((heading ++ uses).filterMap Use.head?) top.preorder := by
  constructor
  · intro other hreordered options record
    exact hreordered.evaluate_eq (uniform_of_parse h) options record
  · intro names origin hread bound
    have hwf : schema.WellFormed := bound.wellFormed (Names.built_of_parse hread).wellFormed
    have hdense : schema.Dense := bound.dense (Names.dense_of_parse hread)
    obtain ⟨top, heading, uses, htree, hheading, hlists, hused, hheads, -⟩ :=
      (parse_uses_all_lines schema file).2.2 tree h
    refine ⟨top, heading, uses, htree, hheading, hlists, hused, ?_⟩
    have hsound : ∀ head ∈ (heading ++ uses).filterMap Use.head?, (Use.node head).Sound schema := by
      intro head hhead
      obtain ⟨use, huse, hof⟩ := List.mem_filterMap.mp hhead
      obtain rfl : use = .node head := by cases use <;> simp_all [Use.head?]
      exact uses_sound hwf hused _ huse
    apply ((List.forall₂_and_left _ _).mpr ⟨hsound, hheads⟩).imp
    rintro head n ⟨hknown, hdescribes⟩
    refine ⟨hdescribes, ?_⟩
    rintro a forks rfl
    have ha : a ∈ schema.attributes := List.mem_of_getElem? hknown
    exact hdescribes.setsApart (hdense a ha).codes_distinct

/-- `policy` with the branches of both tests of `count` in another order. -/
def policyReordered (level count : Slot) : DecisionTree where
  name := "state"
  decisionType := .integer
  top := some <| .test
    [⟨⟨2⟩, count, some ⟨.within, .mask ⟨6⟩⟩, .test
        [⟨⟨2⟩, count, some ⟨.eq, .integer 1⟩, .terminal (.integer 2)⟩,
          ⟨⟨2⟩, count, some ⟨.eq, .integer 0⟩, .terminal (.integer 1)⟩]⟩,
      ⟨⟨2⟩, count, some ⟨.eq, .integer 0⟩, .test [⟨⟨1⟩, level, none, .terminal (.integer 0)⟩]⟩]

theorem policy_reordered (level count : Slot) :
    (policy level count).Reordered (policyReordered level count) := by
  refine ⟨_, _, rfl, ?_, rfl⟩
  have hvalues : Node.Permuted
      (.test [⟨⟨2⟩, count, some ⟨.eq, .integer 0⟩, .terminal (.integer 1)⟩,
        ⟨⟨2⟩, count, some ⟨.eq, .integer 1⟩, .terminal (.integer 2)⟩])
      (.test [⟨⟨2⟩, count, some ⟨.eq, .integer 1⟩, .terminal (.integer 2)⟩,
        ⟨⟨2⟩, count, some ⟨.eq, .integer 0⟩, .terminal (.integer 1)⟩]) := by
    apply Node.Permuted.here
    · simp only [SetsApart, List.map_cons, List.map_nil, List.pairwise_pair]
      rintro _ ⟨⟩ _ ⟨⟩ _ _ ⟨⟩ ⟨⟩
      simp
    · exact .swap _ _ []
  have hmask : (⟨6⟩ : Bitmask).codes = [1, 2] := by decide
  have hapart : List.Disjoint (⟨6⟩ : Bitmask).codes [0] := by
    rw [hmask]
    simp
  apply Relation.ReflTransGen.head (@Node.Permuted.beneath [_] _ _ _ hvalues)
  apply Relation.ReflTransGen.single
  apply Node.Permuted.here _ (.swap _ _ [])
  simp only [SetsApart, List.map_cons, List.map_nil, List.pairwise_pair]
  rintro _ ⟨⟩ _ ⟨⟩ _ _ ⟨⟩ ⟨⟩
  exact hapart.symm

theorem evaluate_policyReordered :
    Names.parse policyNames = .ok policySchema ∧ policySchema.Rebound policySchema.bindById ∧
      parse policySchema.bindById policyTree = .ok (policy (.index 1) (.index 2)) ∧
      (policy (.index 1) (.index 2)).Reordered (policyReordered (.index 1) (.index 2)) ∧
      (∀ options record, (policyReordered (.index 1) (.index 2)).evaluate options record =
        (policy (.index 1) (.index 2)).evaluate options record) ∧
      ∃ top heading uses, policy (.index 1) (.index 2) = .withTop policySchema.bindById top ∧
        IsHeading heading ∧ Lists uses [top] ∧
        List.Forall₂ (LineUsedAs policySchema.bindById) (Line.ofText policyTree.content.toList)
          (heading ++ uses) ∧
        List.Forall₂ (fun head n => head.Describes n ∧
            ∀ a forks, head = .values a forks → SetsApart n.branches)
          ((heading ++ uses).filterMap Use.head?) top.preorder := by
  have hbound : policySchema.Rebound policySchema.bindById := .bindById .refl
  have htree : parse policySchema.bindById policyTree = .ok (policy (.index 1) (.index 2)) :=
    parse_policyTree hbound
  obtain ⟨hsame, hapart⟩ := evaluate_of_reordered htree
  exact ⟨parse_policyNames, hbound, htree, policy_reordered _ _, hsame _ (policy_reordered _ _),
    hapart _ _ parse_policyNames hbound⟩

end TreeFile

end DecisionModel
