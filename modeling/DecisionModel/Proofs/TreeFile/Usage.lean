import DecisionModel.Tree.Stats
import DecisionModel.Proofs.TreeFile.Descent
import DecisionModel.Proofs.TreeFile.WellFormed

/-!
# What each line is for

In text that is read as a tree every line has one use.  In front of the nodes stand lines that
say something about the whole file.  Then each node has a record, each test before the nodes
behind its branches.  Right behind the record of a test on values stands its placeholder, and
behind that of a test on sets the sets that are not on the record.  All other lines are blank.

So the records of nodes list the tree in preorder, and the lines that are not blank can be
counted from the size of the tree.
-/

namespace DecisionModel

/-! ### Nodes in preorder -/

mutual

/-- All nodes from this one on, each before those behind its branches. -/
def Node.preorder : Node → List Node
  | .terminal v => [.terminal v]
  | .test branches => .test branches :: preorderOfBranches branches
termination_by structural n => n

def preorderOfBranches : List (Branch Node) → List Node
  | [] => []
  | ⟨_, _, _, child⟩ :: rest => child.preorder ++ preorderOfBranches rest
termination_by structural branches => branches

end

/-- Every node is a test or a terminal. -/
theorem Node.length_preorder (n : Node) :
    n.preorder.length = n.stats.tests + n.stats.terminals := by
  apply induct_branches (p := fun n => n.preorder.length = n.stats.tests + n.stats.terminals)
    (q := fun bs => (preorderOfBranches bs).length =
      (statsOfBranches bs).tests + (statsOfBranches bs).terminals)
  · intro v
    rfl
  · intro bs hbelow
    simp only [preorder, stats, List.length_cons, hbelow]
    omega
  · rfl
  · rintro ⟨attr, slot, test, child⟩ rest hchild hrest
    simp only [preorderOfBranches, statsOfBranches, TreeStats.beside, List.length_append, hchild,
      hrest]
    omega

namespace TreeFile

theorem preorderOfBranches_zipWith (branches : List (Branch Unit)) :
    ∀ kids : List Node, kids.length = branches.length →
      preorderOfBranches (List.zipWith withChild branches kids) = kids.flatMap Node.preorder := by
  induction branches with
  | nil =>
    intro kids hkids
    obtain rfl := List.length_eq_zero_iff.mp hkids
    rfl
  | cons b later ih =>
    intro kids hkids
    cases kids with
    | nil => cases hkids
    | cons kid kids =>
      simp only [List.length_cons, Nat.add_right_cancel_iff] at hkids
      simp only [List.zipWith_cons_cons, withChild, preorderOfBranches, List.flatMap_cons,
        ih kids hkids]

/-! ### Uses -/

/-- What the record of a node says of it. -/
inductive Head where
  | leaf (code : Int)
  | values (a : Attribute) (forks : Nat)
  | threshold (a : Attribute) (forks : Nat)
  | inlineSets (a : Attribute) (sets : List (List Int))
  /-- The sets are on the lines that follow. -/
  | followingSets (a : Attribute) (forks : Nat)
  deriving DecidableEq, Repr

/-- What a line is for. -/
inductive Use where
  /-- Nothing: it is blank. -/
  | blank
  /-- It says something about the whole file. -/
  | header
  | node (head : Head)
  /-- A placeholder that is blank. -/
  | blankPlaceholder
  /-- A placeholder with the record of a terminal. -/
  | leafPlaceholder
  /-- A set of codes of the attribute. -/
  | set (a : Attribute) (codes : List Int)
  deriving DecidableEq, Repr

namespace Use

def isBlank : Use → Bool
  | .blank | .blankPlaceholder => true
  | _ => false

def isSet : Use → Bool
  | .set .. => true
  | _ => false

def head? : Use → Option Head
  | .node head => some head
  | _ => none

end Use

/-- The record describes a node so. -/
inductive Record.Says (schema : Schema) (r : Record) : Head → Prop
  | leaf {code : Int} : r.nodeType = .ok .leaf →
      r.terminal schema = .ok (.terminal (.integer code)) → Says schema r (.leaf code)
  | values {a : Attribute} {forks : Nat} : r.nodeType = .ok .values → r.tested schema = .ok a →
      r.forks = .ok forks → Says schema r (.values a forks)
  | threshold {a : Attribute} {forks : Nat} : r.nodeType = .ok .threshold →
      r.tested schema = .ok a → r.forks = .ok forks → Says schema r (.threshold a forks)
  | inlineSets {a : Attribute} {sets : List (List Int)} : r.nodeType = .ok .subsets →
      r.tested schema = .ok a → r.forks = .ok sets.length → r.fieldsNamed "elts" ≠ [] →
      (r.fieldsNamed "elts").mapM (·.codes a) = .ok sets → Says schema r (.inlineSets a sets)
  | followingSets {a : Attribute} {forks : Nat} : r.nodeType = .ok .subsets →
      r.tested schema = .ok a → r.forks = .ok forks → r.fieldsNamed "elts" = [] →
      Says schema r (.followingSets a forks)

/-- The record may be used so. -/
inductive Record.UsedAs (schema : Schema) (r : Record) : Use → Prop
  | header : State.isHeader r = .ok true → UsedAs schema r .header
  | node {head : Head} : r.Says schema head → UsedAs schema r (.node head)
  | leafPlaceholder : r.nodeType = .ok .leaf → UsedAs schema r .leafPlaceholder
  | set {a : Attribute} {field : Field} {codes : List Int} : r.required "elts" = .ok field →
      field.codes a = .ok codes → UsedAs schema r (.set a codes)

/-- The line may be used so. -/
inductive LineUsedAs (schema : Schema) (l : Line) : Use → Prop
  | blank : l.isBlank = true → LineUsedAs schema l .blank
  | blankPlaceholder : l.isBlank = true → LineUsedAs schema l .blankPlaceholder
  | record {r : Record} {use : Use} : l.isBlank = false → Record.parse l = .ok r →
      r.UsedAs schema use → LineUsedAs schema l use

/-! ### Orders of uses -/

/-- The uses are for the sets, each on a line of its own. -/
inductive ListsSets (a : Attribute) : List Use → List (List Int) → Prop
  | nil : ListsSets a [] []
  | blank {uses : List Use} {sets : List (List Int)} : ListsSets a uses sets →
      ListsSets a (.blank :: uses) sets
  | set (codes : List Int) {uses : List Use} {sets : List (List Int)} : ListsSets a uses sets →
      ListsSets a (.set a codes :: uses) (codes :: sets)

/-- The uses stand between the record of a test and the nodes behind its branches. -/
inductive Opens : Head → List Use → List (Branch Unit) → Prop
  | values {a : Attribute} {forks : Nat} {placeholder : Use} :
      placeholder = .blankPlaceholder ∨ placeholder = .leafPlaceholder →
      forks - 1 ≤ a.valueCount →
      Opens (.values a forks) [placeholder] (valueBranches a (forks - 1))
  | threshold (a : Attribute) (forks : Nat) :
      Opens (.threshold a forks) [] (thresholdBranches a forks)
  | inlineSets (a : Attribute) (sets : List (List Int)) :
      Opens (.inlineSets a sets) [] (subsetBranches a sets)
  | followingSets {a : Attribute} {uses : List Use} {sets : List (List Int)} :
      ListsSets a uses sets → Opens (.followingSets a sets.length) uses (subsetBranches a sets)

/-- The uses are for the nodes, one after the other, with all that is behind them. -/
inductive Lists : List Use → List Node → Prop
  | nil : Lists [] []
  | blank {uses : List Use} {nodes : List Node} : Lists uses nodes → Lists (.blank :: uses) nodes
  | leaf (code : Int) {uses : List Use} {nodes : List Node} : Lists uses nodes →
      Lists (.node (.leaf code) :: uses) (.terminal (.integer code) :: nodes)
  | test {head : Head} {opening uses : List Use} {branches : List (Branch Unit)}
      {kids nodes : List Node} : Opens head opening branches → kids.length = branches.length →
      Lists uses (kids ++ nodes) →
      Lists (.node head :: (opening ++ uses)) (.test (List.zipWith withChild branches kids) :: nodes)

/-- The uses in front of the nodes. -/
def IsHeading (uses : List Use) : Prop := ∀ use ∈ uses, use = .blank ∨ use = .header

theorem Lists.append {uses more : List Use} {nodes others : List Node} (h : Lists uses nodes)
    (hmore : Lists more others) : Lists (uses ++ more) (nodes ++ others) := by
  induction h with
  | nil => exact hmore
  | blank _ ih => exact ih.blank
  | leaf code _ ih => exact ih.leaf code
  | test hopens hkids _ ih =>
    rw [List.append_assoc] at ih
    have htest := Lists.test hopens hkids ih
    rwa [← List.append_assoc] at htest

theorem Lists.blanks (count : Nat) {uses : List Use} {nodes : List Node} (h : Lists uses nodes) :
    Lists (List.replicate count .blank ++ uses) nodes := by
  induction count with
  | zero => exact h
  | succ count ih => exact ih.blank

theorem ListsSets.blanks {a : Attribute} (count : Nat) {uses : List Use} {sets : List (List Int)}
    (h : ListsSets a uses sets) : ListsSets a (List.replicate count .blank ++ uses) sets := by
  induction count with
  | zero => exact h
  | succ count ih => exact ih.blank

/-! ### What the readers use -/

/-- The lines up to the rest are used so, one after the other. -/
def Takes (schema : Schema) (lines : List Line) (uses : List Use) (rest : List Line) : Prop :=
  ∃ used, lines = used ++ rest ∧ List.Forall₂ (LineUsedAs schema) used uses

section

variable {schema : Schema} {stop : Span}

theorem Takes.refl (lines : List Line) : Takes schema lines [] lines := ⟨[], rfl, .nil⟩

theorem Takes.cons {l : Line} {use : Use} {lines rest : List Line} {uses : List Use}
    (hl : LineUsedAs schema l use) (h : Takes schema lines uses rest) :
    Takes schema (l :: lines) (use :: uses) rest := by
  obtain ⟨used, rfl, hused⟩ := h
  exact ⟨l :: used, rfl, .cons hl hused⟩

theorem Takes.append {lines middle rest : List Line} {uses more : List Use}
    (h : Takes schema lines uses middle) (hmore : Takes schema middle more rest) :
    Takes schema lines (uses ++ more) rest := by
  obtain ⟨used, rfl, hused⟩ := h
  obtain ⟨others, rfl, hothers⟩ := hmore
  exact ⟨used ++ others, (List.append_assoc ..).symm, List.rel_append hused hothers⟩

variable (schema) in
/-- The next record stands behind blank lines, and can be put to any use that it has. -/
theorem takes_nextRecord {expected : Expected} {lines : List Line} {r : Record}
    {behind : Behind lines} (h : nextRecord expected stop lines = .ok (r, behind)) :
    ∃ count, ∀ use, r.UsedAs schema use →
      Takes schema lines (List.replicate count .blank ++ [use]) behind.1 := by
  induction lines with
  | nil => cases h
  | cons l rest ih =>
    unfold nextRecord at h
    by_cases hblank : l.isBlank = true
    · rw [if_pos hblank] at h
      obtain ⟨⟨r', behind'⟩, hnext, h⟩ := bind_eq_ok_iff.mp h
      cases h
      obtain ⟨count, htakes⟩ := ih hnext
      exact ⟨count + 1, fun use huse => .cons (.blank hblank) (htakes use huse)⟩
    · rw [if_neg hblank] at h
      obtain ⟨r', hparse, h⟩ := bind_eq_ok_iff.mp h
      cases h
      have hnonblank : l.isBlank = false := by simpa using hblank
      exact ⟨0, fun use huse => .cons (.record hnonblank hparse huse) (.refl rest)⟩

variable (schema) in
theorem takes_readPlaceholder {lines : List Line} {behind : Behind lines}
    (h : readPlaceholder stop lines = .ok behind) :
    ∃ placeholder, (placeholder = .blankPlaceholder ∨ placeholder = .leafPlaceholder) ∧
      Takes schema lines [placeholder] behind.1 := by
  cases lines with
  | nil => cases h
  | cons l rest =>
    obtain ⟨_, hcheck, h⟩ := bind_eq_ok_iff.mp h
    cases h
    unfold State.checkPlaceholder at hcheck
    by_cases hblank : l.isBlank = true
    · exact ⟨_, .inl rfl, .cons (.blankPlaceholder hblank) (.refl rest)⟩
    · rw [if_neg hblank] at hcheck
      obtain ⟨r, hparse, hcheck⟩ := bind_eq_ok_iff.mp hcheck
      obtain ⟨type, htype, hcheck⟩ := bind_eq_ok_iff.mp hcheck
      by_cases hleaf : type = .leaf
      · subst hleaf
        have hnonblank : l.isBlank = false := by simpa using hblank
        exact ⟨_, .inr rfl, .cons (.record hnonblank hparse (.leafPlaceholder htype)) (.refl rest)⟩
      · rw [if_neg hleaf] at hcheck
        cases hcheck

variable (schema) in
theorem takes_readSetLines {a : Attribute} (count : Nat) :
    ∀ {lines : List Line} {sets : List (List Int)} {rest : From lines},
      readSetLines stop a count lines = .ok (sets, rest) →
      sets.length = count ∧ ∃ uses, ListsSets a uses sets ∧ Takes schema lines uses rest.1 := by
  induction count with
  | zero =>
    intro lines sets rest h
    cases h
    exact ⟨rfl, [], .nil, .refl lines⟩
  | succ count ih =>
    intro lines sets rest h
    obtain ⟨⟨r, behind⟩, hnext, h⟩ := bind_eq_ok_iff.mp h
    obtain ⟨field, hfield, h⟩ := bind_eq_ok_iff.mp h
    obtain ⟨codes, hcodes, h⟩ := bind_eq_ok_iff.mp h
    obtain ⟨⟨more, last⟩, hmore, h⟩ := bind_eq_ok_iff.mp h
    cases h
    obtain ⟨blanks, hbehind⟩ := takes_nextRecord schema hnext
    obtain ⟨hlength, uses, hsets, hrest⟩ := ih hmore
    refine ⟨congrArg Nat.succ hlength, _, (hsets.set codes).blanks blanks, ?_⟩
    have hfirst := (hbehind _ (.set hfield hcodes)).append hrest
    rwa [List.append_assoc] at hfirst

/-- A test reads what stands between its record and the nodes behind its branches. -/
theorem takes_readTest {r : Record} {type : NodeType} (htype : r.nodeType = .ok type)
    (hne : type ≠ .leaf) {a : Attribute} (ha : r.tested schema = .ok a) {forks : Nat}
    (hforks : r.forks = .ok forks) {lines : List Line} {branches : List (Branch Unit)}
    {rest : From lines} (h : readTest stop r type a forks lines = .ok (branches, rest)) :
    ∃ head uses, r.Says schema head ∧ Opens head uses branches ∧
      Takes schema lines uses rest.1 := by
  cases type with
  | leaf => exact absurd rfl hne
  | values =>
    obtain ⟨⟨behind, hbehind⟩, hplaceholder, h⟩ := bind_eq_ok_iff.mp h
    obtain ⟨placeholder, hkind, htakes⟩ := takes_readPlaceholder schema hplaceholder
    by_cases hcount : a.valueCount < forks - 1
    · simp only [if_pos hcount] at h
      obtain ⟨_, -, h⟩ := bind_eq_ok_iff.mp h
      cases h
    · simp only [if_neg hcount] at h
      cases h
      exact ⟨_, _, .values htype ha hforks, .values hkind (by omega), htakes⟩
  | threshold =>
    cases h
    exact ⟨_, _, .threshold htype ha hforks, .threshold a forks, .refl lines⟩
  | subsets =>
    obtain ⟨⟨sets, left⟩, hsets, h⟩ := bind_eq_ok_iff.mp h
    cases h
    unfold readSets at hsets
    rcases hinline : r.fieldsNamed "elts" with _ | ⟨extra, more⟩
    · rw [hinline] at hsets
      obtain ⟨rfl, uses, hlists, htakes⟩ := takes_readSetLines schema forks hsets
      exact ⟨_, uses, .followingSets htype ha hforks hinline, .followingSets hlists, htakes⟩
    · rw [hinline] at hsets
      dsimp only at hsets
      split at hsets
      · rename_i hcount
        obtain ⟨found, hfound, hsets⟩ := bind_eq_ok_iff.mp hsets
        cases hsets
        rw [← hcount, ← length_eq_of_mapM_ok hfound] at hforks
        refine ⟨_, [], .inlineSets htype ha hforks (by simp [hinline]) ?_, .inlineSets a sets,
          .refl lines⟩
        rw [hinline]
        exact hfound
      · cases hsets

variable (schema stop) in
/-- Up to `bound` lines, a node uses lines for itself and all that is behind it. -/
def NodesTake (bound : Nat) : Prop :=
  ∀ {lines : List Line} {n : Node} {rest : Behind lines}, lines.length ≤ bound →
    readNode schema stop lines = .ok (n, rest) →
    ∃ uses, Lists uses [n] ∧ Takes schema lines uses rest.1

theorem takes_readChildren {bound : Nat} (h : NodesTake schema stop bound)
    (branches : List (Branch Unit)) :
    ∀ {lines : List Line} {done : List (Branch Node)} {rest : From lines},
      lines.length ≤ bound → readChildren schema stop branches lines = .ok (done, rest) →
      ∃ kids uses, kids.length = branches.length ∧ done = List.zipWith withChild branches kids ∧
        Lists uses kids ∧ Takes schema lines uses rest.1 := by
  induction branches with
  | nil =>
    intro lines done rest _ hread
    rw [readChildren] at hread
    cases hread
    exact ⟨[], [], rfl, rfl, .nil, .refl lines⟩
  | cons b later ih =>
    intro lines done rest hlines hread
    rw [readChildren] at hread
    obtain ⟨⟨child, ⟨behind, hbehind⟩⟩, hchild, hread⟩ := bind_eq_ok_iff.mp hread
    obtain ⟨⟨others, ⟨last, hlast⟩⟩, hothers, hread⟩ := bind_eq_ok_iff.mp hread
    cases hread
    obtain ⟨uses, hlists, htakes⟩ := h hlines hchild
    obtain ⟨kids, more, hkids, rfl, hmore, hrest⟩ := ih (by omega) hothers
    exact ⟨child :: kids, uses ++ more, congrArg Nat.succ hkids, rfl, hlists.append hmore,
      htakes.append hrest⟩

theorem nodesTake (bound : Nat) : NodesTake schema stop bound := by
  induction bound using Nat.strongRecOn with
  | ind bound ih =>
    intro lines n rest hlines hread
    rw [readNode] at hread
    obtain ⟨⟨r, ⟨behind, hbehind⟩⟩, hnext, hread⟩ := bind_eq_ok_iff.mp hread
    obtain ⟨type, htype, hread⟩ := bind_eq_ok_iff.mp hread
    obtain ⟨blanks, hrecord⟩ := takes_nextRecord schema hnext
    by_cases hleaf : type = .leaf
    · subst hleaf
      obtain ⟨top, hterminal, hread⟩ := bind_eq_ok_iff.mp hread
      cases hread
      obtain ⟨_, code, -, rfl⟩ := Record.terminal_code hterminal
      exact ⟨_, (Lists.nil.leaf code).blanks blanks, hrecord _ (.node (.leaf htype hterminal))⟩
    · -- what is behind the branches has fewer lines, as the record is in front of it
      have hbelow : NodesTake schema stop behind.length := ih behind.length (by omega)
      rw [if_neg hleaf] at hread
      obtain ⟨a, ha, hread⟩ := bind_eq_ok_iff.mp hread
      obtain ⟨forks, hforks, hread⟩ := bind_eq_ok_iff.mp hread
      obtain ⟨⟨branches, ⟨children, hchildren⟩⟩, htest, hread⟩ := bind_eq_ok_iff.mp hread
      obtain ⟨⟨done, ⟨last, hlast⟩⟩, hdone, hread⟩ := bind_eq_ok_iff.mp hread
      cases hread
      obtain ⟨head, opening, hsays, hopens, htakes⟩ := takes_readTest htype hleaf ha hforks htest
      obtain ⟨kids, uses, hkids, rfl, hlists, hrest⟩ :=
        takes_readChildren hbelow branches hchildren hdone
      refine ⟨_, .blanks blanks (.test hopens hkids (by simpa using hlists)), ?_⟩
      have hall := (hrecord _ (.node hsays)).append (htakes.append hrest)
      simpa using hall

variable (schema) in
theorem takes_skipHeader {lines nodes : List Line} (h : skipHeader lines = .ok nodes) :
    ∃ heading, IsHeading heading ∧ Takes schema lines heading nodes := by
  induction lines with
  | nil =>
    cases h
    exact ⟨[], nofun, .refl []⟩
  | cons l rest ih =>
    unfold skipHeader at h
    by_cases hblank : l.isBlank = true
    · rw [if_pos hblank] at h
      obtain ⟨heading, hheading, htakes⟩ := ih h
      exact ⟨.blank :: heading, by simpa [IsHeading] using hheading, .cons (.blank hblank) htakes⟩
    · rw [if_neg hblank] at h
      obtain ⟨r, hparse, h⟩ := bind_eq_ok_iff.mp h
      obtain ⟨isHeader, hheader, h⟩ := bind_eq_ok_iff.mp h
      cases isHeader with
      | true =>
        obtain ⟨heading, hheading, htakes⟩ := ih h
        have hnonblank : l.isBlank = false := by simpa using hblank
        exact ⟨.header :: heading, by simpa [IsHeading] using hheading,
          .cons (.record hnonblank hparse (.header hheader)) htakes⟩
      | false =>
        cases h
        exact ⟨[], nofun, .refl _⟩

variable (schema) in
theorem takes_expectEnd {lines : List Line} (h : expectEnd lines = .ok ()) :
    ∃ count, Takes schema lines (List.replicate count .blank) [] := by
  induction lines with
  | nil => exact ⟨0, .refl []⟩
  | cons l rest ih =>
    unfold expectEnd at h
    by_cases hblank : l.isBlank = true
    · rw [if_pos hblank] at h
      obtain ⟨count, htakes⟩ := ih h
      exact ⟨count + 1, .cons (.blank hblank) htakes⟩
    · rw [if_neg hblank] at h
      obtain ⟨r, -, h⟩ := bind_eq_ok_iff.mp h
      cases h

/-- A text that is read uses all of its lines, for what the file says and for the tree. -/
theorem uses_of_readTree {lines : List Line} {top : Node}
    (h : readTree schema stop lines = .ok top) :
    ∃ heading uses, IsHeading heading ∧ Lists uses [top] ∧
      List.Forall₂ (LineUsedAs schema) lines (heading ++ uses) := by
  obtain ⟨nodes, hskip, h⟩ := bind_eq_ok_iff.mp h
  obtain ⟨⟨found, rest⟩, hnode, h⟩ := bind_eq_ok_iff.mp h
  obtain ⟨_, hend, h⟩ := bind_eq_ok_iff.mp h
  cases h
  obtain ⟨heading, hheading, hfront⟩ := takes_skipHeader schema hskip
  obtain ⟨uses, hlists, hmiddle⟩ := nodesTake nodes.length (Nat.le_refl _) hnode
  obtain ⟨count, hback⟩ := takes_expectEnd schema hend
  obtain ⟨used, hlines, hused⟩ := hfront.append (hmiddle.append hback)
  rw [List.append_nil] at hlines
  subst hlines
  have hall := hlists.append (Lists.nil.blanks count)
  rw [List.append_nil] at hall
  exact ⟨heading, _, hheading, hall, hused⟩

end

/-! ### Records of nodes -/

/-- The record says of the node what it is, and the test that it makes if it makes one. -/
inductive Head.Describes : Head → Node → Prop
  | leaf (code : Int) : Describes (.leaf code) (.terminal (.integer code))
  | test {head : Head} {opening : List Use} {branches : List (Branch Unit)} {kids : List Node} :
      Opens head opening branches → kids.length = branches.length →
      Describes head (.test (List.zipWith withChild branches kids))

theorem Opens.head?_eq_none {head : Head} {opening : List Use} {branches : List (Branch Unit)}
    (h : Opens head opening branches) : ∀ use ∈ opening, use.head? = none := by
  cases h with
  | values hplaceholder _ => rcases hplaceholder with rfl | rfl <;> simp [Use.head?]
  | threshold | inlineSets => simp
  | followingSets hsets =>
    induction hsets with
    | nil => simp
    | blank _ ih | set codes _ ih => simpa [Use.head?] using ih

/-- The records of nodes are those of all nodes, in preorder. -/
theorem Lists.heads {uses : List Use} {nodes : List Node} (h : Lists uses nodes) :
    List.Forall₂ Head.Describes (uses.filterMap Use.head?) (nodes.flatMap Node.preorder) := by
  induction h with
  | nil => exact .nil
  | blank _ ih => exact ih
  | leaf code _ ih => exact .cons (.leaf code) ih
  | @test head opening uses branches kids nodes hopens hkids _ ih =>
    have hopening : opening.filterMap Use.head? = [] :=
      List.filterMap_eq_nil_iff.mpr hopens.head?_eq_none
    rw [List.flatMap_append] at ih
    simp only [List.filterMap_cons, Use.head?, List.filterMap_append, hopening, List.nil_append,
      List.flatMap_cons, Node.preorder, preorderOfBranches_zipWith branches kids hkids]
    exact .cons (.test hopens hkids) ih

/-! ### The number of lines -/

/-- A line is blank if its use says so. -/
theorem LineUsedAs.isBlank_eq {schema : Schema} {l : Line} {use : Use}
    (h : LineUsedAs schema l use) : l.isBlank = use.isBlank := by
  cases h with
  | blank hblank | blankPlaceholder hblank => exact hblank
  | record hblank _ huse =>
    rw [hblank]
    cases huse <;> rfl

theorem countP_isBlank {schema : Schema} {lines : List Line} {uses : List Use}
    (h : List.Forall₂ (LineUsedAs schema) lines uses) :
    (lines.countP fun l => !l.isBlank) = uses.countP fun use => !use.isBlank := by
  induction h with
  | nil => rfl
  | cons hl _ ih => simp only [List.countP_cons, hl.isBlank_eq, ih]

/-- Uses that are not blank are of one of four kinds. -/
theorem countP_uses (uses : List Use) :
    (uses.countP fun use => !use.isBlank) = uses.count .header +
      (uses.filterMap Use.head?).length + uses.count .leafPlaceholder + uses.countP Use.isSet := by
  induction uses with
  | nil => rfl
  | cons use rest ih =>
    rw [List.countP_cons, ih, List.filterMap_cons, List.count_cons, List.count_cons,
      List.countP_cons]
    cases use <;> simp [Use.isBlank, Use.head?, Use.isSet] <;> omega

theorem IsHeading.heads {heading : List Use} (h : IsHeading heading) :
    heading.filterMap Use.head? = [] := by
  rw [List.filterMap_eq_nil_iff]
  intro use huse
  rcases h use huse with rfl | rfl <;> rfl

/-! ### Whole texts -/

/-- **Every line of a tree text has exactly one use.**  Each node that is read takes a line at
    least, so that reading node by node ends, and it comes to the same as reading line by line.
    If it succeeds, all lines are used: in front for the file, then for the nodes, whose records
    stand in preorder, each with what belongs to it right behind.  So the lines that are not blank
    can be counted. -/
theorem parse_uses_all_lines (schema : Schema) (file : SourceFile) :
    (∀ lines node rest, readNode schema file.endSpan lines = .ok (node, rest) →
      ∃ used, used ≠ [] ∧ lines = used ++ rest.1) ∧
    parse schema file =
      ((readTree schema file.endSpan (Line.ofText file.content.toList)).map
        (DecisionTree.withTop schema)).mapError (.ofLocated .tree file) ∧
    ∀ tree, parse schema file = .ok tree → ∃ top heading uses,
      tree = .withTop schema top ∧ IsHeading heading ∧ Lists uses [top] ∧
      List.Forall₂ (LineUsedAs schema) (Line.ofText file.content.toList) (heading ++ uses) ∧
      List.Forall₂ Head.Describes ((heading ++ uses).filterMap Use.head?) top.preorder ∧
      ((Line.ofText file.content.toList).countP fun l => !l.isBlank) =
        (heading ++ uses).count .header + tree.stats.tests + tree.stats.terminals +
          (heading ++ uses).count .leafPlaceholder + (heading ++ uses).countP Use.isSet := by
  refine ⟨?_, parse_eq_readTree schema file, ?_⟩
  · intro lines node rest hread
    obtain ⟨_, -, used, hlines, -⟩ := nodesTake lines.length (Nat.le_refl _) hread
    refine ⟨used, ?_, hlines⟩
    rintro rfl
    have hshorter := rest.2
    rw [← List.nil_append rest.1, ← hlines] at hshorter
    exact Nat.lt_irrefl _ hshorter
  · intro tree hparse
    rw [parse_eq_readTree] at hparse
    rcases hread : readTree schema file.endSpan (Line.ofText file.content.toList) with e | top
    · rw [hread] at hparse
      cases hparse
    rw [hread] at hparse
    cases hparse
    obtain ⟨heading, uses, hheading, hlists, hused⟩ := uses_of_readTree hread
    have hheads : List.Forall₂ Head.Describes ((heading ++ uses).filterMap Use.head?)
        top.preorder := by
      rw [List.filterMap_append, hheading.heads]
      simpa using hlists.heads
    refine ⟨top, heading, uses, rfl, hheading, hlists, hused, hheads, ?_⟩
    have hnodes : ((heading ++ uses).filterMap Use.head?).length =
        (DecisionTree.withTop schema top).stats.tests +
          (DecisionTree.withTop schema top).stats.terminals :=
      hheads.length_eq.trans top.length_preorder
    rw [countP_isBlank hused, countP_uses, hnodes]
    omega

/-- Of the lines of `policyTree`, one is about the file, three are the records of tests, three
    those of terminals and two the sets of a test.  Its placeholder is blank. -/
theorem policyTree_uses_all_lines :
    ∃ top heading uses, parse policySchema.bindById policyTree =
        .ok (.withTop policySchema.bindById top) ∧
      IsHeading heading ∧ Lists uses [top] ∧
      List.Forall₂ (LineUsedAs policySchema.bindById) (Line.ofText policyTree.content.toList)
        (heading ++ uses) ∧
      List.Forall₂ Head.Describes ((heading ++ uses).filterMap Use.head?) top.preorder ∧
      9 = (heading ++ uses).count .header + 3 + 3 + (heading ++ uses).count .leafPlaceholder +
        (heading ++ uses).countP Use.isSet := by
  have hparse : parse policySchema.bindById policyTree = .ok (policy (.index 1) (.index 2)) := by
    cbv
  have hlines : ((Line.ofText policyTree.content.toList).countP fun l => !l.isBlank) = 9 := by decide +kernel
  obtain ⟨-, -, huses⟩ := parse_uses_all_lines policySchema.bindById policyTree
  obtain ⟨top, heading, uses, htree, hheading, hlists, hused, hheads, hcount⟩ := huses _ hparse
  rw [hlines] at hcount
  rw [htree] at hparse
  exact ⟨top, heading, uses, hparse, hheading, hlists, hused, hheads, hcount⟩

end TreeFile

end DecisionModel
