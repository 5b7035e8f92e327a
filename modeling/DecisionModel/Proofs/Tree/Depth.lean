import Mathlib
import DecisionModel.Proofs.Evaluation.FirstMatch
import DecisionModel.Proofs.Tree.Paths
import DecisionModel.Proofs.TreeFile.Usage

/-!
# What the size of a tree says

A way leads from the top of a tree down to an end: a terminal, or a test without branches.  The
depth of the tree is the largest number of tests on a way.  A walk goes down a way, maybe not to
its end, so it comes through no more tests than that, whatever the record is.

Each node but the top stands behind a branch of its own, so there is one node more than there are
branches.
-/

namespace DecisionModel

/-! ### The branches of a test -/

theorem statsOfBranches_cons (b : Branch Node) (rest : List (Branch Node)) :
    statsOfBranches (b :: rest) =
      .beside ⟨0, 0, 1, 0⟩ (.beside b.child.stats (statsOfBranches rest)) := by
  obtain ⟨attr, slot, test, child⟩ := b
  rfl

theorem preorderOfBranches_cons (b : Branch Node) (rest : List (Branch Node)) :
    preorderOfBranches (b :: rest) = b.child.preorder ++ preorderOfBranches rest := by
  obtain ⟨attr, slot, test, child⟩ := b
  rfl

theorem depth_le_of_mem {branches : List (Branch Node)} {b : Branch Node} (h : b ∈ branches) :
    b.child.stats.depth ≤ (statsOfBranches branches).depth := by
  induction branches with
  | nil => cases h
  | cons c rest ih =>
    rw [statsOfBranches_cons]
    simp only [TreeStats.beside]
    rcases List.mem_cons.mp h with rfl | hrest
    · omega
    · have hle := ih hrest
      omega

/-- Unless there are none, some branch has the largest depth behind it. -/
theorem exists_deepest {branches : List (Branch Node)} (h : branches ≠ []) :
    ∃ b ∈ branches, b.child.stats.depth = (statsOfBranches branches).depth := by
  induction branches with
  | nil => exact absurd rfl h
  | cons b rest ih =>
    rw [statsOfBranches_cons]
    simp only [TreeStats.beside]
    by_cases hfirst : (statsOfBranches rest).depth ≤ b.child.stats.depth
    · exact ⟨b, by simp, by omega⟩
    · have hne : rest ≠ [] := by
        rintro rfl
        exact hfirst (Nat.zero_le _)
      obtain ⟨c, hc, hdepth⟩ := ih hne
      exact ⟨c, by simp [hc], by omega⟩

namespace Node

/-! ### Ways -/

/-- The nodes on a way from the first of them down to an end. -/
inductive Way : Node → List Node → Prop
  | terminal (v : Value) : Way (.terminal v) [.terminal v]
  | stop : Way (.test []) [.test []]
  | behind {branches : List (Branch Node)} {b : Branch Node} {nodes : List Node} :
      b ∈ branches → Way b.child nodes → Way (.test branches) (.test branches :: nodes)

/-- How many of the nodes are tests. -/
def testCount (nodes : List Node) : Nat := nodes.countP fun n => !n.isTerminal

theorem testCount_cons_test (branches : List (Branch Node)) (nodes : List Node) :
    testCount (.test branches :: nodes) = testCount nodes + 1 :=
  List.countP_cons_of_pos rfl

theorem testCount_append (nodes others : List Node) :
    testCount (nodes ++ others) = testCount nodes + testCount others :=
  List.countP_append

theorem Way.testCount_le {n : Node} {nodes : List Node} (h : n.Way nodes) :
    testCount nodes ≤ n.stats.depth := by
  induction h with
  | terminal v => exact Nat.le_refl _
  | stop => exact Nat.le_refl _
  | @behind branches b nodes hb _ ih =>
    have hle := depth_le_of_mem hb
    rw [testCount_cons_test]
    simp only [stats]
    omega

theorem exists_way (n : Node) : ∃ nodes, n.Way nodes ∧ testCount nodes = n.stats.depth := by
  induction n using Node.induct with
  | terminal v => exact ⟨_, .terminal v, rfl⟩
  | test branches ih =>
    by_cases hnil : branches = []
    · subst hnil
      exact ⟨_, .stop, rfl⟩
    · obtain ⟨b, hb, hdepth⟩ := exists_deepest hnil
      obtain ⟨nodes, hway, hcount⟩ := ih b hb
      refine ⟨_, .behind hb hway, ?_⟩
      rw [testCount_cons_test, hcount, hdepth]
      rfl

/-- **The depth is the largest number of tests on a way.** -/
theorem isGreatest_depth (n : Node) :
    IsGreatest {k | ∃ nodes, n.Way nodes ∧ testCount nodes = k} n.stats.depth := by
  constructor
  · exact n.exists_way
  · rintro _ ⟨nodes, hway, rfl⟩
    exact hway.testCount_le

/-! ### Walks -/

section

variable {options : EvalOptions} {record : Record}

theorem Follows.exists_branch {m n : Node} (h : m.Follows options record n) :
    ∃ branches, m = .test branches ∧ ∃ b ∈ branches, n = b.child := by
  obtain ⟨hdecided, -⟩ := h
  exact ⟨_, rfl, _, hdecided.mem, rfl⟩

theorem Way.exists_rest {n : Node} {nodes : List Node} (h : n.Way nodes) :
    ∃ rest, nodes = n :: rest := by
  cases h with
  | terminal v => exact ⟨[], rfl⟩
  | stop => exact ⟨[], rfl⟩
  | behind hb hway => exact ⟨_, rfl⟩

/-- **A walk goes down a way**, as far as it comes. -/
theorem exists_way_of_walk {n : Node} {nodes : List Node}
    (h : (n :: nodes).IsChain (Follows options record)) :
    ∃ rest, n.Way (n :: nodes ++ rest) := by
  induction nodes generalizing n with
  | nil =>
    obtain ⟨way, hway, -⟩ := n.exists_way
    obtain ⟨rest, rfl⟩ := hway.exists_rest
    exact ⟨rest, hway⟩
  | cons m nodes ih =>
    rw [List.isChain_cons_cons] at h
    obtain ⟨hstep, hlater⟩ := h
    obtain ⟨branches, rfl, b, hb, rfl⟩ := hstep.exists_branch
    obtain ⟨rest, hway⟩ := ih hlater
    exact ⟨rest, .behind hb hway⟩

theorem testCount_le_of_walk {n : Node} {nodes : List Node}
    (h : (n :: nodes).IsChain (Follows options record)) :
    testCount (n :: nodes) ≤ n.stats.depth := by
  obtain ⟨rest, hway⟩ := exists_way_of_walk h
  calc testCount (n :: nodes) ≤ testCount (n :: nodes ++ rest) :=
        (List.sublist_append_left _ _).countP_le
    _ ≤ n.stats.depth := hway.testCount_le

end

/-! ### Counts -/

/-- What a terminal has, and a test whenever its branches together have the other, every node
    has. -/
theorem stats_induct {p q : TreeStats → Prop} (terminal : p ⟨0, 0, 0, 1⟩)
    (test : ∀ s, q s → p ⟨s.depth + 1, s.tests + 1, s.branches, s.terminals⟩) (zero : q .zero)
    (more : ∀ s r, p s → q r → q (.beside ⟨0, 0, 1, 0⟩ (.beside s r))) (n : Node) : p n.stats := by
  apply induct_branches (p := fun n => p n.stats) (q := fun bs => q (statsOfBranches bs))
  · intro v
    exact terminal
  · intro branches h
    exact test _ h
  · exact zero
  · intro b rest hb hrest
    rw [statsOfBranches_cons]
    exact more _ _ hb hrest

/-- There is one node more than there are branches. -/
theorem tests_add_terminals (n : Node) :
    n.stats.tests + n.stats.terminals = n.stats.branches + 1 := by
  apply stats_induct (p := fun s => s.tests + s.terminals = s.branches + 1)
    (q := fun s => s.tests + s.terminals = s.branches)
  · rfl
  · intro s hs
    dsimp only
    omega
  · rfl
  · intro s r hs hr
    simp only [TreeStats.beside]
    omega

theorem depth_le_tests (n : Node) : n.stats.depth ≤ n.stats.tests := by
  apply stats_induct (p := fun s => s.depth ≤ s.tests) (q := fun s => s.depth ≤ s.tests)
  · exact Nat.le_refl _
  · intro s hs
    exact Nat.succ_le_succ hs
  · exact Nat.le_refl _
  · intro s r hs hr
    simp only [TreeStats.beside]
    omega

theorem depth_eq_zero_iff {n : Node} : n.stats.depth = 0 ↔ n.isTerminal = true := by
  cases n with
  | terminal v => exact iff_of_true rfl rfl
  | test branches => exact iff_of_false (Nat.succ_ne_zero _) Bool.false_ne_true

theorem tests_eq_testCount (n : Node) : n.stats.tests = testCount n.preorder := by
  apply induct_branches (p := fun n => n.stats.tests = testCount n.preorder)
    (q := fun bs => (statsOfBranches bs).tests = testCount (preorderOfBranches bs))
  · intro v
    rfl
  · intro branches hbelow
    rw [preorder, testCount_cons_test, ← hbelow]
    rfl
  · rfl
  · intro b rest hb hrest
    rw [statsOfBranches_cons, preorderOfBranches_cons, testCount_append, ← hb, ← hrest]
    simp only [TreeStats.beside]
    omega

theorem terminals_eq_countP (n : Node) : n.stats.terminals = n.preorder.countP isTerminal := by
  have hparts : n.preorder.length = n.preorder.countP isTerminal + testCount n.preorder := by
    rw [List.length_eq_countP_add_countP isTerminal, testCount]
    simp only [Bool.not_eq_true, Bool.decide_eq_false]
  have hlength := n.length_preorder
  have htests := n.tests_eq_testCount
  omega

end Node

/-! ### Trees -/

/-- The numbers of a node and of all that is below it. -/
structure TreeStats.Describes (s : TreeStats) (n : Node) : Prop where
  tests : s.tests = Node.testCount n.preorder
  terminals : s.terminals = n.preorder.countP Node.isTerminal
  branches : s.branches = n.paths.length
  nodes : s.tests + s.terminals = s.branches + 1
  depth : IsGreatest {k | ∃ nodes, n.Way nodes ∧ Node.testCount nodes = k} s.depth
  depth_le_tests : s.depth ≤ s.tests
  depth_eq_zero_iff : s.depth = 0 ↔ n.isTerminal = true
  /-- The walk, as far as it is followed. -/
  walk : ∀ options record nodes, (n :: nodes).IsChain (Node.Follows options record) →
    Node.testCount (n :: nodes) ≤ s.depth

theorem Node.describes_stats (n : Node) : n.stats.Describes n where
  tests := n.tests_eq_testCount
  terminals := n.terminals_eq_countP
  branches := n.length_paths.symm
  nodes := n.tests_add_terminals
  depth := n.isGreatest_depth
  depth_le_tests := n.depth_le_tests
  depth_eq_zero_iff := Node.depth_eq_zero_iff
  walk _ _ _ := Node.testCount_le_of_walk

/-- **The numbers of a tree agree with it.**  Tests and terminals together are one more than the
    branches.  The depth is the largest number of tests on a way from the top to an end, so it is
    at most the number of tests, and zero exactly if the top is a terminal; and no walk comes
    through more tests than that.  A tree without a top has no numbers but zero. -/
theorem DecisionTree.stats_agree (t : DecisionTree) :
    match t.top with
    | none => t.stats = .zero
    | some top => t.stats.Describes top := by
  rcases htop : t.top with _ | top
  · simp only [stats, htop]
  · simp only [stats, htop]
    exact top.describes_stats

/-- An empty test is an end, but not without depth. -/
example : (DecisionTree.mk "state" .integer
    (some (.test [⟨⟨1⟩, .unbound, none, .test []⟩]))).stats = ⟨2, 2, 1, 0⟩ := by
  decide

end DecisionModel
