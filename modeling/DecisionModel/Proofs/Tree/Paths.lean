import Mathlib
import DecisionModel.Tree.Stats

/-!
# Branches by their paths

A branch is found from the top by the positions of the branches on the way to it, its own
included.  In preorder these paths ascend lexicographically.  Each is determined by the path
before it and by its length, so the paths can be recovered from their lengths.
-/

namespace DecisionModel

namespace Node

def branches : Node → List (Branch Node)
  | .terminal _ => []
  | .test branches => branches

/-- The branch at the end of the path. -/
def branchAt? : Node → List Nat → Option (Branch Node)
  | _, [] => none
  | n, [i] => n.branches[i]?
  | n, i :: j :: path => n.branches[i]?.bind fun b => b.child.branchAt? (j :: path)

@[simp] theorem branchAt?_nil (n : Node) : n.branchAt? [] = none := by
  simp [branchAt?]

@[simp] theorem branchAt?_singleton (n : Node) (i : Nat) : n.branchAt? [i] = n.branches[i]? := by
  simp [branchAt?]

theorem branchAt?_cons (n : Node) (i : Nat) {path : List Nat} (h : path ≠ []) :
    n.branchAt? (i :: path) = n.branches[i]?.bind fun b => b.child.branchAt? path := by
  obtain ⟨j, path, rfl⟩ := List.exists_cons_of_ne_nil h
  rw [branchAt?]

end Node

/-! ### Preorder -/

mutual

/-- The paths of all branches, each before those of the branches behind it. -/
def Node.paths : Node → List (List Nat)
  | .terminal _ => []
  | .test branches => pathsFrom 0 branches
termination_by structural n => n

def pathsFrom (i : Nat) : List (Branch Node) → List (List Nat)
  | [] => []
  | ⟨_, _, _, child⟩ :: rest => [i] :: child.paths.map (i :: ·) ++ pathsFrom (i + 1) rest
termination_by structural branches => branches

end

theorem pairwise_zipIdx {α : Type} (xs : List α) (i : Nat) :
    (xs.zipIdx i).Pairwise fun x y => x.2 < y.2 := by
  induction xs generalizing i with
  | nil => exact .nil
  | cons x xs ih =>
    rw [List.zipIdx_cons, List.pairwise_cons]
    exact ⟨fun y hy => List.le_snd_of_mem_zipIdx hy, ih (i + 1)⟩

namespace Node

@[simp] theorem paths_terminal (v : Value) : (terminal v).paths = [] := rfl

theorem pathsFrom_eq (i : Nat) (branches : List (Branch Node)) :
    pathsFrom i branches =
      (branches.zipIdx i).flatMap fun x => [x.2] :: x.1.child.paths.map (x.2 :: ·) := by
  induction branches generalizing i with
  | nil => rfl
  | cons b rest ih =>
    rw [List.zipIdx_cons, List.flatMap_cons, ← ih]
    rfl

theorem paths_test (branches : List (Branch Node)) :
    (test branches).paths =
      branches.zipIdx.flatMap fun x => [x.2] :: x.1.child.paths.map (x.2 :: ·) :=
  pathsFrom_eq 0 branches

theorem length_paths (n : Node) : n.paths.length = n.stats.branches := by
  apply induct_branches (p := fun n => n.paths.length = n.stats.branches)
    (q := fun bs => ∀ i, (pathsFrom i bs).length = (statsOfBranches bs).branches)
  · intro v
    rfl
  · intro bs hbelow
    exact hbelow 0
  · intro i
    rfl
  · rintro ⟨attr, slot, test, child⟩ rest hchild hrest i
    simp only [pathsFrom, statsOfBranches, TreeStats.beside, List.length_append, List.length_cons,
      List.length_map, hchild, hrest (i + 1)]
    omega

theorem mem_paths_test {branches : List (Branch Node)} {path : List Nat} :
    path ∈ (test branches).paths ↔
      ∃ i b, branches[i]? = some b ∧ (path = [i] ∨ ∃ rest ∈ b.child.paths, i :: rest = path) := by
  rw [paths_test, List.mem_flatMap]
  constructor
  · rintro ⟨⟨b, i⟩, hb, hpath⟩
    exact ⟨i, b, List.mem_zipIdx_iff_getElem?.mp hb, by simpa using hpath⟩
  · rintro ⟨i, b, hb, hpath⟩
    exact ⟨(b, i), List.mem_zipIdx_iff_getElem?.mpr hb, by simpa using hpath⟩

/-- The paths of a branch and of those behind it start with its position. -/
theorem exists_cons_of_mem {i : Nat} {paths : List (List Nat)} {path : List Nat}
    (h : path ∈ [i] :: paths.map (i :: ·)) : ∃ rest, path = i :: rest := by
  rcases List.mem_cons.mp h with rfl | h
  · exact ⟨[], rfl⟩
  · obtain ⟨rest, -, rfl⟩ := List.mem_map.mp h
    exact ⟨rest, rfl⟩

theorem ne_nil_of_mem_paths {n : Node} {path : List Nat} (h : path ∈ n.paths) : path ≠ [] := by
  cases n with
  | terminal v => cases h
  | test branches =>
    obtain ⟨i, b, -, rfl | ⟨rest, -, rfl⟩⟩ := mem_paths_test.mp h
    · simp
    · simp

/-- **All branches are listed.** -/
theorem mem_paths {n : Node} {path : List Nat} : path ∈ n.paths ↔ (n.branchAt? path).isSome := by
  induction n using Node.induct generalizing path with
  | terminal v =>
    rcases path with _ | ⟨i, _ | ⟨j, path⟩⟩ <;> simp [branchAt?, branches]
  | test bs ih =>
    rw [mem_paths_test]
    constructor
    · rintro ⟨i, b, hb, rfl | ⟨rest, hrest, rfl⟩⟩
      · simp [branches, hb]
      · rw [branchAt?_cons _ _ (ne_nil_of_mem_paths hrest), branches, hb, Option.bind_some]
        exact (ih b (List.mem_of_getElem? hb)).mp hrest
    · intro h
      rcases path with _ | ⟨i, _ | ⟨j, path⟩⟩
      · simp at h
      · obtain ⟨b, hb⟩ := Option.isSome_iff_exists.mp h
        exact ⟨i, b, by simpa [branches] using hb, .inl rfl⟩
      · rw [branchAt?_cons _ _ (by simp), branches] at h
        obtain ⟨b, hb⟩ := Option.isSome_iff_exists.mp (Option.isSome_of_isSome_bind h)
        rw [hb, Option.bind_some] at h
        exact ⟨i, b, hb, .inr ⟨_, (ih b (List.mem_of_getElem? hb)).mpr h, rfl⟩⟩

/-- **Paths in preorder ascend.** -/
theorem pairwise_paths (n : Node) : n.paths.Pairwise (· < ·) := by
  induction n using Node.induct with
  | terminal v => exact .nil
  | test bs ih =>
    rw [paths_test, List.pairwise_flatMap]
    -- within the paths of one branch the position is shared, between branches it decides
    constructor
    · rintro ⟨b, i⟩ hb
      have hchild := ih b (List.mem_of_getElem? (List.mem_zipIdx_iff_getElem?.mp hb))
      rw [List.pairwise_cons, List.pairwise_map]
      constructor
      · intro path hpath
        obtain ⟨rest, hrest, rfl⟩ := List.mem_map.mp hpath
        obtain ⟨j, rest, rfl⟩ := List.exists_cons_of_ne_nil (ne_nil_of_mem_paths hrest)
        simp
      · exact hchild.imp fun hlt => List.cons_lt_cons_iff.mpr (.inr ⟨rfl, hlt⟩)
    · refine (pairwise_zipIdx bs 0).imp ?_
      intro x y hlt path hpath path' hpath'
      obtain ⟨rest, rfl⟩ := exists_cons_of_mem hpath
      obtain ⟨rest', rfl⟩ := exists_cons_of_mem hpath'
      exact List.cons_lt_cons_iff.mpr (.inl hlt)

/-! ### Siblings -/

/-- The path of the branch behind the one at the path, in the same test. -/
def nextSibling : List Nat → List Nat
  | [] => []
  | [i] => [i + 1]
  | i :: j :: path => i :: nextSibling (j :: path)

/-- Whether the branch at the path is the last of its test. -/
def isLast (n : Node) (path : List Nat) : Bool := (n.branchAt? (nextSibling path)).isNone

theorem nextSibling_cons (i : Nat) {path : List Nat} (h : path ≠ []) :
    nextSibling (i :: path) = i :: nextSibling path := by
  obtain ⟨j, path, rfl⟩ := List.exists_cons_of_ne_nil h
  rfl

theorem nextSibling_ne_nil {path : List Nat} (h : path ≠ []) : nextSibling path ≠ [] := by
  rcases path with _ | ⟨i, _ | ⟨j, path⟩⟩
  · exact absurd rfl h
  · simp [nextSibling]
  · simp [nextSibling]

theorem isLast_singleton_iff {n : Node} {i : Nat} :
    n.isLast [i] = true ↔ n.branches.length ≤ i + 1 := by
  simp [isLast, nextSibling]

theorem isLast_cons {n : Node} {i : Nat} {b : Branch Node} (hb : n.branches[i]? = some b)
    {path : List Nat} (h : path ≠ []) : n.isLast (i :: path) = b.child.isLast path := by
  rw [isLast, nextSibling_cons i h, branchAt?_cons n i (nextSibling_ne_nil h), hb,
    Option.bind_some, isLast]

end Node

/-! ### Paths from lengths -/

/-- The path of a branch with that many branches above it, if the branch in front of it in
    preorder has the given path. -/
def pathAfter (previous : List Nat) (depth : Nat) : List Nat :=
  match previous[depth]? with
  | some i => previous.take depth ++ [i + 1]
  | none => previous ++ [0]

/-- The paths of branches in preorder, with that many branches above them. -/
def pathsOfDepths (previous : List Nat) : List Nat → List (List Nat)
  | [] => []
  | depth :: rest =>
    pathAfter previous depth :: pathsOfDepths (pathAfter previous depth) rest

/-- The second path may follow the first in preorder. -/
def NextPath (previous path : List Nat) : Prop := path = pathAfter previous (path.length - 1)

theorem pathAfter_ne_nil (previous : List Nat) (depth : Nat) : pathAfter previous depth ≠ [] := by
  unfold pathAfter
  split <;> simp

theorem NextPath.cons {previous path : List Nat} (h : NextPath previous path) (i : Nat) :
    NextPath (i :: previous) (i :: path) := by
  obtain ⟨j, rest, rfl⟩ := List.exists_cons_of_ne_nil (h ▸ pathAfter_ne_nil previous _)
  have hpath : j :: rest = pathAfter previous rest.length := h
  show i :: j :: rest = pathAfter (i :: previous) (rest.length + 1)
  rw [hpath]
  unfold pathAfter
  rw [List.getElem?_cons_succ]
  split <;> simp

theorem pathsOfDepths_of_isChain {previous : List Nat} {paths : List (List Nat)}
    (h : List.IsChain NextPath (previous :: paths)) :
    pathsOfDepths previous (paths.map fun path => path.length - 1) = paths := by
  induction paths generalizing previous with
  | nil => rfl
  | cons path rest ih =>
    rw [List.isChain_cons_cons] at h
    rw [List.map_cons, pathsOfDepths, ← h.1, ih h.2]

theorem Node.isChain_paths (n : Node) : List.IsChain NextPath ([] :: n.paths) := by
  induction n using Node.induct with
  | terminal v => exact .singleton _
  | test bs ih =>
    -- the path in front of a branch may lead deep into the branch before it
    have hfrom : ∀ i previous, pathAfter previous 0 = [i] →
        List.IsChain NextPath (previous :: pathsFrom i bs) := by
      induction bs with
      | nil =>
        intro i previous _
        exact .singleton _
      | cons b rest ihrest =>
        intro i previous hprevious
        obtain ⟨attr, slot, test, child⟩ := b
        have hchild : List.IsChain NextPath ([i] :: child.paths.map (i :: ·)) :=
          (List.isChain_map (i :: ·)).mpr
            ((ih ⟨attr, slot, test, child⟩ (by simp)).imp fun _ _ h => h.cons i)
        have hlater : ∀ path, List.IsChain NextPath ((i :: path) :: pathsFrom (i + 1) rest) :=
          fun path => ihrest (fun b hb => ih b (by simp [hb])) (i + 1) (i :: path) rfl
        have hrest : List.IsChain NextPath (pathsFrom (i + 1) rest) := (hlater []).tail
        rw [pathsFrom, List.cons_append, List.isChain_cons_cons]
        refine ⟨hprevious.symm, List.isChain_append.mpr ⟨hchild, hrest, ?_⟩⟩
        -- the next branch of the test follows the last of those behind this one
        intro path hpath path' hpath'
        obtain ⟨last, rfl⟩ := Node.exists_cons_of_mem (List.mem_of_getLast? hpath)
        obtain ⟨later, hat⟩ := List.head?_eq_some_iff.mp hpath'
        have hnext := hlater last
        rw [hat, List.isChain_cons_cons] at hnext
        exact hnext.1
    exact hfrom 0 [] rfl

/-- **The paths can be recovered from their lengths.** -/
theorem Node.pathsOfDepths_paths (n : Node) :
    pathsOfDepths [] (n.paths.map fun path => path.length - 1) = n.paths :=
  pathsOfDepths_of_isChain n.isChain_paths

/-! ### Trees -/

namespace DecisionTree

/-- The node at the top.  A tree without one has no branches, like an empty test. -/
def root (t : DecisionTree) : Node := t.top.getD (.test [])

theorem length_paths_root (t : DecisionTree) : t.root.paths.length = t.stats.branches := by
  rw [Node.length_paths, root, stats]
  cases t.top with
  | none => rfl
  | some top => rfl

end DecisionTree

end DecisionModel
