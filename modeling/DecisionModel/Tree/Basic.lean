import DecisionModel.Schema.Basic
import DecisionModel.Value.Array

/-!
# Decision trees

A node either decides a value or tests attributes: it has branches in order, each with
an attribute, a test and the node behind it.  A branch keeps the slot its attribute had
when the branch was made; one without a test leads nowhere but keeps what is behind it.

A tree has a name, the type of its decisions, and at most one top node.
-/

namespace DecisionModel

inductive Condition where
  | gt
  | ge
  | eq
  | le
  | lt
  | within
  deriving DecidableEq, Repr

def Condition.symbol : Condition → String
  | .gt => ">"
  | .ge => ">="
  | .eq => "="
  | .le => "<="
  | .lt => "<"
  | .within => "in"

structure Test where
  condition : Condition
  value : Value
  deriving DecidableEq, Repr

structure Branch (α : Type) where
  attr : AttrId
  slot : Slot
  test : Option Test
  child : α
  deriving DecidableEq, Repr

/-- A branch on the attribute, at the slot it has now. -/
def Attribute.branch {α : Type} (a : Attribute) (test : Option Test) (child : α) : Branch α :=
  ⟨a.id, a.slot, test, child⟩

inductive Node where
  | terminal (decision : Value)
  | test (branches : List (Branch Node))
  deriving Repr, Inhabited

namespace Node

def isTerminal : Node → Bool
  | .terminal _ => true
  | .test _ => false

/-- A property holds of every node if it holds of terminals, and of a test as soon as it
    holds behind each of its branches. -/
theorem induct {p : Node → Prop} (terminal : ∀ v, p (.terminal v))
    (test : ∀ bs : List (Branch Node), (∀ b ∈ bs, p b.child) → p (.test bs)) (n : Node) : p n :=
  Node.rec (motive_1 := p) (motive_2 := fun bs => ∀ b ∈ bs, p b.child)
    (motive_3 := fun b => p b.child) terminal test (by simp)
    (fun _ _ hb hbs => by simpa using ⟨hb, hbs⟩) (fun _ _ _ _ h => h) n

/-- A property `p` holds of every node if it holds of terminals, and of a test as soon as its
    branches have `q`, which goes from what is behind a branch and the later branches to all. -/
theorem induct_branches {p : Node → Prop} {q : List (Branch Node) → Prop}
    (terminal : ∀ v, p (.terminal v)) (test : ∀ bs, q bs → p (.test bs)) (nil : q [])
    (cons : ∀ b bs, p b.child → q bs → q (b :: bs)) (n : Node) : p n :=
  Node.rec (motive_1 := p) (motive_2 := q) (motive_3 := fun b => p b.child) terminal test nil
    cons (fun _ _ _ _ h => h) n

/-! ### Equality -/

mutual

def decEq : (m n : Node) → Decidable (m = n)
  | .terminal v, .terminal w => if h : v = w then isTrue (by rw [h]) else isFalse (by simpa using h)
  | .test bs, .test cs =>
    match decEqBranches bs cs with
    | isTrue h => isTrue (by rw [h])
    | isFalse h => isFalse (by simpa using h)
  | .terminal _, .test _ => isFalse nofun
  | .test _, .terminal _ => isFalse nofun
termination_by structural m => m

def decEqBranches : (bs cs : List (Branch Node)) → Decidable (bs = cs)
  | [], [] => isTrue rfl
  | [], _ :: _ => isFalse nofun
  | _ :: _, [] => isFalse nofun
  | ⟨a, s, t, m⟩ :: bs, ⟨b, u, v, n⟩ :: cs =>
    match decEq m n, decEqBranches bs cs with
    | isTrue hm, isTrue hbs =>
      if h : a = b ∧ s = u ∧ t = v then
        isTrue (by obtain ⟨ha, hs, ht⟩ := h; rw [ha, hs, ht, hm, hbs])
      else isFalse (by simp only [List.cons.injEq, Branch.mk.injEq]; grind)
    | isFalse hm, _ => isFalse (by simp [hm])
    | _, isFalse hbs => isFalse (by simp [hbs])
termination_by structural bs => bs

end

instance : DecidableEq Node := decEq

mutual

/-- Equality that compares doubles as numbers: a node that holds a `nan` differs from
    itself. -/
def same : Node → Node → Bool
  | .terminal v, .terminal w => v.same w
  | .test bs, .test cs => sameBranches bs cs
  | _, _ => false
termination_by structural m => m

def sameBranches : List (Branch Node) → List (Branch Node) → Bool
  | [], [] => true
  | ⟨a, s, t, m⟩ :: bs, ⟨b, u, v, n⟩ :: cs =>
    a == b && s == u && sameTest t v && m.same n && sameBranches bs cs
  | _, _ => false
termination_by structural bs => bs

def sameTest : Option Test → Option Test → Bool
  | none, none => true
  | some t, some u => t.condition == u.condition && t.value.same u.value
  | _, _ => false

end

end Node

structure DecisionTree where
  name : String
  /-- The type of the values that the tree decides. -/
  decisionType : ValueType
  top : Option Node
  deriving DecidableEq, Repr

inductive TreeError where
  | alreadyAttached (tree : String)
  deriving DecidableEq, Repr

def TreeError.message : TreeError → String
  | .alreadyAttached tree => s!"decision tree `{tree}` already has a top node"

namespace DecisionTree

def empty (name : String) (decisionType : ValueType) : DecisionTree := ⟨name, decisionType, none⟩

def forSchema (s : Schema) : DecisionTree :=
  .empty s.decisionAttribute.name s.decisionAttribute.valueType

def withTop (s : Schema) (top : Node) : DecisionTree := { forSchema s with top := some top }

def attach (t : DecisionTree) (top : Node) : Except TreeError DecisionTree :=
  match t.top with
  | some _ => .error (.alreadyAttached t.name)
  | none => .ok { t with top := some top }

end DecisionTree

end DecisionModel
