import Mathlib
import DecisionModel.Proofs.Schema.Listing
import DecisionModel.Proofs.Tree.Drawing
import DecisionModel.Proofs.TreeFile.Asked
import DecisionModel.Proofs.TreeFile.Slots

/-!
# Codes shown by name

The branches of a tree that was read ask for codes of attributes, and their labels show the
names of these codes.  The exception are sets that do not fit a mask: if the list of their
names is too wide for a label, then it is a list of bare codes that is cut to fit.
-/

namespace DecisionModel

open Text TreeFile

namespace ValueArray

theorem ofIntegers_injective : Function.Injective ofIntegers := by
  intro codes codes' h
  have hitems : codes.map Scalar.integer = codes'.map Scalar.integer := congrArg items h
  exact List.map_injective_iff.mpr (fun _ _ => Scalar.integer.inj) hitems

theorem head?_displayWithin (v : ValueArray) (max : Nat) :
    (v.displayWithin max).toList.head? = some '[' := by
  unfold displayWithin
  split
  · simp [display]
  · split <;> simp

end ValueArray

theorem head?_braced (labels : List String) : (braced labels).toList.head? = some '\x7b' := by
  simp [braced]

namespace Attribute

variable {a : Attribute}

/-- The names are those of the codes, one by one. -/
def NamesOf (a : Attribute) (codes : List Int) (names : List String) : Prop :=
  List.Forall₂ (fun code name => a.codeOf? name = some code) codes names

/-- The text shows what the test asks for by name: one name for equality, and a list in braces
    for membership. -/
inductive ShownByName (a : Attribute) : Test → String → Prop
  | eq {code : Int} {name : String} : a.codeOf? name = some code →
      ShownByName a ⟨.eq, .integer code⟩ name
  | within {v : Value} {codes : List Int} {names : List String} :
      (⟨.within, v⟩ : Test).Codes codes → a.NamesOf codes names →
      ShownByName a ⟨.within, v⟩ (braced names)

/-- The test has an array of codes, and the list of their names is wider than a label may be. -/
def TooWide (a : Attribute) (t : Test) : Prop :=
  ∃ codes names, t = ⟨.within, .array (.ofIntegers codes)⟩ ∧ a.NamesOf codes names ∧
    labelWidth < (braced names).utf8ByteSize

theorem ShownByName.exists_braced {v : Value} {text : String}
    (h : a.ShownByName ⟨.within, v⟩ text) : ∃ names, text = braced names := by
  cases h with
  | within _ _ => exact ⟨_, rfl⟩

/-! ### Names of codes -/

theorem codeLabel_of_codeOf? (ha : a.WellFormed) (hdense : a.Dense) {code : Int} {name : String}
    (h : a.codeOf? name = some code) : a.codeLabel code = name := by
  rw [codeLabel, (hdense.nameOf?_eq_some_iff ha).mpr h, Option.getD_some]

theorem namesOf_map_codeLabel (ha : a.WellFormed) (hdense : a.Dense) {codes : List Int}
    (h : ∀ code ∈ codes, a.HasCode code) : a.NamesOf codes (codes.map a.codeLabel) := by
  rw [NamesOf, List.forall₂_map_right_iff, List.forall₂_same]
  intro code hcode
  obtain ⟨name, hname⟩ := h code hcode
  rw [codeLabel_of_codeOf? ha hdense hname, hname]

/-- The names of codes are determined. -/
theorem NamesOf.eq_map (ha : a.WellFormed) (hdense : a.Dense) {codes : List Int}
    {names : List String} (h : a.NamesOf codes names) : names = codes.map a.codeLabel := by
  induction h with
  | nil => rfl
  | cons hname _ ih => rw [List.map_cons, codeLabel_of_codeOf? ha hdense hname, ih]

theorem HasCode.isEnumerated (ha : a.WellFormed) {code : Int} (h : a.HasCode code) :
    a.isEnumerated = true := by
  obtain ⟨name, hname⟩ := h
  exact ha.enumerated_iff.mpr (List.ne_nil_of_mem (ha.codeOf?_eq_some_iff.mp hname))

theorem tooWide_array_iff (ha : a.WellFormed) (hdense : a.Dense) {codes : List Int}
    (h : ∀ code ∈ codes, a.HasCode code) :
    a.TooWide ⟨.within, .array (.ofIntegers codes)⟩ ↔
      labelWidth < (braced (codes.map a.codeLabel)).utf8ByteSize := by
  constructor
  · rintro ⟨codes', names, heq, hnames, hwide⟩
    simp only [Test.mk.injEq, true_and, Value.array.injEq] at heq
    rw [ValueArray.ofIntegers_injective heq, ← hnames.eq_map ha hdense]
    exact hwide
  · intro hwide
    exact ⟨codes, _, rfl, namesOf_map_codeLabel ha hdense h, hwide⟩

/-! ### Labels -/

theorem testLabel_eq (ha : a.WellFormed) (hdense : a.Dense) {code : Int} (h : a.HasCode code) :
    a.ShownByName ⟨.eq, .integer code⟩ (a.testLabel ⟨.eq, .integer code⟩) := by
  obtain ⟨name, hname⟩ := h
  have hlabel : a.testLabel ⟨.eq, .integer code⟩ = name := by
    simp only [testLabel, HasCode.isEnumerated ha ⟨name, hname⟩, if_true]
    exact codeLabel_of_codeOf? ha hdense hname
  rw [hlabel]
  exact .eq hname

theorem testLabel_mask (ha : a.WellFormed) (hdense : a.Dense) {m : Bitmask}
    (h : ∀ code ∈ m.codes, a.HasCode code) :
    a.ShownByName ⟨.within, .mask m⟩ (a.testLabel ⟨.within, .mask m⟩) :=
  .within (.mask m) (namesOf_map_codeLabel ha hdense h)

theorem testLabel_array (ha : a.WellFormed) {codes : List Int} (h : SetOf a codes) :
    a.testLabel ⟨.within, .array (.ofIntegers codes)⟩ =
      if (braced (codes.map a.codeLabel)).utf8ByteSize ≤ labelWidth then
        braced (codes.map a.codeLabel)
      else (ValueArray.ofIntegers codes).displayWithin labelWidth := by
  obtain ⟨code, hcode⟩ := List.exists_mem_of_ne_nil codes h.ne_nil
  simp only [testLabel, HasCode.isEnumerated ha (h.hasCode code hcode), if_true,
    ValueArray.ofIntegers, List.map_map, Function.comp_def, scalarLabel]
  rfl

/-- **Labels show codes by name**, unless the list of names is too wide. -/
theorem shownByName_or_tooWide (ha : a.WellFormed) (hdense : a.Dense) {t : Test}
    (h : Asks a (some t)) :
    (¬ a.TooWide t ∧ a.ShownByName t (a.testLabel t)) ∨
      (a.TooWide t ∧ ¬ a.ShownByName t (a.testLabel t) ∧
        ∃ codes, t = ⟨.within, .array (.ofIntegers codes)⟩ ∧ ¬ FitMask codes ∧
          a.testLabel t = (ValueArray.ofIntegers codes).displayWithin labelWidth) := by
  have hno : ∀ {t : Test}, (∀ codes, t ≠ ⟨.within, .array (.ofIntegers codes)⟩) →
      ¬ a.TooWide t := by
    rintro t hne ⟨codes, names, heq, -⟩
    exact hne codes heq
  cases h with
  | value hcode => exact .inl ⟨hno (by simp), testLabel_eq ha hdense hcode⟩
  | @set codes hset =>
    rcases subsetTest_cases codes with
      ⟨code, rfl, htest⟩ | ⟨-, -, mask, hmask, htest⟩ | ⟨hfit, htest⟩
    · rw [htest]
      exact .inl ⟨hno (by simp), testLabel_eq ha hdense (hset.hasCode code (by simp))⟩
    · have hcodes : ∀ code ∈ mask.codes, a.HasCode code := by
        intro code hcode
        rw [Bitmask.mem_codes_iff, Bitmask.contains_of_ofCodes hmask] at hcode
        exact hset.hasCode code hcode
      rw [htest]
      exact .inl ⟨hno (by simp), testLabel_mask ha hdense hcodes⟩
    · rw [htest, tooWide_array_iff ha hdense hset.hasCode, testLabel_array ha hset]
      split
      · rename_i hfits
        have hnames := namesOf_map_codeLabel ha hdense hset.hasCode
        exact .inl ⟨by omega, .within (.array codes) hnames⟩
      · rename_i hwide
        refine .inr ⟨by omega, ?_, codes, rfl, hfit, rfl⟩
        intro hshown
        obtain ⟨names, hnames⟩ := hshown.exists_braced
        have hhead := (ValueArray.ofIntegers codes).head?_displayWithin labelWidth
        rw [hnames, head?_braced] at hhead
        revert hhead
        decide

end Attribute

/-! ### Lines -/

/-- **Printed trees name values, not codes**, wherever the names are not too many.  Over a schema
    that was read, and bound in any way, the line of every branch that tests something shows the
    values of the test by name, unless the test has an array of codes whose names make too wide
    a list.  Then it shows bare codes, and the set does not fit a mask. -/
theorem label_shown_by_name_iff {names file : SourceFile} {origin schema : Schema}
    {tree : DecisionTree} (read : Names.parse names = .ok origin) (bound : origin.Rebound schema)
    (h : TreeFile.parse schema file = .ok tree) {path : List Nat} {b : Branch Node} {t : Test}
    (hb : tree.root.branchAt? path = some b) (ht : b.test = some t) :
    ∃ a shown line, schema.attributeById? b.attr = some a ∧
      tree.root.row schema path = some line ∧ line ∈ tree.lines schema ∧
      line = tree.root.guides path ++ connector (tree.root.isLast path) ++
        (a.name ++ " " ++ t.condition.symbol ++ " " ++ shown) ++ schema.outcome b.child ∧
      (a.ShownByName t shown ↔ ¬ a.TooWide t) ∧
      (a.TooWide t → ∃ codes, t = ⟨.within, .array (.ofIntegers codes)⟩ ∧ ¬ FitMask codes ∧
        shown = (ValueArray.ofIntegers codes).displayWithin labelWidth) := by
  have hschema := Schema.asRead_of_parse read bound
  obtain ⟨a, ha, hattr, hasks⟩ := asked_of_parse hschema.wellFormed h hb
  rw [ht] at hasks
  have hmem := List.mem_of_getElem? ha
  have hcases := Attribute.shownByName_or_tooWide (hschema.wellFormed.attributes.each a hmem)
    (hschema.dense a hmem) hasks
  have hlabel : schema.branchLabel b =
      a.name ++ " " ++ t.condition.symbol ++ " " ++ a.testLabel t := by
    rw [Schema.branchLabel, hattr, ha, ht]
    rfl
  have hrow : tree.root.row schema path = some (tree.root.guides path ++
      connector (tree.root.isLast path) ++ schema.branchLabel b ++ schema.outcome b.child) := by
    rw [Node.row_eq, hb, Option.map_some]
  refine ⟨a, a.testLabel t, _, by rw [hattr, ha], hrow, ?_, by rw [hlabel], ?_, ?_⟩
  · rw [tree.lines_eq]
    exact List.mem_cons_of_mem _ (Node.mem_lines_iff.mpr ⟨path, hrow⟩)
  · rcases hcases with ⟨hnarrow, hshown⟩ | ⟨hwide, hbare, -⟩
    · exact iff_of_true hshown hnarrow
    · exact iff_of_false hbare (not_not_intro hwide)
  · intro hwide
    rcases hcases with ⟨hnarrow, -⟩ | ⟨-, -, hcodes⟩
    · exact absurd hwide hnarrow
    · exact hcodes

/-- The test of the second branch of `policyTree`, on a set of two values. -/
def midOrHigh : Test := ⟨.within, .mask ⟨6⟩⟩

theorem label_of_policyTree_by_name :
    Names.parse policyNames = .ok policySchema ∧ policySchema.Rebound policySchema ∧
      TreeFile.parse policySchema policyTree = .ok (policy .unbound .unbound) ∧
      ((policy .unbound .unbound).root.branchAt? [1]).bind (·.test) = some midOrHigh ∧
      ∃ a shown, policySchema.attribute? "count" = some a ∧ ¬ a.TooWide midOrHigh ∧
        a.ShownByName midOrHigh shown ∧
        "└── count in " ++ shown ∈ (policy .unbound .unbound).lines policySchema := by
  have htree : TreeFile.parse policySchema policyTree = .ok (policy .unbound .unbound) :=
    parse_policyTree .refl
  have hb : (policy .unbound .unbound).root.branchAt? [1] = some ⟨⟨2⟩, .unbound, midOrHigh, .test
      [⟨⟨2⟩, .unbound, some ⟨.eq, .integer 0⟩, .terminal (.integer 1)⟩,
        ⟨⟨2⟩, .unbound, some ⟨.eq, .integer 1⟩, .terminal (.integer 2)⟩]⟩ := rfl
  obtain ⟨a, shown, line, ha, -, hline, hparts, hshown, -⟩ :=
    label_shown_by_name_iff parse_policyNames .refl htree hb rfl
  obtain rfl : _ = a := Option.some.inj ha
  have hnarrow : ¬ Attribute.TooWide
      ⟨"count", ⟨2⟩, .enumerated, .unbound, [("low", 0), ("mid", 1), ("high", 2)]⟩ midOrHigh := by
    rintro ⟨codes, names, heq, -⟩
    simp [midOrHigh] at heq
  have htext : "└── count in " ++ shown =
      "" ++ "└── " ++ ("count" ++ " " ++ "in" ++ " " ++ shown) ++ "" := by
    simp [← String.toList_inj]
  refine ⟨parse_policyNames, .refl, htree, rfl, _, shown, rfl, hnarrow, hshown.mpr hnarrow, ?_⟩
  rw [htext]
  exact hparts ▸ hline

/-! ### A list of names that is too wide -/

/-- More values than a mask has bits, the last two with long names. -/
def letters : List String :=
  "abcdefghijklmnopqrstuvwxyzABCDEFGHIJKLMNOPQRSTUVWXYZ0123456789+".toList.map String.singleton ++
    ["ligature-of-a-and-e-in-old-prints", "ligature-of-o-and-e-in-old-prints"]

def letterNames : SourceFile where
  name := "letter.names"
  content := "kind.
kind: vowel, other.
letter: a,b,c,d,e,f,g,h,i,j,k,l,m,n,o,p,q,r,s,t,u,v,w,x,y,z,
A,B,C,D,E,F,G,H,I,J,K,L,M,N,O,P,Q,R,S,T,U,V,W,X,Y,Z,0,1,2,3,4,5,6,7,8,9,+,
ligature-of-a-and-e-in-old-prints,
ligature-of-o-and-e-in-old-prints.
"

def letterSchema : Schema where
  attributes :=
    [⟨"kind", ⟨0⟩, .enumerated, .unbound, [("vowel", 0), ("other", 1)]⟩,
      ⟨"letter", ⟨1⟩, .enumerated, .unbound, Names.numbered letters⟩]
  decision := ⟨0⟩
  decisionNames := ["vowel", "other"]
  decision_defined := by decide

def letterTree : SourceFile where
  name := "letter.tree"
  content := "type=\"3\" att=\"letter\" forks=\"1\"
elts=\"ligature-of-a-and-e-in-old-prints\",\"ligature-of-o-and-e-in-old-prints\"
type=\"0\" class=\"vowel\"
"

/-- What `letterTree` says. -/
def ligatures : DecisionTree where
  name := "kind"
  decisionType := .integer
  top := some <| .test
    [⟨⟨1⟩, .unbound, some ⟨.within, .array (.ofIntegers [63, 64])⟩, .terminal (.integer 0)⟩]

set_option maxRecDepth 4000 in
theorem parse_letterNames : Names.parse letterNames = .ok letterSchema := by
  have htext : letterNames.content.toList = _ := String.toList_ofList
  unfold Names.parse
  rw [htext]
  decide +kernel

set_option maxRecDepth 4000 in
theorem parse_letterTree : TreeFile.parse letterSchema letterTree = .ok ligatures := by
  have htext : letterTree.content.toList = _ := String.toList_ofList
  unfold TreeFile.parse
  rw [htext]
  decide +kernel

/-- The set of both ligatures is shown by their codes. -/
theorem not_every_label_names_its_codes :
    Names.parse letterNames = .ok letterSchema ∧
      TreeFile.parse letterSchema letterTree = .ok ligatures ∧
      ligatures.lines letterSchema = ["kind", "└── letter in [63, 64] => vowel"] ∧
      (ligatures.root.branchAt? [0]).bind (·.test) =
        some ⟨.within, .array (.ofIntegers [63, 64])⟩ ∧
      ∀ a, letterSchema.attribute? "letter" = some a →
        ¬ a.ShownByName ⟨.within, .array (.ofIntegers [63, 64])⟩ "[63, 64]" := by
  refine ⟨parse_letterNames, parse_letterTree, by decide +kernel, rfl, fun a _ hshown => ?_⟩
  obtain ⟨names, hnames⟩ := hshown.exists_braced
  have hhead := head?_braced names
  rw [← hnames] at hhead
  revert hhead
  decide

end DecisionModel
