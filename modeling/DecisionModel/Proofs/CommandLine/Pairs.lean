import Mathlib
import DecisionModel.CommandLine.Run
import DecisionModel.Proofs.Names.Schema

/-!
# Records from arguments

An argument is split at its first equals sign.  Names in schema text may have equals signs too:
in the name of a value they do no harm, but an attribute with one in its name cannot be given.
-/

namespace DecisionModel.CommandLine

/-! ### Splitting -/

theorem splitPair?_of_toList {arg : String} {before after : List Char}
    (h : arg.toList = before ++ '=' :: after) (hbefore : '=' ∉ before) :
    splitPair? arg = some (String.ofList before, String.ofList after) := by
  have hkeep : ∀ c ∈ before, (c != '=') = true := by
    intro c hc
    simpa using fun hsign : c = '=' => hbefore (hsign ▸ hc)
  have htake : (before ++ '=' :: after).takeWhile (· != '=') = before := by
    rw [List.takeWhile_append_of_pos hkeep]
    simp
  have hdrop : (before ++ '=' :: after).dropWhile (· != '=') = '=' :: after := by
    rw [List.dropWhile_append_of_pos hkeep]
    simp
  rw [splitPair?, h, List.span_eq_takeWhile_dropWhile, htake, hdrop]

theorem toList_pair (name value : String) :
    (name ++ "=" ++ value).toList = name.toList ++ '=' :: value.toList := by
  simp [String.toList_append]

/-- A name without an equals sign comes back. -/
theorem splitPair?_of_notMem {name : String} (h : '=' ∉ name.toList) (value : String) :
    splitPair? (name ++ "=" ++ value) = some (name, value) := by
  rw [splitPair?_of_toList (toList_pair name value) h, String.ofList_toList, String.ofList_toList]

/-- A name with an equals sign is cut off before it. -/
theorem splitPair?_of_mem {name : String} (h : '=' ∈ name.toList) (value : String) :
    ∃ start rest, start ≠ name ∧ splitPair? (name ++ "=" ++ value) = some (start, rest) := by
  obtain ⟨before, after, hname, hbefore⟩ := List.eq_append_cons_of_mem h
  have hpair := toList_pair name value
  rw [hname, List.append_assoc, List.cons_append] at hpair
  refine ⟨String.ofList before, _, ?_, splitPair?_of_toList hpair hbefore⟩
  rintro rfl
  rw [String.toList_ofList] at h
  exact hbefore h

/-! ### Reading a pair -/

variable {schema : Schema} {a b : Attribute} {arg : String}

theorem readPair_of_codeOf? {name value : String} {code : Int}
    (hsplit : splitPair? arg = some (name, value)) (hname : schema.attribute? name = some a)
    (henum : a.isEnumerated = true) (hcode : a.codeOf? value = some code) :
    readPair schema arg = .ok (a, .integer code) := by
  simp only [readPair, hsplit, hname, henum, if_true, hcode]

/-- A pair is for the attribute that it names. -/
theorem exists_split_of_readPair {value : Value} (h : readPair schema arg = .ok (b, value)) :
    ∃ name text, splitPair? arg = some (name, text) ∧ schema.attribute? name = some b := by
  unfold readPair at h
  split at h
  · cases h
  · rename_i name text hsplit
    split at h
    · cases h
    · rename_i a hname
      refine ⟨name, text, hsplit, ?_⟩
      split at h
      · split at h
        · cases h
          exact hname
        · cases h
      · split at h
        · cases h
          exact hname
        · cases h

/-! ### The record -/

/-- A width with room for the slot of one more attribute. -/
def widen (width : Nat) (a : Attribute) : Nat :=
  match a.slot with
  | .index n => max width (n + 1)
  | .unbound => width

theorem recordWidth_eq (schema : Schema) : recordWidth schema = schema.attributes.foldl widen 0 :=
  rfl

theorem le_foldl_widen (attributes : List Attribute) (width : Nat) :
    width ≤ attributes.foldl widen width := by
  induction attributes generalizing width with
  | nil => exact Nat.le_refl width
  | cons a rest ih =>
    refine Nat.le_trans ?_ (ih (widen width a))
    unfold widen
    split
    · exact Nat.le_max_left _ _
    · exact Nat.le_refl width

/-- The record has room for every slot of the schema. -/
theorem slot_lt_recordWidth {n : Nat} (ha : a ∈ schema.attributes) (hslot : a.slot = .index n) :
    n < recordWidth schema := by
  obtain ⟨before, after, hattributes⟩ := List.append_of_mem ha
  rw [recordWidth_eq, hattributes, List.foldl_append, List.foldl_cons]
  refine Nat.lt_of_lt_of_le ?_ (le_foldl_widen after _)
  simp only [widen, hslot]
  omega

/-- The record with one value. -/
theorem sparse_set_replicate {n width : Nat} (h : n < width) (value : Value) (slot : Slot) :
    Record.sparse ((List.replicate width none).set n (some value)) slot =
      if slot = .index n then some value else none := by
  cases slot with
  | unbound => rfl
  | index i =>
    by_cases hi : n = i
    · subst hi
      simp [Record.sparse, h]
    · by_cases hwidth : i < width
      · simp [Record.sparse, hi, hwidth, Ne.symm hi]
      · simp [Record.sparse, hwidth, Ne.symm hi]

theorem buildRecord_singleton {value : Value} {n : Nat}
    (h : readPair schema arg = .ok (a, value)) (hslot : a.slot = .index n) :
    buildRecord schema [arg] =
      (⟨(List.replicate (recordWidth schema) none).set n (some value), ""⟩, none) := by
  simp only [buildRecord, addPairs, addPair, h, hslot]

theorem exists_readPair_of_buildRecord {r : RecordBuild} (h : buildRecord schema [arg] = (r, none)) :
    ∃ a value, readPair schema arg = .ok (a, value) := by
  rcases hread : readPair schema arg with e | ⟨a, value⟩
  · simp only [buildRecord, addPairs, addPair, hread, Prod.mk.injEq, reduceCtorEq, and_false] at h
  · exact ⟨a, value, rfl⟩

/-! ### Attributes that can be given -/

/-- The argument alone makes the record that has the code at the slot of the attribute and
    nothing elsewhere, and nothing is said of it. -/
def Gives (schema : Schema) (arg : String) (a : Attribute) (code : Int) : Prop :=
  ∃ values, buildRecord schema [arg] = (⟨values, ""⟩, none) ∧
    ∀ slot, Record.sparse values slot = if slot = a.slot then some (.integer code) else none

theorem slot_of_mem_bindById (ha : a ∈ schema.bindById.attributes) : a.slot = .index a.id.index := by
  rw [Schema.bindById, Schema.mapAttributes_attributes] at ha
  obtain ⟨origin, -, rfl⟩ := List.mem_map.mp ha
  rfl

theorem gives_of_notMem (hs : schema.bindById.WellFormed) (ha : a ∈ schema.bindById.attributes)
    (henum : a.isEnumerated = true) {value : String} {code : Int}
    (hcode : a.codeOf? value = some code) (hname : '=' ∉ a.name.toList) :
    Gives schema.bindById (a.name ++ "=" ++ value) a code := by
  have hslot := slot_of_mem_bindById ha
  have hfound : schema.bindById.attribute? a.name = some a :=
    (find?_key_eq_some_iff hs.attributes.names_distinct).mpr ⟨ha, rfl⟩
  have hread := readPair_of_codeOf? (splitPair?_of_notMem hname value) hfound henum hcode
  refine ⟨_, buildRecord_singleton hread hslot, ?_⟩
  rw [hslot]
  exact sparse_set_replicate (slot_lt_recordWidth ha hslot) _

/-- What is cut off before an equals sign in the name of an attribute names none or another, so
    that the slot of the attribute stays empty. -/
theorem not_gives_of_mem (hs : schema.bindById.WellFormed) (ha : a ∈ schema.bindById.attributes)
    {value : String} {code : Int} (hname : '=' ∈ a.name.toList) :
    ¬ Gives schema.bindById (a.name ++ "=" ++ value) a code := by
  rintro ⟨values, hbuild, hvalues⟩
  obtain ⟨b, given, hread⟩ := exists_readPair_of_buildRecord hbuild
  obtain ⟨name, text, hsplit, hfound⟩ := exists_split_of_readPair hread
  obtain ⟨start, rest, hstart, hsplit'⟩ := splitPair?_of_mem hname value
  cases hsplit.symm.trans hsplit'
  obtain ⟨hb, rfl⟩ := (find?_key_eq_some_iff hs.attributes.names_distinct).mp hfound
  have hslot := slot_of_mem_bindById hb
  have hother : a.slot ≠ .index b.id.index := by
    rw [slot_of_mem_bindById ha]
    intro hsame
    have hid : a.id.index = b.id.index := Slot.index.inj hsame
    have hab := (hs.attributes.getElem?_id ha).symm.trans (hid ▸ hs.attributes.getElem?_id hb)
    exact hstart (congrArg Attribute.name (Option.some.inj hab)).symm
  cases hbuild.symm.trans (buildRecord_singleton hread hslot)
  have hmissing := sparse_set_replicate (slot_lt_recordWidth hb hslot) given a.slot
  rw [hvalues a.slot, if_pos rfl, if_neg hother] at hmissing
  cases hmissing

/-- **An attribute can be given with any of its values exactly if** its name has no equals
    sign. -/
theorem gives_iff_name_has_no_sign {file : SourceFile} {schema : Schema}
    (hparse : Names.parse file = .ok schema) {a : Attribute} (ha : a ∈ schema.bindById.attributes)
    (henum : a.isEnumerated = true) {value : String} {code : Int}
    (hcode : a.codeOf? value = some code) :
    Gives schema.bindById (a.name ++ "=" ++ value) a code ↔ '=' ∉ a.name.toList := by
  have hs : schema.bindById.WellFormed :=
    (Schema.Rebound.bindById .refl).wellFormed (Names.built_of_parse hparse).wellFormed
  constructor
  · intro hgives hname
    exact not_gives_of_mem hs ha hname hgives
  · intro hname
    exact gives_of_notMem hs ha henum hcode hname

/-- A schema with equals signs in the name of a value and in the name of an attribute. -/
def signNames : SourceFile where
  name := "m.names"
  content := "mode.\nmode: p=q, r.\na=b: x, y.\n"

def modeAttribute : Attribute := ⟨"mode", ⟨0⟩, .enumerated, .index 0, [("p=q", 0), ("r", 1)]⟩

def signAttribute : Attribute := ⟨"a=b", ⟨1⟩, .enumerated, .index 1, [("x", 0), ("y", 1)]⟩

def signSchema : Schema where
  attributes := [modeAttribute.bind .unbound, signAttribute.bind .unbound]
  decision := ⟨0⟩
  decisionNames := ["p=q", "r"]
  decision_defined := by decide

theorem parse_signNames : Names.parse signNames = .ok signSchema := by cbv

theorem gives_mode_only :
    Names.parse signNames = .ok signSchema ∧
      Gives signSchema.bindById (modeAttribute.name ++ "=" ++ "p=q") modeAttribute 0 ∧
      ¬ Gives signSchema.bindById (signAttribute.name ++ "=" ++ "x") signAttribute 0 := by
  have hmode : Gives signSchema.bindById (modeAttribute.name ++ "=" ++ "p=q") modeAttribute 0 ↔
      '=' ∉ modeAttribute.name.toList :=
    gives_iff_name_has_no_sign parse_signNames (by decide) rfl (by decide)
  have hsign : Gives signSchema.bindById (signAttribute.name ++ "=" ++ "x") signAttribute 0 ↔
      '=' ∉ signAttribute.name.toList :=
    gives_iff_name_has_no_sign parse_signNames (by decide) rfl (by decide)
  exact ⟨parse_signNames, hmode.mpr (by decide), fun h => hsign.mp h (by decide)⟩

/-- The attribute `a=b` cannot be given: its argument is read as one for `a`. -/
theorem not_every_attribute_can_be_given :
    ¬ ∀ (file : SourceFile) (schema : Schema), Names.parse file = .ok schema →
      ∀ a ∈ schema.bindById.attributes, a.isEnumerated = true →
        ∀ value code, a.codeOf? value = some code →
          Gives schema.bindById (a.name ++ "=" ++ value) a code := by
  intro h
  obtain ⟨values, hbuild, -⟩ := h signNames signSchema parse_signNames signAttribute (by decide) rfl
    "x" 0 (by decide)
  have hfault : (buildRecord signSchema.bindById [signAttribute.name ++ "=" ++ "x"]).2 =
      some (.unknownAttribute "a") := by
    cbv
  rw [hbuild] at hfault
  cases hfault

end DecisionModel.CommandLine
