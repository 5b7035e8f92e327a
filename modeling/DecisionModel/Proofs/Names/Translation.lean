import Mathlib
import DecisionModel.Proofs.Names.Layout
import DecisionModel.Proofs.Schema.Runs

/-!
# Translating codes and names

A schema knows the names of its decision values twice: in a table by code, and in the list of
values that is searched for a code and looked up for a name.  However the schema was built, the
two agree.  Values of other attributes may share a code, so a name that is found for a code leads
back to the code but not every name is found.  In a schema that is read all codes are distinct, as
values are numbered in the order they come first.
-/

namespace DecisionModel

namespace Schema

/-- All ways to translate codes and names of decision values agree. -/
structure TranslatesDecision (s : Schema) (decision : String) : Prop where
  search : ∀ code, s.decisionAttribute.nameOf? code = s.decisionName? code
  valueName : ∀ code, s.valueName decision code = match s.decisionName? code with
    | some name => .ok name
    | none => .error (.unknownCode decision code)
  defined_iff : ∀ code,
    (s.decisionName? code).isSome = true ↔ 0 ≤ code ∧ code < s.decisionCount
  integerValue : ∀ value, s.integerValue decision value = match s.decisionCode? value with
    | some code => .ok code
    | none => .error (.unknownValue decision value)
  inverse : ∀ code value, s.decisionName? code = some value ↔ s.decisionCode? value = some code

/-- The attribute has the listed values, numbered in the order they come first, and translates
    between them and their numbers. -/
structure Numbers (s : Schema) (attr : String) (values : List String) : Prop where
  listing : s.attributeValues attr = .ok (Names.numbered values)
  defined_iff : ∀ code,
    (∃ value, s.valueName attr code = .ok value) ↔ 0 ≤ code ∧ code < values.eraseDups.length
  inverse : ∀ code value, s.valueName attr code = .ok value ↔ s.integerValue attr value = .ok code

variable {s : Schema}

theorem WellFormed.translatesDecision (h : s.WellFormed) :
    s.TranslatesDecision s.decisionAttribute.name where
  search := h.nameOf?_decisionAttribute
  valueName := by
    intro code
    have hname := h.valueName_of_mem s.decisionAttribute_mem h.decision_enumerated code
    rw [h.nameOf?_decisionAttribute] at hname
    exact hname
  defined_iff := fun _ => isSome_decisionName?_iff
  integerValue := h.integerValue_of_mem s.decisionAttribute_mem h.decision_enumerated
  inverse := fun _ _ => h.decisionName?_eq_some_iff_decisionCode?

/-- An enumerated attribute with dense codes translates both ways. -/
theorem WellFormed.numbers_of_dense (h : s.WellFormed) {a : Attribute} (ha : a ∈ s.attributes)
    (enumerated : a.isEnumerated = true) (dense : a.Dense) {values : List String}
    (hvalues : a.values = Names.numbered values) : s.Numbers a.name values where
  listing := by
    rw [attributeValues, h.find_eq_ok_iff.mpr ⟨ha, rfl⟩, ← hvalues, ← dense.sortedValues_eq]
    rfl
  defined_iff := by
    intro code
    have hcount : a.valueCount = values.eraseDups.length := by
      rw [← Names.map_fst_numbered, ← hvalues, List.length_map, Attribute.valueCount]
    rw [← hcount, ← dense.exists_nameOf?_iff]
    apply exists_congr
    intro value
    exact h.valueName_of_mem_eq_ok_iff ha enumerated
  inverse := by
    intro code value
    rw [h.valueName_of_mem_eq_ok_iff ha enumerated, h.integerValue_of_mem_eq_ok_iff ha enumerated]
    exact dense.nameOf?_eq_some_iff (h.attributes.each a ha)

end Schema

namespace Names

/-- An enumerated attribute that is read has the values of its definition. -/
theorem exists_definition_of_mem {ss : List Statement} {a : Attribute}
    (ha : a ∈ attributesOf (definitions ss)) (enumerated : a.isEnumerated = true) :
    ∃ m values, (m, values) ∈ definitions ss ∧ m.name = a.name ∧ a.values = numbered values := by
  obtain ⟨i, m, values, hi, rfl⟩ := mem_attributesOf.mp ha
  have hmem := List.mem_of_getElem? hi
  rw [attributeOf_eq m.name ⟨i⟩ (values_ne_nil hmem)] at enumerated ⊢
  split at enumerated
  · cases enumerated
  · rename_i hvalues
    rw [if_neg hvalues]
    exact ⟨m, values, hmem, rfl, rfl⟩

theorem numbers_of_parse {file : SourceFile} {s : Schema} (h : parse file = .ok s) :
    ∃ ss, ConsistsOf file ss ∧ Distinct ss ∧
      ∀ a ∈ s.attributes, a.isEnumerated = true →
        ∃ m values, (m, values) ∈ definitions ss ∧ m.name = a.name ∧ s.Numbers a.name values := by
  obtain ⟨ss, htokens, hdistinct, hattributes⟩ := exists_statements_of_parse h
  refine ⟨ss, htokens, hdistinct, ?_⟩
  intro a ha henumerated
  obtain ⟨m, values, hmem, hname, hvalues⟩ :=
    exists_definition_of_mem (hattributes ▸ ha) henumerated
  have hwf := (built_of_parse h).wellFormed
  exact ⟨m, values, hmem, hname,
    hwf.numbers_of_dense ha henumerated (dense_of_parse h a ha) hvalues⟩

end Names

/-- **Codes and names translate back and forth.**  In every schema that is finished behind any
    calls, all ways to translate those of the decision agree, and a name that is found for a code
    of any attribute leads back to the code.  In every schema that is read, each enumerated
    attribute has the values of its definition, numbered in the order they come first, and
    translates both ways between them and their numbers. -/
theorem names_and_codes_agree :
    (∀ (b : SchemaBuilder) (decision : String) (s : Schema), b.Reachable →
      b.finish decision = .ok s →
      s.TranslatesDecision decision ∧
        ∀ attr code value, s.valueName attr code = .ok value →
          s.integerValue attr value = .ok code) ∧
    ∀ (file : SourceFile) (s : Schema), Names.parse file = .ok s →
      ∃ ss, Names.ConsistsOf file ss ∧ Names.Distinct ss ∧
        ∀ a ∈ s.attributes, a.isEnumerated = true →
          ∃ m values, (m, values) ∈ Names.definitions ss ∧ m.name = a.name ∧
            s.Numbers a.name values := by
  constructor
  · intro b decision s hb hfinish
    have hwf : s.WellFormed := Schema.wellFormed_of_finish hb hfinish
    obtain ⟨-, rfl, -⟩ := SchemaBuilder.finish_ok hfinish
    refine ⟨hwf.translatesDecision, ?_⟩
    intro attr code value hname
    exact hwf.integerValue_of_valueName hname
  · intro file s hparse
    exact Names.numbers_of_parse hparse

/-- The codes of gears are registered out of order, and two modes share a code. -/
def gearCalls : List SchemaBuilder.Call :=
  [.define "gear", .define "mode", .insertValue ⟨0⟩ "high" 1, .insertValue ⟨0⟩ "low" 0,
    .insertValue ⟨1⟩ "eco" 3, .insertValue ⟨1⟩ "save" 3]

def gearSchema : Schema where
  attributes :=
    [⟨"gear", ⟨0⟩, .enumerated, .unbound, [("high", 1), ("low", 0)]⟩,
      ⟨"mode", ⟨1⟩, .enumerated, .unbound, [("eco", 3), ("save", 3)]⟩]
  decision := ⟨0⟩
  decisionNames := ["low", "high"]
  decision_defined := by decide

/-- The name of a mode whose code another one has too is not found for the code. -/
example : gearSchema.integerValue "mode" "save" = .ok 3 ∧
    gearSchema.valueName "mode" 3 = .ok "eco" := by decide

open Names in
theorem names_and_codes_agree_on_gears :
    (SchemaBuilder.run gearCalls).Reachable ∧
      (SchemaBuilder.run gearCalls).finish "gear" = .ok gearSchema ∧
      gearSchema.TranslatesDecision "gear" ∧
      gearSchema.valueName "mode" 3 = .ok "eco" ∧
      gearSchema.integerValue "mode" "eco" = .ok 3 ∧
      parse spacedNames = .ok mixerSchema ∧
      ∃ ss, ConsistsOf spacedNames ss ∧ Distinct ss ∧
        ∃ m values, (m, values) ∈ definitions ss ∧ m.name = "state" ∧
          mixerSchema.Numbers "state" values := by
  have hreachable := SchemaBuilder.reachable_run gearCalls
  have hfinish : (SchemaBuilder.run gearCalls).finish "gear" = .ok gearSchema := by decide
  have hname : gearSchema.valueName "mode" 3 = .ok "eco" := by decide
  have hparse : parse spacedNames = .ok mixerSchema := by cbv
  obtain ⟨hbuilt, hread⟩ := names_and_codes_agree
  obtain ⟨hdecision, hback⟩ := hbuilt _ _ _ hreachable hfinish
  obtain ⟨ss, htokens, hdistinct, hnumbers⟩ := hread _ _ hparse
  exact ⟨hreachable, hfinish, hdecision, hname, hback _ _ _ hname, hparse, ss, htokens, hdistinct,
    hnumbers _ (.head _) rfl⟩

end DecisionModel
