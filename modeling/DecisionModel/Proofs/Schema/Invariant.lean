import DecisionModel.Proofs.Schema.Finish

/-!
# What every schema satisfies

A schema comes from a builder and may then be bound to slots, any number of times.  Such a
schema has well-formed attributes, and its decision names are the table of its decision
attribute.  Binding changes nothing but slots.
-/

namespace DecisionModel

namespace Attribute

@[simp] theorem bind_name (a : Attribute) (slot : Slot) : (a.bind slot).name = a.name := rfl

@[simp] theorem bind_id (a : Attribute) (slot : Slot) : (a.bind slot).id = a.id := rfl

@[simp] theorem bind_kind (a : Attribute) (slot : Slot) : (a.bind slot).kind = a.kind := rfl

@[simp] theorem bind_slot (a : Attribute) (slot : Slot) : (a.bind slot).slot = slot := rfl

@[simp] theorem bind_values (a : Attribute) (slot : Slot) : (a.bind slot).values = a.values := rfl

/-- Attributes that differ in nothing but their slots. -/
def SameButSlot (a b : Attribute) : Prop := b = a.bind b.slot

namespace SameButSlot

variable {a b c : Attribute}

theorem refl (a : Attribute) : a.SameButSlot a := rfl

theorem bind (a : Attribute) (slot : Slot) : a.SameButSlot (a.bind slot) := rfl

theorem name (h : a.SameButSlot b) : b.name = a.name := by rw [h]; rfl

theorem id (h : a.SameButSlot b) : b.id = a.id := by rw [h]; rfl

theorem kind (h : a.SameButSlot b) : b.kind = a.kind := by rw [h]; rfl

theorem values (h : a.SameButSlot b) : b.values = a.values := by rw [h]; rfl

theorem isEnumerated (h : a.SameButSlot b) : b.isEnumerated = a.isEnumerated := by
  simp only [Attribute.isEnumerated, h.kind]

theorem codeOf? (h : a.SameButSlot b) (value : String) : b.codeOf? value = a.codeOf? value := by
  simp only [Attribute.codeOf?, h.values]

theorem trans (hab : a.SameButSlot b) (hbc : b.SameButSlot c) : a.SameButSlot c := by
  have hc : c = b.bind c.slot := hbc
  rw [hab] at hc
  exact hc

theorem wellFormed (h : a.SameButSlot b) (ha : a.WellFormed) : b.WellFormed where
  names_distinct := by rw [h.values]; exact ha.names_distinct
  enumerated_iff := by rw [h.isEnumerated, h.values]; exact ha.enumerated_iff

end SameButSlot

end Attribute

/-! ### The invariant -/

namespace Schema

structure WellFormed (s : Schema) : Prop where
  attributes : AttributesWellFormed s.attributes
  decision_enumerated : s.decisionAttribute.isEnumerated = true
  /-- There is a decision name for each decision value. -/
  count_eq : s.decisionNames.length = s.decisionAttribute.values.length
  /-- The decision names are those of the decision values, by code. -/
  decision_table : ∀ value code,
    (value, code) ∈ s.decisionAttribute.values ↔ s.decisionName? code = some value

theorem decisionName?_natCast (s : Schema) (i : Nat) :
    s.decisionName? (i : Int) = s.decisionNames[i]? := by
  rw [decisionName?, if_neg (by omega), Int.toNat_natCast]

theorem decisionName?_eq_some_iff {s : Schema} {code : Int} {value : String} :
    s.decisionName? code = some value ↔
      ∃ i : Nat, code = i ∧ s.decisionNames[i]? = some value := by
  constructor
  · intro h
    by_cases hneg : code < 0
    · simp [decisionName?, hneg] at h
    · refine ⟨code.toNat, by omega, ?_⟩
      simpa [decisionName?, hneg] using h
  · rintro ⟨i, rfl, hi⟩
    rw [decisionName?_natCast, hi]

theorem decisionAttribute_mem (s : Schema) : s.decisionAttribute ∈ s.attributes :=
  List.get_mem _ _

/-- A schema that was built has the invariant. -/
theorem wellFormed_of_finish {b : SchemaBuilder} (hb : b.Reachable) {decision : String}
    {s : Schema} (h : b.finish decision = .ok s) : s.WellFormed := by
  obtain ⟨hattributes, -, henumerated, hnames⟩ := SchemaBuilder.finish_ok h
  obtain ⟨hlength, htable⟩ := SchemaBuilder.namesByCode_ok hnames
  refine ⟨by rw [hattributes]; exact hb.wellFormed, henumerated, hlength, ?_⟩
  intro value code
  rw [htable value code, decisionName?_eq_some_iff]

/-! ### Codes of decisions -/

/-- **The codes of decisions** are the numbers below the number of decision values. -/
theorem WellFormed.decisionCode_bounds {s : Schema} (h : s.WellFormed) {value : String} {code : Int}
    (hcode : s.decisionCode? value = some code) :
    0 ≤ code ∧ code < s.decisionCount ∧ s.decisionName? code = some value := by
  have hmem : (value, code) ∈ s.decisionAttribute.values := mem_of_lookup_eq_some hcode
  have hname := (h.decision_table value code).mp hmem
  obtain ⟨i, rfl, hi⟩ := decisionName?_eq_some_iff.mp hname
  have hlt : i < s.decisionNames.length := (List.getElem?_eq_some_iff.mp hi).1
  refine ⟨by omega, ?_, hname⟩
  simpa [decisionCount] using hlt

/-! ### Binding -/

@[simp] theorem mapAttributes_attributes (s : Schema) (f : Attribute → Attribute) :
    (s.mapAttributes f).attributes = s.attributes.map f := rfl

@[simp] theorem mapAttributes_decisionNames (s : Schema) (f : Attribute → Attribute) :
    (s.mapAttributes f).decisionNames = s.decisionNames := rfl

@[simp] theorem mapAttributes_decisionAttribute (s : Schema) (f : Attribute → Attribute) :
    (s.mapAttributes f).decisionAttribute = f s.decisionAttribute := by
  simp [mapAttributes, decisionAttribute]

/-- A change to slots alone keeps the invariant. -/
theorem WellFormed.mapAttributes {s : Schema} (h : s.WellFormed) {f : Attribute → Attribute}
    (hf : ∀ a : Attribute, a.SameButSlot (f a)) : (s.mapAttributes f).WellFormed where
  attributes := by
    refine ⟨?_, ?_, ?_⟩
    · have hnames : (s.attributes.map f).map (·.name) = s.attributes.map (·.name) := by
        simp [Function.comp_def, (hf _).name]
      rw [mapAttributes_attributes, hnames]
      exact h.attributes.names_distinct
    · intro i b hb
      rw [mapAttributes_attributes, List.getElem?_map] at hb
      obtain ⟨a, ha, rfl⟩ := Option.map_eq_some_iff.mp hb
      rw [(hf a).id]
      exact h.attributes.id_eq i a ha
    · intro b hb
      rw [mapAttributes_attributes] at hb
      obtain ⟨a, ha, rfl⟩ := List.mem_map.mp hb
      exact (hf a).wellFormed (h.attributes.each a ha)
  decision_enumerated := by
    rw [mapAttributes_decisionAttribute, (hf _).isEnumerated]
    exact h.decision_enumerated
  count_eq := by
    rw [mapAttributes_decisionAttribute, mapAttributes_decisionNames, (hf _).values]
    exact h.count_eq
  decision_table := by
    rw [mapAttributes_decisionAttribute, (hf _).values]
    exact h.decision_table

/-- The function by which `bindSlot` changes attributes. -/
theorem sameButSlot_bindNamed (name : String) (slot : Slot) (a : Attribute) :
    a.SameButSlot (if a.name = name then a.bind slot else a) := by
  split
  · exact .bind a slot
  · exact .refl a

/-- A schema that a run of bindings has led to. -/
inductive Rebound (s : Schema) : Schema → Prop
  | refl : Rebound s s
  | bindSlot {s' : Schema} (name : String) (slot : Slot) :
      Rebound s s' → Rebound s (s'.bindSlot name slot)
  | bindById {s' : Schema} : Rebound s s' → Rebound s s'.bindById

/-- A schema that a builder has finished after any calls. -/
def Built (s : Schema) : Prop :=
  ∃ (b : SchemaBuilder) (decision : String), b.Reachable ∧ b.finish decision = .ok s

/-- **What any change to slots preserves, a run of bindings preserves.** -/
theorem Rebound.induction {s s' : Schema} (h : s.Rebound s') {p : Schema → Prop} (start : p s)
    (preserved : ∀ t f, (∀ a : Attribute, a.SameButSlot (f a)) → p t → p (t.mapAttributes f)) :
    p s' := by
  induction h with
  | refl => exact start
  | bindSlot name slot _ ih => exact preserved _ _ (sameButSlot_bindNamed name slot) ih
  | bindById _ ih => exact preserved _ _ (fun a => .bind a _) ih

theorem Rebound.wellFormed {s s' : Schema} (h : s.Rebound s') (hs : s.WellFormed) :
    s'.WellFormed :=
  h.induction hs fun _ _ hf ht => ht.mapAttributes hf

theorem Built.wellFormed {s : Schema} (h : s.Built) : s.WellFormed := by
  obtain ⟨b, decision, hb, hfinish⟩ := h
  exact wellFormed_of_finish hb hfinish

end Schema

end DecisionModel
