import DecisionModel.Proofs.Schema.Invariant

/-!
# Schemas at slots

Binding says where records keep the values of attributes, and nothing else.  So a schema that
was bound is the one it comes from, with every attribute put at its slot.
-/

namespace DecisionModel

namespace Attribute

/-- The attribute at the slot that is given for its id. -/
def atSlots (slots : AttrId → Slot) (a : Attribute) : Attribute := a.bind (slots a.id)

@[simp] theorem atSlots_name (slots : AttrId → Slot) (a : Attribute) :
    (a.atSlots slots).name = a.name := rfl

@[simp] theorem atSlots_id (slots : AttrId → Slot) (a : Attribute) :
    (a.atSlots slots).id = a.id := rfl

@[simp] theorem atSlots_values (slots : AttrId → Slot) (a : Attribute) :
    (a.atSlots slots).values = a.values := rfl

@[simp] theorem atSlots_slot (slots : AttrId → Slot) (a : Attribute) :
    (a.atSlots slots).slot = slots a.id := rfl

end Attribute

namespace Schema

/-- The schema with all attributes at the given slots. -/
def atSlots (slots : AttrId → Slot) (s : Schema) : Schema := s.mapAttributes (·.atSlots slots)

/-- The slot of the attribute with the given id. -/
def slotOf (s : Schema) (id : AttrId) : Slot :=
  match s.attributeById? id with
  | some a => a.slot
  | none => .unbound

theorem attribute?_atSlots (slots : AttrId → Slot) (s : Schema) (name : String) :
    (s.atSlots slots).attribute? name = (s.attribute? name).map (·.atSlots slots) :=
  List.find?_map

theorem decisionAttribute_atSlots (slots : AttrId → Slot) (s : Schema) :
    (s.atSlots slots).decisionAttribute = s.decisionAttribute.atSlots slots :=
  mapAttributes_decisionAttribute s _

theorem decisionCode?_atSlots (slots : AttrId → Slot) (s : Schema) (name : String) :
    (s.atSlots slots).decisionCode? name = s.decisionCode? name := by
  rw [decisionCode?, decisionAttribute_atSlots]
  rfl

/-- In a well-formed schema the slot of an id is the slot of the attribute that has it. -/
theorem WellFormed.slotOf_id {s : Schema} (h : s.WellFormed) {a : Attribute}
    (ha : a ∈ s.attributes) : s.slotOf a.id = a.slot := by
  have hid : s.attributeById? a.id = some a := h.attributes.getElem?_id ha
  simp only [slotOf, hid]

/-- Bindings change each attribute by itself, and in nothing but its slot. -/
theorem Rebound.exists_mapAttributes {s s' : Schema} (h : s.Rebound s') :
    ∃ f : Attribute → Attribute, (∀ a : Attribute, a.SameButSlot (f a)) ∧
      s' = s.mapAttributes f := by
  apply h.induction (p := fun t => ∃ f, (∀ a : Attribute, a.SameButSlot (f a)) ∧
    t = s.mapAttributes f)
  · exact ⟨id, Attribute.SameButSlot.refl, by simp [mapAttributes]⟩
  · rintro t g hg ⟨f, hf, rfl⟩
    exact ⟨g ∘ f, fun a => (hf a).trans (hg (f a)), by simp [mapAttributes]⟩

/-- **A schema that was bound** is the one it comes from, at its own slots. -/
theorem Rebound.eq_atSlots {s s' : Schema} (h : s.Rebound s') (hs : s.WellFormed) :
    s' = s.atSlots s'.slotOf := by
  have hs' : s'.WellFormed := h.wellFormed hs
  obtain ⟨f, hf, rfl⟩ := h.exists_mapAttributes
  have hattributes : s.attributes.map f =
      s.attributes.map (·.atSlots (s.mapAttributes f).slotOf) := by
    apply List.map_congr_left
    intro a ha
    have hslot : (s.mapAttributes f).slotOf (f a).id = (f a).slot :=
      hs'.slotOf_id (List.mem_map_of_mem ha)
    rw [(hf a).id] at hslot
    rw [Attribute.atSlots, hslot]
    exact hf a
  simp only [atSlots, mapAttributes] at hattributes ⊢
  simp only [Schema.mk.injEq, and_true]
  exact hattributes

/-- Bindings define no attributes. -/
theorem Rebound.slotOf_of_unknown {s s' : Schema} (h : s.Rebound s') {id : AttrId}
    (hid : s.attributeById? id = none) : s'.slotOf id = .unbound := by
  obtain ⟨f, -, rfl⟩ := h.exists_mapAttributes
  have hnone : (s.mapAttributes f).attributeById? id = none := by
    rw [attributeById?, mapAttributes_attributes, List.getElem?_map, ← attributeById?, hid]
    rfl
  simp only [slotOf, hnone]

end Schema

end DecisionModel
