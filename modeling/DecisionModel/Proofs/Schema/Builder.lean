import DecisionModel.Proofs.Lists
import DecisionModel.Schema.Builder

/-!
# What builders keep

Whatever calls a builder has seen, its attributes have distinct names and stand at the
positions that their ids say, and the values of each have distinct names.  An attribute has
values exactly if it is enumerated.
-/

namespace DecisionModel

/-! ### The invariant -/

/-- An attribute whose values have distinct names, and which is enumerated if it has any. -/
structure Attribute.WellFormed (a : Attribute) : Prop where
  names_distinct : (a.values.map (·.1)).Nodup
  enumerated_iff : a.isEnumerated = true ↔ a.values ≠ []

/-- Attributes with distinct names, each at the position that its id says. -/
structure AttributesWellFormed (attributes : List Attribute) : Prop where
  names_distinct : (attributes.map (·.name)).Nodup
  id_eq : ∀ (i : Nat) (a : Attribute), attributes[i]? = some a → a.id = ⟨i⟩
  each : ∀ a ∈ attributes, a.WellFormed

namespace Attribute

theorem WellFormed.new (name : String) (id : AttrId) : (Attribute.new name id).WellFormed where
  names_distinct := by simp [Attribute.new]
  enumerated_iff := by simp [Attribute.new, isEnumerated]

theorem WellFormed.codeOf?_eq_some_iff {a : Attribute} (ha : a.WellFormed) {value : String}
    {code : Int} : a.codeOf? value = some code ↔ (value, code) ∈ a.values :=
  lookup_eq_some_iff_mem ha.names_distinct

theorem codeOf?_eq_none_iff {a : Attribute} {value : String} :
    a.codeOf? value = none ↔ value ∉ a.values.map (·.1) := by
  simp only [codeOf?, List.lookup_eq_none_iff, List.mem_map, not_exists, not_and, bne_iff_ne, ne_eq]
  exact ⟨fun h p hp heq => h p hp heq.symm, fun h p hp heq => h p hp heq.symm⟩

/-- Registering a value under a new name. -/
theorem WellFormed.register {a : Attribute} (ha : a.WellFormed) {value : String} (code : Int)
    (fresh : a.codeOf? value = none) : (a.register value code).WellFormed where
  names_distinct := by
    have hnot := codeOf?_eq_none_iff.mp fresh
    simp only [Attribute.register, List.map_append, List.map_cons, List.map_nil]
    rw [List.nodup_append]
    refine ⟨ha.names_distinct, by simp, ?_⟩
    intro x hx y hy
    simp only [List.mem_singleton] at hy
    rintro rfl
    exact hnot (hy ▸ hx)
  enumerated_iff := by simp [Attribute.register, isEnumerated]

/-- The attribute with one more value, unless it has a value of that name. -/
def push (a : Attribute) (value : String) : Attribute :=
  if (a.codeOf? value).isSome then a else a.register value a.values.length

@[simp] theorem push_name (a : Attribute) (value : String) : (a.push value).name = a.name := by
  unfold push
  split <;> rfl

@[simp] theorem push_id (a : Attribute) (value : String) : (a.push value).id = a.id := by
  unfold push
  split <;> rfl

theorem WellFormed.push {a : Attribute} (ha : a.WellFormed) (value : String) :
    (a.push value).WellFormed := by
  unfold Attribute.push
  split
  · exact ha
  · rename_i hfresh
    exact ha.register _ (Option.not_isSome_iff_eq_none.mp hfresh)

end Attribute

namespace AttributesWellFormed

variable {attributes : List Attribute}

theorem nil : AttributesWellFormed [] := ⟨by simp, by simp, by simp⟩

theorem getElem?_id (h : AttributesWellFormed attributes) {a : Attribute} (ha : a ∈ attributes) :
    attributes[a.id.index]? = some a := by
  obtain ⟨i, hi⟩ := List.mem_iff_getElem?.mp ha
  rw [h.id_eq i a hi, hi]

theorem append_new (h : AttributesWellFormed attributes) {name : String}
    (fresh : name ∉ attributes.map (·.name)) :
    AttributesWellFormed (attributes ++ [.new name ⟨attributes.length⟩]) where
  names_distinct := by
    simp only [List.map_append, List.map_cons, List.map_nil]
    rw [List.nodup_append]
    refine ⟨h.names_distinct, by simp, ?_⟩
    intro x hx y hy
    simp only [Attribute.new, List.mem_singleton] at hy
    rintro rfl
    exact fresh (hy ▸ hx)
  id_eq := by
    intro i a hi
    by_cases hlt : i < attributes.length
    · rw [List.getElem?_append_left hlt] at hi
      exact h.id_eq i a hi
    · rw [List.getElem?_append_right (by omega), List.getElem?_singleton] at hi
      split at hi
      · have hlast : i = attributes.length := by omega
        cases hi
        rw [hlast]
        rfl
      · cases hi
  each := by
    intro a ha
    rcases List.mem_append.mp ha with hold | hnew
    · exact h.each a hold
    · rw [List.mem_singleton] at hnew
      subst hnew
      exact .new name _

theorem map_name_modify (attributes : List Attribute) (position : Nat) {f : Attribute → Attribute}
    (name : ∀ a, (f a).name = a.name) :
    (attributes.modify position f).map (·.name) = attributes.map (·.name) := by
  apply List.ext_getElem?
  intro i
  simp only [List.getElem?_map, List.getElem?_modify]
  by_cases hpos : position = i
  · cases attributes[i]? <;> simp [hpos, name]
  · simp [hpos]

/-- A change to one attribute that keeps its name and id. -/
theorem modify (h : AttributesWellFormed attributes) {position : Nat} {f : Attribute → Attribute}
    (name : ∀ a, (f a).name = a.name) (id : ∀ a, (f a).id = a.id)
    (wellFormed : ∀ a, attributes[position]? = some a → (f a).WellFormed) :
    AttributesWellFormed (attributes.modify position f) where
  names_distinct := by
    rw [map_name_modify attributes position name]
    exact h.names_distinct
  id_eq := by
    intro i b hi
    rw [List.getElem?_modify] at hi
    obtain ⟨a, ha, rfl⟩ := Option.map_eq_some_iff.mp hi
    have hid := h.id_eq i a ha
    by_cases hpos : position = i
    · simpa [hpos, id] using hid
    · simpa [hpos] using hid
  each := by
    intro b hb
    obtain ⟨i, hi⟩ := List.mem_iff_getElem?.mp hb
    rw [List.getElem?_modify] at hi
    obtain ⟨a, ha, rfl⟩ := Option.map_eq_some_iff.mp hi
    by_cases hpos : position = i
    · subst hpos
      simpa using wellFormed a ha
    · simpa [hpos] using h.each a (List.mem_of_getElem? ha)

end AttributesWellFormed

/-! ### Calls -/

namespace SchemaBuilder

/-- A builder that calls have led to. -/
inductive Reachable : SchemaBuilder → Prop
  | empty : Reachable .empty
  | define {b : SchemaBuilder} (name : String) : Reachable b → Reachable (b.define name).2
  | pushValue {b : SchemaBuilder} (id : AttrId) (value : String) :
      Reachable b → Reachable (b.pushValue id value).2
  | insertValue {b b' : SchemaBuilder} {id : AttrId} {value : String} {code : Int} :
      Reachable b → b.insertValue id value code = .ok b' → Reachable b'

/-- A builder contains a name exactly if one of its attributes has it. -/
theorem contains_iff_mem_names {b : SchemaBuilder} {name : String} :
    b.contains name = true ↔ name ∈ b.attributes.map (·.name) := by
  simp [contains]

/-- Defining an attribute under a new name appends it. -/
theorem define_of_fresh {b : SchemaBuilder} {name : String}
    (fresh : name ∉ b.attributes.map (·.name)) :
    b.define name =
      (⟨b.attributes.length⟩, ⟨b.attributes ++ [.new name ⟨b.attributes.length⟩]⟩) := by
  have hnone : b.attributes.find? (·.name == name) = none := by
    rw [List.find?_eq_none]
    intro a ha heq
    exact fresh (List.mem_map.mpr ⟨a, ha, by simpa using heq⟩)
  simp only [define, hnone]

/-- Defining an attribute again changes nothing. -/
theorem define_of_known {b : SchemaBuilder} {name : String}
    (known : name ∈ b.attributes.map (·.name)) : (b.define name).2 = b := by
  have hsome : (b.attributes.find? (·.name == name)).isSome = true := by
    rw [List.find?_isSome]
    obtain ⟨a, ha, hname⟩ := List.mem_map.mp known
    exact ⟨a, ha, by simpa using hname⟩
  obtain ⟨a, ha⟩ := Option.isSome_iff_exists.mp hsome
  simp only [define, ha]

/-- A change to one attribute changes the builder exactly if it changes the attribute. -/
theorem modify_eq_self_iff {b : SchemaBuilder} {id : AttrId} {f : Attribute → Attribute} :
    b.modify id f = b ↔ ∀ a, b.attributes[id.index]? = some a → f a = a := by
  obtain ⟨attributes⟩ := b
  simp only [modify, SchemaBuilder.mk.injEq]
  constructor
  · intro h a ha
    have hchanged : (attributes.modify id.index f)[id.index]? = some a := by rw [h, ha]
    simpa [List.getElem?_modify, ha] using hchanged
  · intro h
    apply List.ext_getElem?
    intro i
    rw [List.getElem?_modify]
    by_cases hi : id.index = i
    · subst hi
      rcases ha : attributes[id.index]? with _ | a
      · rfl
      · simp [h a ha]
    · simp [hi]

/-- Pushing a value changes its attribute and nothing else. -/
theorem pushValue_eq_modify (b : SchemaBuilder) (id : AttrId) (value : String) :
    (b.pushValue id value).2 = b.modify id (·.push value) := by
  rcases ha : b.attributes[id.index]? with _ | a
  · simp only [pushValue, ha]
    symm
    rw [modify_eq_self_iff]
    intro a ha'
    rw [ha] at ha'
    cases ha'
  · rcases hcode : a.codeOf? value with _ | code
    · simp only [pushValue, ha, hcode, modify, SchemaBuilder.mk.injEq]
      apply List.ext_getElem?
      intro i
      rw [List.getElem?_modify, List.getElem?_modify]
      by_cases hi : id.index = i
      · subst hi
        simp [ha, Attribute.push, hcode]
      · simp [hi]
    · simp only [pushValue, ha, hcode]
      symm
      rw [modify_eq_self_iff]
      intro a' ha'
      rw [ha] at ha'
      cases ha'
      simp [Attribute.push, hcode]

/-- What inserting a value does when it is not refused. -/
theorem insertValue_cases {b b' : SchemaBuilder} {id : AttrId} {value : String} {code : Int}
    (h : b.insertValue id value code = .ok b') :
    b' = b ∨ ∃ a, b.attributes[id.index]? = some a ∧ a.codeOf? value = none ∧
      b' = b.modify id (·.register value code) := by
  rcases ha : b.attributes[id.index]? with _ | a
  · simp only [insertValue, ha, Except.ok.injEq] at h
    exact .inl h.symm
  · rcases hcode : a.codeOf? value with _ | known
    · simp only [insertValue, ha, hcode, Option.isSome_none, Bool.false_eq_true, if_false,
        Except.ok.injEq] at h
      exact .inr ⟨a, rfl, hcode, h.symm⟩
    · simp only [insertValue, ha, hcode, Option.isSome_some, if_true, reduceCtorEq] at h

/-- **The attributes of a builder stay well-formed** whatever is called. -/
theorem Reachable.wellFormed {b : SchemaBuilder} (h : b.Reachable) :
    AttributesWellFormed b.attributes := by
  induction h with
  | empty => exact .nil
  | @define b name _ ih =>
    by_cases hname : name ∈ b.attributes.map (·.name)
    · rw [define_of_known hname]
      exact ih
    · rw [define_of_fresh hname]
      exact ih.append_new hname
  | @pushValue b id value _ ih =>
    rw [pushValue_eq_modify]
    refine ih.modify (fun a => a.push_name value) (fun a => a.push_id value) ?_
    intro a ha
    exact (ih.each a (List.mem_of_getElem? ha)).push value
  | @insertValue b b' id value code _ hinsert ih =>
    rcases insertValue_cases hinsert with rfl | ⟨a, ha, hfresh, rfl⟩
    · exact ih
    · refine ih.modify (fun _ => rfl) (fun _ => rfl) ?_
      intro a' ha'
      rw [ha] at ha'
      cases ha'
      exact (ih.each a (List.mem_of_getElem? ha)).register code hfresh

end SchemaBuilder

end DecisionModel
