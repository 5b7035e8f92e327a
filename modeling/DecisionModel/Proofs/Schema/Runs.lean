import Mathlib.Data.List.Induction
import Mathlib.Data.List.Infix
import DecisionModel.Proofs.Schema.Slots

/-!
# Whole runs of builders and bindings

A builder is called any number of times, then finished, and its schema is bound any number of
times.  Whatever the calls were, lookups by position, by id and by name agree all the way, and an
id that was handed out keeps its meaning.  A call that says nothing new changes nothing, and so
does one that is refused; binding changes nothing but slots.
-/

namespace DecisionModel

namespace Attribute

theorem register_ne_self (a : Attribute) (value : String) (code : Int) :
    a.register value code ≠ a := by
  intro h
  have hvalues : (a.register value code).values = a.values := congrArg values h
  simp [register] at hvalues

theorem push_eq_self_iff {a : Attribute} {value : String} :
    a.push value = a ↔ (a.codeOf? value).isSome = true := by
  unfold push
  split
  · rename_i hknown
    exact iff_of_true rfl hknown
  · rename_i hfresh
    exact iff_of_false (a.register_ne_self value _) hfresh

/-- Enumerated attributes have values and continuous ones have none. -/
theorem WellFormed.kind_cases {a : Attribute} (h : a.WellFormed) :
    (a.kind = .enumerated ∧ a.valueType = .integer ∧ a.values ≠ []) ∨
      (a.kind = .continuous ∧ a.valueType = .floating ∧ a.values = []) := by
  have hiff := h.enumerated_iff
  rcases hkind : a.kind with _ | _
  · left
    refine ⟨rfl, by rw [valueType, hkind]; rfl, ?_⟩
    exact hiff.mp (by rw [isEnumerated, hkind]; rfl)
  · right
    refine ⟨rfl, by rw [valueType, hkind]; rfl, ?_⟩
    by_contra hvalues
    have henumerated := hiff.mpr hvalues
    rw [isEnumerated, hkind] at henumerated
    cases henumerated

theorem map_name_of_sameButSlot {xs ys : List Attribute} (h : List.Forall₂ SameButSlot xs ys) :
    ys.map (·.name) = xs.map (·.name) := by
  induction h with
  | nil => rfl
  | cons ha _ ih => rw [List.map_cons, List.map_cons, ha.name, ih]

end Attribute

namespace SchemaBuilder

/-! ### Runs -/

/-- The calls that builders are made with. -/
inductive Call where
  | define (name : String)
  | pushValue (id : AttrId) (value : String)
  | insertValue (id : AttrId) (value : String) (code : Int)
  deriving DecidableEq, Repr

/-- The builder behind a call; a value that is refused is not registered. -/
def call (b : SchemaBuilder) : Call → SchemaBuilder
  | .define name => (b.define name).2
  | .pushValue id value => (b.pushValue id value).2
  | .insertValue id value code =>
    match b.insertValue id value code with
    | .ok b' => b'
    | .error _ => b

/-- The builder behind calls, from an empty one. -/
def run (calls : List Call) : SchemaBuilder := calls.foldl call .empty

/-- Among the calls, one for the attribute with the name has returned the id. -/
def HandsOut (calls : List Call) (name : String) (id : AttrId) : Prop :=
  ∃ before later, calls = before ++ .define name :: later ∧ ((run before).define name).1 = id

/-- What the call says is known already: the attribute is defined, or it has a value of that
    name. -/
def Knows (b : SchemaBuilder) : Call → Prop
  | .define name => b.contains name = true
  | .pushValue id value | .insertValue id value _ =>
    ∀ a, b.attributes[id.index]? = some a → (a.codeOf? value).isSome = true

theorem Reachable.call {b : SchemaBuilder} (h : b.Reachable) (c : Call) : (b.call c).Reachable := by
  cases c with
  | define name => exact .define name h
  | pushValue id value => exact .pushValue id value h
  | insertValue id value code =>
    simp only [SchemaBuilder.call]
    split
    · rename_i b' hinsert
      exact .insertValue h hinsert
    · exact h

theorem run_concat (calls : List Call) (c : Call) : run (calls ++ [c]) = (run calls).call c := by
  simp [run]

theorem reachable_run (calls : List Call) : (run calls).Reachable := by
  induction calls using List.reverseRecOn with
  | nil => exact .empty
  | append_singleton calls c ih =>
    rw [run_concat]
    exact ih.call c

/-! ### Calls without effect -/

/-- The only reason to refuse a value is that the attribute has one of its name. -/
theorem insertValue_eq_error_iff {b : SchemaBuilder} {id : AttrId} {value : String} {code : Int}
    {reason : SchemaError} : b.insertValue id value code = .error reason ↔
      ∃ a, b.attributes[id.index]? = some a ∧ (a.codeOf? value).isSome = true ∧
        reason = .duplicateValue a.name value := by
  rcases ha : b.attributes[id.index]? with _ | a
  · simp [insertValue, ha]
  · by_cases hknown : (a.codeOf? value).isSome = true
    · simp only [insertValue, ha, if_pos hknown, Except.error.injEq]
      constructor
      · rintro rfl
        exact ⟨a, rfl, hknown, rfl⟩
      · rintro ⟨a', ha', -, rfl⟩
        cases ha'
        rfl
    · simp only [insertValue, ha, if_neg hknown, reduceCtorEq, false_iff]
      rintro ⟨a', ha', hknown', -⟩
      cases ha'
      exact hknown hknown'

/-- **A call changes nothing exactly if what it says is known.** -/
theorem call_eq_self_iff {b : SchemaBuilder} {c : Call} : b.call c = b ↔ b.Knows c := by
  cases c with
  | define name =>
    simp only [call, Knows, contains_iff_mem_names]
    by_cases hname : name ∈ b.attributes.map (·.name)
    · exact iff_of_true (define_of_known hname) hname
    · refine iff_of_false ?_ hname
      rw [define_of_fresh hname]
      intro h
      have hattributes : b.attributes ++ [.new name ⟨b.attributes.length⟩] = b.attributes :=
        congrArg attributes h
      simp at hattributes
  | pushValue id value =>
    simp only [call, Knows, pushValue_eq_modify, modify_eq_self_iff, Attribute.push_eq_self_iff]
  | insertValue id value code =>
    simp only [call, Knows]
    rcases ha : b.attributes[id.index]? with _ | a
    · simp [insertValue, ha]
    · by_cases hknown : (a.codeOf? value).isSome = true
      · simp [insertValue, ha, hknown]
      · simp only [insertValue, ha, if_neg hknown, modify_eq_self_iff, Option.some.injEq,
          forall_eq']
        exact iff_of_false (a.register_ne_self value code) hknown

/-! ### Ids keep their meaning -/

/-- A call may add a name to the end of those of the attributes, and changes none. -/
theorem names_prefix_call (b : SchemaBuilder) (c : Call) :
    b.attributes.map (·.name) <+: (b.call c).attributes.map (·.name) := by
  cases c with
  | define name =>
    by_cases hname : name ∈ b.attributes.map (·.name)
    · rw [call, define_of_known hname]
    · rw [call, define_of_fresh hname, List.map_append]
      exact List.prefix_append _ _
  | pushValue id value =>
    rw [call, pushValue_eq_modify, modify,
      AttributesWellFormed.map_name_modify _ _ fun a => a.push_name value]
  | insertValue id value code =>
    simp only [call]
    split
    · rename_i b' hinsert
      rcases insertValue_cases hinsert with rfl | ⟨a, -, -, rfl⟩
      · exact List.prefix_rfl
      · have hnames := AttributesWellFormed.map_name_modify b.attributes id.index
          (f := (·.register value code)) fun _ => rfl
        rw [modify, hnames]
    · exact List.prefix_rfl

theorem names_prefix_run (before later : List Call) :
    (run before).attributes.map (·.name) <+: (run (before ++ later)).attributes.map (·.name) := by
  induction later using List.reverseRecOn with
  | nil => rw [List.append_nil]
  | append_singleton later c ih =>
    refine ih.trans ?_
    rw [← List.append_assoc, run_concat]
    exact names_prefix_call _ c

/-- The id that `define` returns is the position of the attribute. -/
theorem getElem?_names_define {b : SchemaBuilder} (h : AttributesWellFormed b.attributes)
    (name : String) :
    ((b.define name).2.attributes.map (·.name))[(b.define name).1.index]? = some name := by
  by_cases hname : name ∈ b.attributes.map (·.name)
  · obtain ⟨a, ha, rfl⟩ := List.mem_map.mp hname
    have hfind : b.attributes.find? (·.name == a.name) = some a :=
      (find?_key_eq_some_iff h.names_distinct).mpr ⟨ha, rfl⟩
    simp only [define, hfind, List.getElem?_map, h.getElem?_id ha, Option.map_some]
  · rw [define_of_fresh hname]
    simp [Attribute.new]

/-- **An id that was handed out names its attribute for ever.** -/
theorem HandsOut.getElem?_names {calls : List Call} {name : String} {id : AttrId}
    (h : HandsOut calls name id) :
    ((run calls).attributes.map (·.name))[id.index]? = some name := by
  obtain ⟨before, later, rfl, rfl⟩ := h
  have hdefined := getElem?_names_define (reachable_run before).wellFormed name
  have hrun : run (before ++ [.define name]) = ((run before).define name).2 := run_concat _ _
  have hprefix := names_prefix_run (before ++ [.define name]) later
  rw [hrun, List.append_assoc, List.singleton_append] at hprefix
  obtain ⟨more, hmore⟩ := hprefix
  rw [← hmore, List.getElem?_append_left (List.getElem?_eq_some_iff.mp hdefined).1]
  exact hdefined

/-- The attribute is defined again under the same id. -/
theorem HandsOut.define_eq {calls : List Call} {name : String} {id : AttrId}
    (h : HandsOut calls name id) : ((run calls).define name).1 = id := by
  have hwf := (reachable_run calls).wellFormed
  have hname := h.getElem?_names
  rw [List.getElem?_map] at hname
  obtain ⟨a, ha, rfl⟩ := Option.map_eq_some_iff.mp hname
  have hfind : (run calls).attributes.find? (·.name == a.name) = some a :=
    (find?_key_eq_some_iff hwf.names_distinct).mpr ⟨List.mem_of_getElem? ha, rfl⟩
  simp only [define, hfind]
  exact hwf.id_eq id.index a ha

end SchemaBuilder

/-! ### Schemas of runs -/

namespace Schema

/-- Schemas that differ in nothing but the slots of attributes. -/
structure SameButSlots (s t : Schema) : Prop where
  attributes : List.Forall₂ Attribute.SameButSlot s.attributes t.attributes
  decision : t.decision = s.decision
  decisionNames : t.decisionNames = s.decisionNames

/-- Attributes are found under their names and ids, which are their positions, and each is either
    enumerated with values or continuous without. -/
structure Consistent (s : Schema) : Prop where
  names_distinct : s.attributeNames.Nodup
  id_eq : ∀ (i : Nat) (a : Attribute), s.attributes[i]? = some a → a.id = ⟨i⟩
  found : ∀ a ∈ s.attributes, s.attribute? a.name = some a ∧ s.attributeById? a.id = some a
  values_distinct : ∀ a ∈ s.attributes, (a.values.map (·.1)).Nodup
  kind_cases : ∀ a ∈ s.attributes,
    (a.kind = .enumerated ∧ a.valueType = .integer ∧ a.values ≠ []) ∨
      (a.kind = .continuous ∧ a.valueType = .floating ∧ a.values = [])

theorem WellFormed.consistent {s : Schema} (h : s.WellFormed) : s.Consistent where
  names_distinct := h.attributes.names_distinct
  id_eq := h.attributes.id_eq
  found := by
    intro a ha
    exact ⟨(find?_key_eq_some_iff h.attributes.names_distinct).mpr ⟨ha, rfl⟩,
      h.attributes.getElem?_id ha⟩
  values_distinct := fun a ha => (h.attributes.each a ha).names_distinct
  kind_cases := fun a ha => (h.attributes.each a ha).kind_cases

/-- **Bindings change nothing but slots.** -/
theorem Rebound.sameButSlots {s t : Schema} (h : s.Rebound t) : s.SameButSlots t := by
  obtain ⟨f, hf, rfl⟩ := h.exists_mapAttributes
  refine ⟨?_, rfl, rfl⟩
  rw [mapAttributes_attributes, List.forall₂_map_right_iff, List.forall₂_same]
  exact fun a _ => hf a

/-- Attributes keep their names under their ids. -/
theorem SameButSlots.map_name_attributeById? {s t : Schema} (h : s.SameButSlots t) (id : AttrId) :
    (t.attributeById? id).map (·.name) = (s.attributeById? id).map (·.name) := by
  simp only [attributeById?, ← List.getElem?_map, Attribute.map_name_of_sameButSlot h.attributes]

end Schema

open SchemaBuilder in
/-- **Runs of builders and bindings keep schemas consistent.**  Behind any calls the attributes
    are well-formed, and an id that was handed out names its attribute and no other; a call changes
    nothing exactly if what it says is known, which is the only reason to refuse a value.  No
    decision is refused for lack of values.  A schema that is finished then, and bound any number
    of times, is consistent, knows the ids that were handed out, and differs from the one that was
    finished in nothing but slots. -/
theorem consistent_of_run (calls : List Call) :
    AttributesWellFormed (run calls).attributes ∧
    (∀ name id, HandsOut calls name id → ((run calls).define name).1 = id ∧
      ∃ a, (run calls).attributes[id.index]? = some a ∧ a.name = name) ∧
    (∀ c, (run calls).call c = run calls ↔ (run calls).Knows c) ∧
    (∀ id value code reason, (run calls).insertValue id value code = .error reason ↔
      ∃ a, (run calls).attributes[id.index]? = some a ∧ (a.codeOf? value).isSome = true ∧
        reason = .duplicateValue a.name value) ∧
    (∀ decision attr, (run calls).finish decision ≠ .error (.emptyDecision attr)) ∧
    ∀ decision finished bound, (run calls).finish decision = .ok finished →
      finished.Rebound bound →
      bound.Consistent ∧ finished.SameButSlots bound ∧
        ∀ name id, HandsOut calls name id →
          ∃ a, bound.attributeById? id = some a ∧ a.name = name := by
  have hreachable := reachable_run calls
  refine ⟨hreachable.wellFormed, ?_, fun c => call_eq_self_iff, ?_, ?_, ?_⟩
  · intro name id hid
    have hname := hid.getElem?_names
    rw [List.getElem?_map] at hname
    exact ⟨hid.define_eq, Option.map_eq_some_iff.mp hname⟩
  · intro id value code reason
    exact insertValue_eq_error_iff
  · intro decision attr
    exact finish_ne_emptyDecision hreachable.wellFormed decision attr
  · intro decision finished bound hfinish hbound
    have hwf : finished.WellFormed := Schema.wellFormed_of_finish hreachable hfinish
    refine ⟨(hbound.wellFormed hwf).consistent, hbound.sameButSlots, ?_⟩
    intro name id hid
    have hname := hid.getElem?_names
    rw [← (finish_ok hfinish).1, List.getElem?_map, ← Schema.attributeById?,
      ← hbound.sameButSlots.map_name_attributeById?] at hname
    exact Option.map_eq_some_iff.mp hname

/-- The fifth call is refused, and the last one defines nothing new. -/
def mixerCalls : List SchemaBuilder.Call :=
  [.define "state", .define "level", .pushValue ⟨0⟩ "stop", .insertValue ⟨0⟩ "play" 1,
    .insertValue ⟨0⟩ "stop" 5, .define "state"]

def mixerSchema : Schema where
  attributes :=
    [⟨"state", ⟨0⟩, .enumerated, .unbound, [("stop", 0), ("play", 1)]⟩,
      ⟨"level", ⟨1⟩, .continuous, .unbound, []⟩]
  decision := ⟨0⟩
  decisionNames := ["stop", "play"]
  decision_defined := by decide

open SchemaBuilder in
theorem consistent_mixer :
    HandsOut mixerCalls "level" ⟨1⟩ ∧
      (run mixerCalls).insertValue ⟨0⟩ "stop" 5 = .error (.duplicateValue "state" "stop") ∧
      (run mixerCalls).call (.insertValue ⟨0⟩ "stop" 5) = run mixerCalls ∧
      (run mixerCalls).finish "state" = .ok mixerSchema ∧
      mixerSchema.Rebound (mixerSchema.bindById.bindSlot "level" (.index 7)) ∧
      (mixerSchema.bindById.bindSlot "level" (.index 7)).Consistent ∧
      mixerSchema.SameButSlots (mixerSchema.bindById.bindSlot "level" (.index 7)) ∧
      ∃ a, (mixerSchema.bindById.bindSlot "level" (.index 7)).attributeById? ⟨1⟩ = some a ∧
        a.name = "level" := by
  have hid : HandsOut mixerCalls "level" ⟨1⟩ := ⟨[.define "state"], _, rfl, rfl⟩
  have hknown : (run mixerCalls).Knows (.insertValue ⟨0⟩ "stop" 5) := by
    intro a ha
    cases ha
    rfl
  have hfinish : (run mixerCalls).finish "state" = .ok mixerSchema := by decide
  have hbound : mixerSchema.Rebound (mixerSchema.bindById.bindSlot "level" (.index 7)) :=
    .bindSlot _ _ (.bindById .refl)
  obtain ⟨-, -, hcalls, hrefused, -, hschemas⟩ := consistent_of_run mixerCalls
  obtain ⟨hconsistent, hsame, hids⟩ := hschemas "state" _ _ hfinish hbound
  exact ⟨hid, (hrefused _ _ _ _).mpr ⟨_, rfl, rfl, rfl⟩, (hcalls _).mpr hknown, hfinish, hbound,
    hconsistent, hsame, hids _ _ hid⟩

end DecisionModel
