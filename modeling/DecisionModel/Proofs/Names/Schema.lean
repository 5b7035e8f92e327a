import DecisionModel.Names.Parser
import DecisionModel.Proofs.Names.Token
import DecisionModel.Proofs.Schema.Codes

/-!
# Schemas that are read

A schema read from text was built by defining attributes one after the other, each under a
new name and with all its values at once.  So each attribute's values have the codes
`0, 1, …` in the order they are listed, and all names are names that schema text can spell.
-/

namespace DecisionModel

/-! ### Dense codes -/

namespace Attribute

/-- The values have the codes `0, 1, …` in the order they were registered. -/
def Dense (a : Attribute) : Prop :=
  a.values.map (·.2) = (List.range a.values.length).map Int.ofNat

/-- All names of the attribute satisfy `p`. -/
def AllNames (p : String → Prop) (a : Attribute) : Prop :=
  p a.name ∧ ∀ entry ∈ a.values, p entry.1

theorem Dense.map_code_values {a : Attribute} (h : a.Dense) :
    a.values.map (·.2) = (List.range a.values.length).map Int.ofNat := h

theorem Dense.push {a : Attribute} (h : a.Dense) (value : String) : (a.push value).Dense := by
  unfold Attribute.push
  split
  · exact h
  · simp only [Dense, register, List.map_append, List.map_cons, List.map_nil, List.length_append,
      List.length_cons, List.length_nil, Nat.zero_add, List.range_succ]
    rw [h.map_code_values]
    rfl

theorem AllNames.push {p : String → Prop} {a : Attribute} (h : a.AllNames p) {value : String}
    (hvalue : p value) : (a.push value).AllNames p := by
  obtain ⟨hname, hvalues⟩ := h
  unfold Attribute.push
  split
  · exact ⟨hname, hvalues⟩
  · refine ⟨hname, ?_⟩
    intro entry hentry
    simp only [register, List.mem_append, List.mem_singleton] at hentry
    rcases hentry with hold | rfl
    · exact hvalues entry hold
    · exact hvalue

theorem Dense.codes_distinct {a : Attribute} (h : a.Dense) : (a.values.map (·.2)).Nodup := by
  rw [h.map_code_values]
  exact List.nodup_range.map fun i j hij => Int.ofNat.inj hij

/-- Names and codes of an attribute with dense codes determine each other. -/
theorem Dense.nameOf?_eq_some_iff {a : Attribute} (h : a.Dense) (ha : a.WellFormed) {value : String}
    {code : Int} : a.nameOf? code = some value ↔ a.codeOf? value = some code :=
  ha.nameOf?_eq_some_iff_codeOf? h.codes_distinct

/-- The dense codes are those below the number of values. -/
theorem Dense.exists_nameOf?_iff {a : Attribute} (h : a.Dense) {code : Int} :
    (∃ value, a.nameOf? code = some value) ↔ 0 ≤ code ∧ code < a.valueCount := by
  have hcodes : code ∈ a.values.map (·.2) ↔ 0 ≤ code ∧ code < a.valueCount := by
    rw [h.map_code_values, List.mem_map, valueCount]
    constructor
    · rintro ⟨i, hi, rfl⟩
      have hlt := List.mem_range.mp hi
      exact ⟨Int.natCast_nonneg i, Int.ofNat_lt.mpr hlt⟩
    · rintro ⟨hlow, hhigh⟩
      exact ⟨code.toNat, List.mem_range.mpr (by omega), Int.toNat_of_nonneg hlow⟩
  rw [← hcodes]
  simp [nameOf?_eq_some_iff_mem h.codes_distinct]

/-- Values with dense codes are sorted by code as they are. -/
theorem Dense.sortedValues_eq {a : Attribute} (h : a.Dense) : a.sortedValues = a.values := by
  apply List.mergeSort_of_pairwise
  have hsorted : (a.values.map (·.2)).Pairwise (· ≤ ·) := by
    rw [h.map_code_values, List.pairwise_map]
    exact List.pairwise_lt_range.imp fun hlt => Int.ofNat_le.mpr (Nat.le_of_lt hlt)
  simpa [List.pairwise_map] using hsorted

end Attribute

/-- Values with dense codes, in every attribute. -/
def Schema.Dense (s : Schema) : Prop := ∀ a ∈ s.attributes, a.Dense

/-- All names of the schema, of attributes and of values, satisfy `p`. -/
def Schema.AllNames (p : String → Prop) (s : Schema) : Prop := ∀ a ∈ s.attributes, a.AllNames p

theorem Schema.Rebound.dense {s s' : Schema} (h : s.Rebound s') (hs : s.Dense) : s'.Dense := by
  refine h.induction hs ?_
  intro t f hf ht b hb
  obtain ⟨a, ha, rfl⟩ := List.mem_map.mp hb
  simp only [Attribute.Dense, (hf a).values]
  exact ht a ha

theorem Schema.Rebound.allNames {p : String → Prop} {s s' : Schema} (h : s.Rebound s')
    (hs : s.AllNames p) : s'.AllNames p := by
  refine h.induction hs ?_
  intro t f hf ht b hb
  obtain ⟨a, ha, rfl⟩ := List.mem_map.mp hb
  simp only [Attribute.AllNames, (hf a).name, (hf a).values]
  exact ht a ha

namespace Names

/-! ### Defining attributes -/

/-- An attribute with the listed values, or a continuous one. -/
def attributeOf (name : String) (id : AttrId) (values : List String) : Attribute :=
  if values = [State.continuous] then .new name id
  else values.foldl Attribute.push (.new name id)

/-- The distinct values of a list in the order they come first, with the codes `0, 1, …`. -/
def numbered (values : List String) : List (String × Int) :=
  values.eraseDups.mapIdx fun i value => (value, (i : Int))

theorem map_fst_numbered (values : List String) :
    (numbered values).map (·.1) = values.eraseDups := by
  unfold numbered
  rw [List.mapIdx_eq_zipIdx_map, List.map_map]
  exact List.zipIdx_map_fst 0 values.eraseDups

theorem numbered_concat (values : List String) (value : String) :
    numbered (values ++ [value]) = if value ∈ values then numbered values
      else numbered values ++ [(value, (values.eraseDups.length : Int))] := by
  unfold numbered
  rw [List.eraseDups_append]
  by_cases hold : value ∈ values
  · simp [hold, List.removeAll]
  · have hsingle : [value].eraseDups = [value] := rfl
    simp [hold, List.removeAll, hsingle, List.mapIdx_concat]

theorem push_numbered (name : String) (id : AttrId) (values : List String) (value : String) :
    (⟨name, id, .enumerated, .unbound, numbered values⟩ : Attribute).push value =
      ⟨name, id, .enumerated, .unbound, numbered (values ++ [value])⟩ := by
  rw [numbered_concat]
  unfold Attribute.push
  by_cases hold : value ∈ values
  · have hcode : ((⟨name, id, .enumerated, .unbound, numbered values⟩ : Attribute).codeOf?
        value).isSome = true := by
      rw [Option.isSome_iff_ne_none, Ne, Attribute.codeOf?_eq_none_iff, map_fst_numbered]
      simpa using hold
    rw [if_pos hcode, if_pos hold]
  · have hcode : ¬ ((⟨name, id, .enumerated, .unbound, numbered values⟩ : Attribute).codeOf?
        value).isSome = true := by
      rw [Option.not_isSome_iff_eq_none, Attribute.codeOf?_eq_none_iff, map_fst_numbered]
      simpa using hold
    rw [if_neg hcode, if_neg hold]
    simp [Attribute.register, numbered]

/-- **The attribute of a definition** is continuous without values, or enumerated with its
    values numbered in the order they come first. -/
theorem attributeOf_eq (name : String) (id : AttrId) {values : List String} (hne : values ≠ []) :
    attributeOf name id values = if values = [State.continuous] then .new name id
      else ⟨name, id, .enumerated, .unbound, numbered values⟩ := by
  have hfold : ∀ rest seen : List String,
      rest.foldl Attribute.push ⟨name, id, .enumerated, .unbound, numbered seen⟩ =
        ⟨name, id, .enumerated, .unbound, numbered (seen ++ rest)⟩ := by
    intro rest
    induction rest with
    | nil => simp
    | cons value rest ih =>
      intro seen
      rw [List.foldl_cons, push_numbered, ih, List.append_assoc, List.singleton_append]
  obtain ⟨first, rest, rfl⟩ := List.exists_cons_of_ne_nil hne
  unfold attributeOf
  split
  · rfl
  · have hfirst : (Attribute.new name id).push first =
        ⟨name, id, .enumerated, .unbound, numbered [first]⟩ := rfl
    rw [List.foldl_cons, hfirst, hfold, List.singleton_append]

theorem foldl_pushValue (before : List Attribute) (a : Attribute) (values : List String) :
    values.foldl (fun b value => (b.pushValue ⟨before.length⟩ value).2)
      (⟨before ++ [a]⟩ : SchemaBuilder) = ⟨before ++ [values.foldl Attribute.push a]⟩ := by
  induction values generalizing a with
  | nil => rfl
  | cons value rest ih =>
    have hpush : ((⟨before ++ [a]⟩ : SchemaBuilder).pushValue ⟨before.length⟩ value).2 =
        ⟨before ++ [a.push value]⟩ := by
      rw [SchemaBuilder.pushValue_eq_modify]
      simp only [SchemaBuilder.modify, modify_length_append_singleton]
    rw [List.foldl_cons, hpush, ih, List.foldl_cons]

/-- Defining an attribute under a new name appends it with its values. -/
theorem defineAttribute_of_fresh {b : SchemaBuilder} {name : String}
    (fresh : b.contains name = false) (values : List String) :
    State.defineAttribute b name values =
      ⟨b.attributes ++ [attributeOf name ⟨b.attributes.length⟩ values]⟩ := by
  have hfresh : name ∉ b.attributes.map (·.name) := by
    rw [← SchemaBuilder.contains_iff_mem_names, fresh]
    exact Bool.false_ne_true
  unfold State.defineAttribute attributeOf
  rw [SchemaBuilder.define_of_fresh hfresh]
  by_cases hcontinuous : values = [State.continuous]
  · simp [hcontinuous]
  · simp only [hcontinuous, if_false]
    exact foldl_pushValue _ _ _

/-- A builder that statements `name: values.` have led to. -/
inductive Described : SchemaBuilder → Prop
  | empty : Described .empty
  | define {b : SchemaBuilder} {name : String} {values : List String} : Described b →
      IsName name → b.contains name = false → values ≠ [] → (∀ v ∈ values, IsName v) →
      Described (State.defineAttribute b name values)

theorem reachable_foldl_pushValue {b : SchemaBuilder} (h : b.Reachable) (id : AttrId)
    (values : List String) :
    (values.foldl (fun b value => (b.pushValue id value).2) b).Reachable := by
  induction values generalizing b with
  | nil => exact h
  | cons value rest ih => exact ih (.pushValue id value h)

theorem Described.reachable {b : SchemaBuilder} (h : Described b) : b.Reachable := by
  induction h with
  | empty => exact .empty
  | @define b name values _ _ _ _ _ ih =>
    have hdefined : (b.define name).2.Reachable := .define name ih
    unfold State.defineAttribute
    by_cases hcontinuous : values = [State.continuous]
    · simpa [hcontinuous] using hdefined
    · simpa [hcontinuous] using reachable_foldl_pushValue hdefined _ values

theorem dense_attributeOf (name : String) (id : AttrId) (values : List String) :
    (attributeOf name id values).Dense := by
  have hfold : ∀ (vs : List String) (a : Attribute), a.Dense → (vs.foldl Attribute.push a).Dense := by
    intro vs
    induction vs with
    | nil => exact fun _ ha => ha
    | cons v rest ih => exact fun a ha => ih _ (ha.push v)
  have hnew : (Attribute.new name id).Dense := rfl
  unfold attributeOf
  split
  · exact hnew
  · exact hfold values _ hnew

theorem allNames_attributeOf {name : String} {id : AttrId} {values : List String}
    {p : String → Prop} (hname : p name) (hvalues : ∀ v ∈ values, p v) :
    (attributeOf name id values).AllNames p := by
  have hfold : ∀ (vs : List String) (a : Attribute), (∀ v ∈ vs, p v) → a.AllNames p →
      (vs.foldl Attribute.push a).AllNames p := by
    intro vs
    induction vs with
    | nil => exact fun _ _ ha => ha
    | cons v rest ih =>
      intro a hvs ha
      exact ih _ (fun w hw => hvs w (by simp [hw])) (ha.push (hvs v (by simp)))
  have hnew : (Attribute.new name id).AllNames p := ⟨hname, by simp [Attribute.new]⟩
  unfold attributeOf
  split
  · exact hnew
  · exact hfold values _ hvalues hnew

/-- Described attributes have dense codes and names that schema text can spell. -/
theorem Described.attributes {b : SchemaBuilder} (h : Described b) :
    ∀ a ∈ b.attributes, a.Dense ∧ a.AllNames IsName := by
  induction h with
  | empty => simp [SchemaBuilder.empty]
  | @define b name values _ hname hfresh _ hvalues ih =>
    rw [defineAttribute_of_fresh hfresh]
    intro a ha
    rcases List.mem_append.mp ha with hold | hnew
    · exact ih a hold
    · rw [List.mem_singleton] at hnew
      subst hnew
      exact ⟨dense_attributeOf _ _ _, allNames_attributeOf hname hvalues⟩

/-! ### Statements -/

/-- What the statement that is not complete yet may be, given the attributes so far. -/
def Phase.Valid (b : SchemaBuilder) : Phase → Prop
  | .start => True
  | .named name => IsName name.name
  | .value name values =>
    IsName name.name ∧ b.contains name.name = false ∧ ∀ v ∈ values, IsName v
  | .separator name values =>
    IsName name.name ∧ b.contains name.name = false ∧ values ≠ [] ∧ ∀ v ∈ values, IsName v

/-- The invariant of reading: the attributes so far come from complete statements. -/
structure State.Valid (s : State) : Prop where
  described : Described s.builder
  phase : s.phase.Valid s.builder

/-- One token keeps the invariant. -/
theorem State.Valid.step {s s' : State} (h : s.Valid) {t : Token TokenKind} (ht : Spelled t)
    (hstep : s.step t = .ok s') : s'.Valid := by
  obtain ⟨b, definitions, declaration, phase⟩ := s
  obtain ⟨hb, hphase⟩ := h
  obtain ⟨kind, text, span⟩ := t
  cases phase with
  | start =>
    cases kind <;> simp only [State.step, Except.ok.injEq, reduceCtorEq] at hstep
    subst hstep
    exact ⟨hb, ht rfl⟩
  | named name =>
    cases kind <;> simp only [State.step, Except.ok.injEq, reduceCtorEq] at hstep
    · subst hstep
      exact ⟨hb, trivial⟩
    · split at hstep
      · cases hstep
      · rename_i hfresh
        cases hstep
        exact ⟨hb, hphase, by simpa using hfresh, by simp⟩
  | value name values =>
    obtain ⟨hname, hfresh, hvalues⟩ := hphase
    cases kind <;> simp only [State.step, Except.ok.injEq, reduceCtorEq] at hstep
    subst hstep
    refine ⟨hb, hname, hfresh, by simp, ?_⟩
    intro v hv
    rcases List.mem_append.mp hv with hold | hnew
    · exact hvalues v hold
    · rw [List.mem_singleton] at hnew
      exact hnew ▸ ht rfl
  | separator name values =>
    obtain ⟨hname, hfresh, hne, hvalues⟩ := hphase
    cases kind <;> simp only [State.step, Except.ok.injEq, reduceCtorEq] at hstep
    · subst hstep
      exact ⟨.define hb hname hfresh hne hvalues, trivial⟩
    · subst hstep
      exact ⟨hb, hname, hfresh, hvalues⟩

theorem State.Valid.initial : State.initial.Valid := ⟨.empty, trivial⟩

theorem State.finish_ok {s : State} {stop : Span} {schema : Schema}
    (h : s.finish stop = .ok schema) :
    ∃ d, s.declaration = some d ∧ s.builder.finish (s.resolve d).name = .ok schema := by
  unfold State.finish at h
  split at h
  · cases h
  · rename_i d _ hd
    dsimp only at h
    split at h
    · rename_i schema' hschema
      cases h
      exact ⟨d, hd, hschema⟩
    · cases h
  · cases h

/-- A parse that succeeds is a run over all tokens that ends well. -/
theorem run_of_parse {file : SourceFile} {schema : Schema} (h : parse file = .ok schema) :
    ∃ s, (tokens file.content.toList).foldlM State.step State.initial = .ok s ∧
      s.finish file.endSpan = .ok schema := by
  unfold parse at h
  rcases hrun : (tokens file.content.toList).foldlM State.step State.initial with e | s
  · simp only [hrun, bind, Except.bind, Except.mapError, reduceCtorEq] at h
  · refine ⟨s, rfl, ?_⟩
    rcases hfinish : s.finish file.endSpan with e | schema'
    · simp only [hrun, hfinish, bind, Except.bind, Except.mapError, reduceCtorEq] at h
    · simp only [hrun, hfinish, bind, Except.bind, Except.mapError, Except.ok.injEq] at h
      rw [h]

/-- **A schema that is read is finished** by a builder that complete statements have led to. -/
theorem exists_described_of_parse {file : SourceFile} {schema : Schema}
    (h : parse file = .ok schema) :
    ∃ (b : SchemaBuilder) (decision : String), Described b ∧ b.finish decision = .ok schema := by
  obtain ⟨s, hrun, hfinish⟩ := run_of_parse h
  have hvalid : s.Valid :=
    foldlM_invariant (fun _ t _ ht hs => hs.step (spelled_tokens _ t ht)) .initial hrun
  obtain ⟨d, -, hschema⟩ := State.finish_ok hfinish
  exact ⟨s.builder, _, hvalid.described, hschema⟩

theorem built_of_parse {file : SourceFile} {s : Schema} (h : parse file = .ok s) : s.Built := by
  obtain ⟨b, decision, hb, hfinish⟩ := exists_described_of_parse h
  exact ⟨b, decision, hb.reachable, hfinish⟩

/-- A schema is well-formed, whether it was built by calls or read. -/
theorem wellFormed_of_source {s : Schema}
    (source : s.Built ∨ ∃ names, parse names = .ok s) : s.WellFormed := by
  rcases source with hbuilt | ⟨names, hread⟩
  · exact hbuilt.wellFormed
  · exact (built_of_parse hread).wellFormed

theorem dense_of_parse {file : SourceFile} {s : Schema} (h : parse file = .ok s) : s.Dense := by
  obtain ⟨b, decision, hb, hfinish⟩ := exists_described_of_parse h
  obtain ⟨hattributes, -⟩ := SchemaBuilder.finish_ok hfinish
  intro a ha
  exact (hb.attributes a (hattributes ▸ ha)).1

theorem allNames_of_parse {file : SourceFile} {s : Schema} (h : parse file = .ok s) :
    s.AllNames IsName := by
  obtain ⟨b, decision, hb, hfinish⟩ := exists_described_of_parse h
  obtain ⟨hattributes, -⟩ := SchemaBuilder.finish_ok hfinish
  intro a ha
  exact (hb.attributes a (hattributes ▸ ha)).2

end Names

end DecisionModel
