import DecisionModel.Proofs.Schema.Builder
import DecisionModel.Schema.Builder

/-!
# The decision table of a finished schema

A schema is finished only if the codes of its decision attribute are `0, 1, …, n - 1`.  The
table of names that finishing fills then holds, at each position, the name of the value that
has the position as its code, and nothing else.  Values that are numbered in order always have
such codes.
-/

namespace DecisionModel.SchemaBuilder

/-! ### Filling the table -/

/-- What filling does to a table: it puts each value at the position of its code, and keeps
    what is there. -/
structure Fills (values : List (String × Int)) (names filled : List (Option String)) : Prop where
  length_eq : filled.length = names.length
  put : ∀ value code, (value, code) ∈ values →
    ∃ i : Nat, code = i ∧ filled[i]? = some (some value)
  kept : ∀ (i : Nat) (value : String), names[i]? = some (some value) →
    filled[i]? = some (some value)
  source : ∀ (i : Nat) (value : String), filled[i]? = some (some value) →
    names[i]? = some (some value) ∨ (value, (i : Int)) ∈ values
  count_eq : filled.countP Option.isSome = names.countP Option.isSome + values.length

theorem countP_set_some {names : List (Option String)} {i : Nat} (value : String)
    (hi : i < names.length) (free : names[i]?.join = none) :
    (names.set i (some value)).countP Option.isSome = names.countP Option.isSome + 1 := by
  have hget : names[i] = none := by
    rw [List.getElem?_eq_getElem hi] at free
    simpa using free
  rw [List.countP_set hi]
  simp [hget]

theorem fills_of_fillNames {attr : String} {codes : List Int} {values : List (String × Int)} :
    ∀ {names filled : List (Option String)}, fillNames attr codes values names = .ok filled →
      Fills values names filled := by
  induction values with
  | nil =>
    intro names filled h
    simp only [fillNames, Except.ok.injEq] at h
    subst h
    exact ⟨rfl, by simp, by simp, fun i value h => .inl h, by simp⟩
  | cons entry rest ih =>
    obtain ⟨value, code⟩ := entry
    intro names filled h
    simp only [fillNames] at h
    split at h
    · cases h
    · rename_i hrange
      split at h
      · cases h
      · rename_i hfree
        have hlt : code.toNat < names.length := by omega
        have hcode : code = (code.toNat : Int) := by omega
        simp only [Option.not_isSome_iff_eq_none] at hfree
        have hrest := ih h
        have hset : ∀ i : Nat, (names.set code.toNat (some value))[i]? =
            if code.toNat = i then some (some value) else names[i]? := by
          intro i
          rw [List.getElem?_set]
          by_cases hi : code.toNat = i
          · subst hi
            simp [hlt]
          · simp [hi]
        refine ⟨?_, ?_, ?_, ?_, ?_⟩
        · rw [hrest.length_eq, List.length_set]
        · intro v c hvc
          rcases List.mem_cons.mp hvc with heq | hmem
          · cases heq
            refine ⟨code.toNat, hcode, hrest.kept _ _ ?_⟩
            rw [hset, if_pos rfl]
          · exact hrest.put v c hmem
        · intro i v hv
          refine hrest.kept i v ?_
          rw [hset]
          by_cases hi : code.toNat = i
          · subst hi
            rw [hv] at hfree
            cases hfree
          · rw [if_neg hi, hv]
        · intro i v hv
          rcases hrest.source i v hv with hold | hmem
          · rw [hset] at hold
            by_cases hi : code.toNat = i
            · rw [if_pos hi] at hold
              cases hold
              right
              rw [← hi, ← hcode]
              simp
            · rw [if_neg hi] at hold
              exact .inl hold
          · exact .inr (List.mem_cons_of_mem _ hmem)
        · rw [hrest.count_eq, countP_set_some value hlt hfree, List.length_cons]
          omega

/-- A table without empty places is the list of its names. -/
theorem eq_map_some_filterMap {names : List (Option String)}
    (full : names.countP Option.isSome = names.length) :
    names = (names.filterMap id).map some := by
  rw [List.countP_eq_length] at full
  induction names with
  | nil => rfl
  | cons entry rest ih =>
    obtain ⟨value, rfl⟩ := Option.isSome_iff_exists.mp (full entry (by simp))
    have hrest := ih (fun e he => full e (List.mem_cons_of_mem _ he))
    simp only [List.filterMap_cons_some (f := id) rfl, List.map_cons, ← hrest]

/-- **The table of a decision attribute** has as many names as there are values, and the name
    at a position is that of the value with the position as its code. -/
theorem namesByCode_ok {a : Attribute} {names : List String} (h : namesByCode a = .ok names) :
    names.length = a.values.length ∧
      ∀ value code, (value, code) ∈ a.values ↔
        ∃ i : Nat, code = i ∧ names[i]? = some value := by
  rcases hfill : fillNames a.name (a.values.map (·.2)) a.values
      (List.replicate a.values.length none) with e | filled
  · simp only [namesByCode, hfill, bind, Except.bind, reduceCtorEq] at h
  · simp only [namesByCode, hfill, bind, Except.bind, Except.ok.injEq] at h
    subst h
    have fills := fills_of_fillNames hfill
    have hlength : filled.length = a.values.length := by
      rw [fills.length_eq, List.length_replicate]
    have hfull : filled.countP Option.isSome = filled.length := by
      rw [fills.count_eq, hlength]
      simp [List.countP_replicate]
    have hnames := eq_map_some_filterMap hfull
    have hget : ∀ (i : Nat) (value : String),
        (filled.filterMap id)[i]? = some value ↔ filled[i]? = some (some value) := by
      intro i value
      conv_rhs => rw [hnames]
      simp [List.getElem?_map]
    constructor
    · rw [← hlength]
      conv_rhs => rw [hnames]
      rw [List.length_map]
    · intro value code
      constructor
      · intro hmem
        obtain ⟨i, hi, hfilled⟩ := fills.put value code hmem
        exact ⟨i, hi, (hget i value).mpr hfilled⟩
      · rintro ⟨i, rfl, hi⟩
        rcases fills.source i value ((hget i value).mp hi) with hnone | hmem
        · simp [List.getElem?_replicate] at hnone
        · exact hmem

/-! ### Finishing -/

/-- What a successful `finish` returns: the attributes of the builder, with a decision
    attribute that is enumerated and has the table of its names. -/
theorem finish_ok {b : SchemaBuilder} {decision : String} {s : Schema}
    (h : b.finish decision = .ok s) :
    s.attributes = b.attributes ∧ s.decisionAttribute.name = decision ∧
      s.decisionAttribute.isEnumerated = true ∧
      namesByCode s.decisionAttribute = .ok s.decisionNames := by
  simp only [finish] at h
  split at h
  · rename_i hposition
    split at h
    · cases h
    · rename_i henumerated
      split at h
      · cases h
      · split at h
        · cases h
        · rename_i names hnames
          cases h
          refine ⟨rfl, ?_, by simpa [Schema.decisionAttribute] using henumerated, hnames⟩
          simpa [Schema.decisionAttribute] using List.findIdx_getElem (w := hposition)
  · cases h

/-! ### Values that are numbered in order -/

/-- Filling goes on behind the values that are in the table. -/
theorem fillNames_numbered (attr : String) (codes : List Int) (rest : List (String × Int)) :
    ∀ done : List String,
      rest.map (·.2) = (List.range' done.length rest.length).map Int.ofNat →
      fillNames attr codes rest (done.map some ++ List.replicate rest.length none) =
        .ok ((done ++ rest.map (·.1)).map some) := by
  induction rest with
  | nil => simp [fillNames]
  | cons entry rest ih =>
    obtain ⟨value, code⟩ := entry
    intro done hcodes
    simp only [List.map_cons, List.length_cons, List.range'_succ, List.cons.injEq] at hcodes
    obtain ⟨rfl, hrest⟩ := hcodes
    have hnext := ih (done ++ [value]) (by simpa using hrest)
    have hget : (done.map some ++ none :: List.replicate rest.length none)[done.length]? =
        some (none : Option String) := by simp
    have hset : (done.map some ++ none :: List.replicate rest.length none).set done.length
        (some value) = (done ++ [value]).map some ++ List.replicate rest.length none := by simp
    simp only [fillNames, List.length_cons, List.replicate_succ, Int.ofNat_eq_natCast,
      Int.toNat_natCast, hget, hset, hnext]
    simp

theorem namesByCode_numbered {a : Attribute}
    (numbered : a.values.map (·.2) = (List.range a.values.length).map Int.ofNat) :
    namesByCode a = .ok (a.values.map (·.1)) := by
  rw [List.range_eq_range'] at numbered
  have hfill := fillNames_numbered a.name (a.values.map (·.2)) a.values [] numbered
  simp only [List.map_nil, List.nil_append] at hfill
  simp [namesByCode, hfill, bind, Except.bind]

/-! ### Refusals -/

theorem finish_of_unknown {b : SchemaBuilder} {decision : String}
    (unknown : b.contains decision = false) :
    b.finish decision = .error (.missingDecision decision) := by
  have hposition : ¬ b.attributes.findIdx (·.name == decision) < b.attributes.length := by
    rw [List.findIdx_lt_length]
    rintro ⟨a, ha, hname⟩
    have hcontains : b.contains decision = true := List.any_eq_true.mpr ⟨a, ha, hname⟩
    rw [unknown] at hcontains
    cases hcontains
  simp only [finish, dif_neg hposition]

/-- Filling a table fails only over codes. -/
theorem fillNames_error {attr : String} {codes : List Int} {values : List (String × Int)}
    {e : SchemaError} : ∀ {names : List (Option String)},
      fillNames attr codes values names = .error e →
        e = .missingCode attr (firstGap codes) ∨ ∃ code, e = .duplicateCode attr code := by
  induction values with
  | nil =>
    intro names h
    cases h
  | cons entry rest ih =>
    obtain ⟨value, code⟩ := entry
    intro names h
    simp only [fillNames] at h
    split at h
    · cases h
      exact .inl rfl
    · split at h
      · cases h
        exact .inr ⟨code, rfl⟩
      · exact ih h

theorem namesByCode_error {a : Attribute} {e : SchemaError} (h : namesByCode a = .error e) :
    (∃ code, e = .missingCode a.name code) ∨ ∃ code, e = .duplicateCode a.name code := by
  rcases bind_eq_error_iff.mp h with hfill | ⟨names, _, hok⟩
  · rcases fillNames_error hfill with hmissing | hduplicate
    · exact .inl ⟨_, hmissing⟩
    · exact .inr hduplicate
  · cases hok

/-- As an enumerated attribute has values, no decision is refused for lack of them. -/
theorem finish_ne_emptyDecision {b : SchemaBuilder} (h : AttributesWellFormed b.attributes)
    (decision attr : String) : b.finish decision ≠ .error (.emptyDecision attr) := by
  intro hempty
  simp only [finish] at hempty
  split at hempty
  · rename_i hposition
    have ha := h.each _ (List.getElem_mem hposition)
    split at hempty
    · cases hempty
    · rename_i henumerated
      split at hempty
      · rename_i hvalues
        exact ha.enumerated_iff.mp (by simpa using henumerated) (List.isEmpty_iff.mp hvalues)
      · split at hempty
        · rename_i e hnames
          cases hempty
          rcases namesByCode_error hnames with ⟨code, hcode⟩ | ⟨code, hcode⟩
          · cases hcode
          · cases hcode
        · cases hempty
  · cases hempty

/-- Where names are distinct, an attribute is found under its name. -/
theorem getElem_findIdx_name {b : SchemaBuilder} (distinct : (b.attributes.map (·.name)).Nodup)
    {a : Attribute} (ha : a ∈ b.attributes) :
    ∃ h : b.attributes.findIdx (·.name == a.name) < b.attributes.length,
      b.attributes[b.attributes.findIdx (·.name == a.name)] = a := by
  have hposition : b.attributes.findIdx (·.name == a.name) < b.attributes.length := by
    rw [List.findIdx_lt_length]
    exact ⟨a, ha, by simp⟩
  refine ⟨hposition, ?_⟩
  have hname := List.findIdx_getElem (w := hposition)
  exact List.inj_on_of_nodup_map distinct (List.getElem_mem hposition) ha (by simpa using hname)

theorem finish_of_continuous {b : SchemaBuilder} (distinct : (b.attributes.map (·.name)).Nodup)
    {a : Attribute} (ha : a ∈ b.attributes) (continuous : a.isEnumerated = false) :
    b.finish a.name = .error (.decisionNotEnumerated a.name) := by
  obtain ⟨hposition, hget⟩ := getElem_findIdx_name distinct ha
  simp only [finish, dif_pos hposition, hget, if_pos continuous]

section

variable {b : SchemaBuilder} (distinct : (b.attributes.map (·.name)).Nodup) {a : Attribute}
  (ha : a ∈ b.attributes) (enumerated : a.isEnumerated = true) (nonempty : a.values ≠ [])

include distinct ha enumerated nonempty

/-- An attribute with a table of names can be the decision. -/
theorem finish_of_table {names : List String} (table : namesByCode a = .ok names) :
    ∃ s, b.finish a.name = .ok s ∧ s.attributes = b.attributes ∧ s.decisionAttribute = a ∧
      s.decisionNames = names := by
  obtain ⟨hposition, hget⟩ := getElem_findIdx_name distinct ha
  have henumerated : ¬ a.isEnumerated = false := by simp [enumerated]
  have hvalues : ¬ a.values.isEmpty = true := by simpa using nonempty
  refine ⟨⟨b.attributes, ⟨b.attributes.findIdx (·.name == a.name)⟩, names, hposition⟩, ?_, rfl, ?_,
    rfl⟩
  · simp only [finish, dif_pos hposition, hget, if_neg henumerated, if_neg hvalues, table]
  · exact hget

/-- An attribute without one is refused for the reason that there is none. -/
theorem finish_of_no_table {e : SchemaError} (reason : namesByCode a = .error e) :
    b.finish a.name = .error e := by
  obtain ⟨hposition, hget⟩ := getElem_findIdx_name distinct ha
  have henumerated : ¬ a.isEnumerated = false := by simp [enumerated]
  have hvalues : ¬ a.values.isEmpty = true := by simpa using nonempty
  simp only [finish, dif_pos hposition, hget, if_neg henumerated, if_neg hvalues, reason]

/-- **An attribute whose values are numbered in order can be the decision.** -/
theorem finish_of_numbered
    (numbered : a.values.map (·.2) = (List.range a.values.length).map Int.ofNat) :
    ∃ s, b.finish a.name = .ok s ∧ s.attributes = b.attributes ∧ s.decisionAttribute = a ∧
      s.decisionNames = a.values.map (·.1) :=
  finish_of_table distinct ha enumerated nonempty (namesByCode_numbered numbered)

end

end DecisionModel.SchemaBuilder
