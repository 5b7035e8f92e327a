import DecisionModel.Proofs.Schema.Invariant

/-!
# Names and codes of values

A code is translated into a name by searching the values of its attribute, and a name into a code
by looking it up among them.  Names are distinct, so what the search finds is looked up as what
was searched for; the converse needs distinct codes.  Decision attributes have them, and for
these the table of names by code is a third way, which agrees with the search.
-/

namespace DecisionModel

namespace Attribute

variable {a : Attribute} {value : String} {code : Int}

theorem mem_of_nameOf?_eq_some (h : a.nameOf? code = some value) : (value, code) ∈ a.values := by
  obtain ⟨⟨value', code'⟩, hfind, rfl⟩ := Option.map_eq_some_iff.mp h
  have hcode : code' = code := by simpa using List.find?_some hfind
  exact hcode ▸ List.mem_of_find?_eq_some hfind

theorem nameOf?_eq_some_iff_mem (distinct : (a.values.map (·.2)).Nodup) :
    a.nameOf? code = some value ↔ (value, code) ∈ a.values := by
  constructor
  · exact mem_of_nameOf?_eq_some
  · intro hmem
    have hfind : a.values.find? (·.2 == code) = some (value, code) :=
      (find?_key_eq_some_iff distinct).mpr ⟨hmem, rfl⟩
    rw [nameOf?, hfind]
    rfl

theorem WellFormed.codeOf?_of_nameOf? (ha : a.WellFormed) (h : a.nameOf? code = some value) :
    a.codeOf? value = some code :=
  ha.codeOf?_eq_some_iff.mpr (mem_of_nameOf?_eq_some h)

/-- Where codes are distinct too, names and codes determine each other. -/
theorem WellFormed.nameOf?_eq_some_iff_codeOf? (ha : a.WellFormed)
    (distinct : (a.values.map (·.2)).Nodup) :
    a.nameOf? code = some value ↔ a.codeOf? value = some code := by
  rw [nameOf?_eq_some_iff_mem distinct, ha.codeOf?_eq_some_iff]

end Attribute

namespace Schema

variable {s : Schema}

/-! ### Looking attributes up -/

theorem WellFormed.find_eq_ok_iff (h : s.WellFormed) {attr : String} {a : Attribute} :
    s.find attr = .ok a ↔ a ∈ s.attributes ∧ a.name = attr := by
  rw [← find?_key_eq_some_iff h.attributes.names_distinct, ← attribute?, find]
  rcases s.attribute? attr with _ | found
  · simp
  · simp

theorem WellFormed.findEnumerated_eq_ok_iff (h : s.WellFormed) {attr : String} {a : Attribute} :
    s.findEnumerated attr = .ok a ↔
      a ∈ s.attributes ∧ a.name = attr ∧ a.isEnumerated = true := by
  rw [findEnumerated, bind_eq_ok_iff]
  constructor
  · rintro ⟨found, hfind, henumerated⟩
    split at henumerated
    · rename_i hkind
      cases henumerated
      obtain ⟨hmem, hname⟩ := h.find_eq_ok_iff.mp hfind
      exact ⟨hmem, hname, hkind⟩
    · cases henumerated
  · rintro ⟨hmem, hname, hkind⟩
    exact ⟨a, h.find_eq_ok_iff.mpr ⟨hmem, hname⟩, if_pos hkind⟩

section

variable {a : Attribute} (h : s.WellFormed) (ha : a ∈ s.attributes)
  (enumerated : a.isEnumerated = true)

include h ha enumerated

/-- The name for a code of an enumerated attribute is what the search among its values finds. -/
theorem WellFormed.valueName_of_mem (code : Int) :
    s.valueName a.name code = match a.nameOf? code with
      | some value => .ok value
      | none => .error (.unknownCode a.name code) := by
  have hfind : s.findEnumerated a.name = .ok a :=
    h.findEnumerated_eq_ok_iff.mpr ⟨ha, rfl, enumerated⟩
  rcases hname : a.nameOf? code with _ | value
  · simp only [valueName, hfind, ok_bind, hname]
  · simp only [valueName, hfind, ok_bind, hname]

theorem WellFormed.valueName_of_mem_eq_ok_iff {code : Int} {value : String} :
    s.valueName a.name code = .ok value ↔ a.nameOf? code = some value := by
  rw [h.valueName_of_mem ha enumerated]
  rcases a.nameOf? code with _ | found
  · simp
  · simp

/-- The code of a name of an enumerated attribute is what stands beside it among its values. -/
theorem WellFormed.integerValue_of_mem (value : String) :
    s.integerValue a.name value = match a.codeOf? value with
      | some code => .ok code
      | none => .error (.unknownValue a.name value) := by
  have hfind : s.findEnumerated a.name = .ok a :=
    h.findEnumerated_eq_ok_iff.mpr ⟨ha, rfl, enumerated⟩
  rcases hcode : a.codeOf? value with _ | code
  · simp only [integerValue, hfind, ok_bind, hcode]
  · simp only [integerValue, hfind, ok_bind, hcode]

theorem WellFormed.integerValue_of_mem_eq_ok_iff {value : String} {code : Int} :
    s.integerValue a.name value = .ok code ↔ a.codeOf? value = some code := by
  rw [h.integerValue_of_mem ha enumerated]
  rcases a.codeOf? value with _ | found
  · simp
  · simp

end

/-- **A name that has been found for a code is translated back into the code**, whatever the
    attribute. -/
theorem WellFormed.integerValue_of_valueName (h : s.WellFormed) {attr value : String} {code : Int}
    (hname : s.valueName attr code = .ok value) : s.integerValue attr value = .ok code := by
  obtain ⟨a, hfind, -⟩ := bind_eq_ok_iff.mp hname
  obtain ⟨ha, rfl, henumerated⟩ := h.findEnumerated_eq_ok_iff.mp hfind
  have hfound := (h.valueName_of_mem_eq_ok_iff ha henumerated).mp hname
  rw [h.integerValue_of_mem_eq_ok_iff ha henumerated]
  exact (h.attributes.each a ha).codeOf?_of_nameOf? hfound

/-! ### The decision attribute -/

theorem isSome_decisionName?_iff {code : Int} :
    (s.decisionName? code).isSome = true ↔ 0 ≤ code ∧ code < s.decisionCount := by
  rw [Option.isSome_iff_exists]
  constructor
  · rintro ⟨value, hname⟩
    obtain ⟨i, rfl, hi⟩ := decisionName?_eq_some_iff.mp hname
    have hlt := (List.getElem?_eq_some_iff.mp hi).1
    exact ⟨by omega, by simpa [decisionCount] using hlt⟩
  · rintro ⟨hlow, hhigh⟩
    have hindex : code.toNat < s.decisionNames.length := by
      unfold decisionCount at hhigh
      omega
    refine ⟨s.decisionNames[code.toNat], ?_⟩
    rw [decisionName?_eq_some_iff]
    exact ⟨code.toNat, by omega, List.getElem?_eq_getElem hindex⟩

/-- No two decision values have the same code, as the table has one name for each code. -/
theorem WellFormed.decisionCodes_distinct (h : s.WellFormed) :
    (s.decisionAttribute.values.map (·.2)).Nodup := by
  have hnames := (h.attributes.each _ s.decisionAttribute_mem).names_distinct
  refine List.Nodup.map_on ?_ hnames.of_map
  rintro ⟨value, code⟩ hmem ⟨value', code'⟩ hmem' hcode
  dsimp only at hcode
  subst hcode
  have hname := (h.decision_table value code).mp hmem
  have hname' := (h.decision_table value' code).mp hmem'
  rw [Option.some.inj (hname.symm.trans hname')]

/-- The table of decision names agrees with the search among the decision values. -/
theorem WellFormed.nameOf?_decisionAttribute (h : s.WellFormed) (code : Int) :
    s.decisionAttribute.nameOf? code = s.decisionName? code := by
  apply Option.ext
  intro value
  rw [Attribute.nameOf?_eq_some_iff_mem h.decisionCodes_distinct, h.decision_table]

theorem WellFormed.decisionName?_eq_some_iff_decisionCode? (h : s.WellFormed) {value : String}
    {code : Int} : s.decisionName? code = some value ↔ s.decisionCode? value = some code := by
  rw [← h.decision_table, decisionCode?,
    (h.attributes.each _ s.decisionAttribute_mem).codeOf?_eq_some_iff]

end Schema

end DecisionModel
