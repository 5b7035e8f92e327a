import DecisionModel.Proofs.Schema.Runs

/-!
# Codes that builders hand out

A value that is pushed gets the number of the values in front of it as its code, whatever codes
these have.  Values that were pushed have codes below the number of values, so that the code is
free unless a value was inserted under it.  Codes that are registered never change.
-/

namespace DecisionModel

namespace Attribute

/-- The attribute has the name and the values, in their order, and perhaps more values. -/
structure Extends (a' a : Attribute) : Prop where
  name_eq : a'.name = a.name
  values_prefix : a.values <+: a'.values

namespace Extends

variable {a a' a'' : Attribute}

theorem refl (a : Attribute) : a.Extends a := ⟨rfl, List.prefix_rfl⟩

theorem trans (h : a''.Extends a') (h' : a'.Extends a) : a''.Extends a :=
  ⟨h.name_eq.trans h'.name_eq, h'.values_prefix.trans h.values_prefix⟩

theorem register (a : Attribute) (value : String) (code : Int) :
    (a.register value code).Extends a := ⟨rfl, List.prefix_append _ _⟩

/-- The code of a value stays as it is. -/
theorem codeOf? (h : a'.Extends a) {value : String} {code : Int}
    (hcode : a.codeOf? value = some code) : a'.codeOf? value = some code := by
  obtain ⟨more, hmore⟩ := h.values_prefix
  rw [Attribute.codeOf?, ← hmore, List.lookup_append, ← Attribute.codeOf?, hcode]
  rfl

end Extends

/-- Behind a value under a new name the codes of the others are as they were. -/
theorem codeOf?_register_of_ne {a : Attribute} {value other : String} (code : Int)
    (h : other ≠ value) : (a.register value code).codeOf? other = a.codeOf? other := by
  have hother : (other == value) = false := by simpa using h
  simp only [codeOf?, register, List.lookup_append, List.lookup_cons, hother, List.lookup_nil,
    Option.or_none]

theorem codeOf?_register_self {a : Attribute} {value : String} (code : Int)
    (fresh : a.codeOf? value = none) : (a.register value code).codeOf? value = some code := by
  rw [codeOf?] at fresh
  simp [codeOf?, register, List.lookup_append, fresh]

end Attribute

namespace SchemaBuilder

variable {b : SchemaBuilder} {calls : List Call} {id : AttrId} {a : Attribute}

/-! ### One call -/

theorem getElem?_modify_cases {f : Attribute → Attribute} {i : Nat} {a' : Attribute}
    (h : (b.modify id f).attributes[i]? = some a') :
    b.attributes[i]? = some a' ∨ ∃ a, id = ⟨i⟩ ∧ b.attributes[i]? = some a ∧ a' = f a := by
  rw [modify, List.getElem?_modify] at h
  obtain ⟨a, ha, rfl⟩ := Option.map_eq_some_iff.mp h
  by_cases hi : id.index = i
  · subst hi
    exact .inr ⟨a, rfl, ha, by simp⟩
  · exact .inl (by simpa [hi] using ha)

/-- What a call does to the attribute at a position: it leaves it as it is, or defines it, or
    registers one more value for it. -/
theorem call_cases {c : Call} {i : Nat} {a' : Attribute}
    (h : (b.call c).attributes[i]? = some a') :
    b.attributes[i]? = some a' ∨
    (∃ name, b.attributes[i]? = none ∧ a' = .new name ⟨i⟩) ∨
    ∃ a value code, b.attributes[i]? = some a ∧ a.codeOf? value = none ∧
      a' = a.register value code ∧
      (c = .pushValue ⟨i⟩ value ∧ code = a.values.length ∨ c = .insertValue ⟨i⟩ value code) := by
  cases c with
  | define name =>
    simp only [call] at h
    by_cases hname : name ∈ b.attributes.map (·.name)
    · rw [define_of_known hname] at h
      exact .inl h
    · rw [define_of_fresh hname] at h
      by_cases hi : i < b.attributes.length
      · rw [List.getElem?_append_left hi] at h
        exact .inl h
      · rw [List.getElem?_append_right (Nat.le_of_not_lt hi), List.getElem?_singleton] at h
        split at h
        · cases h
          have hlast : b.attributes.length = i := by omega
          exact .inr (.inl ⟨name, by simpa using hi, by rw [hlast]⟩)
        · cases h
  | pushValue id value =>
    rw [call, pushValue_eq_modify] at h
    rcases getElem?_modify_cases h with hold | ⟨a, rfl, ha, rfl⟩
    · exact .inl hold
    · unfold Attribute.push
      split
      · exact .inl ha
      · rename_i hfresh
        exact .inr (.inr ⟨a, value, _, ha, Option.not_isSome_iff_eq_none.mp hfresh, rfl,
          .inl ⟨rfl, rfl⟩⟩)
  | insertValue id value code =>
    simp only [call] at h
    split at h
    · rename_i b' hinsert
      rcases insertValue_cases hinsert with rfl | ⟨a, ha, hfresh, rfl⟩
      · exact .inl h
      · rcases getElem?_modify_cases h with hold | ⟨a₁, rfl, ha₁, rfl⟩
        · exact .inl hold
        · cases ha.symm.trans ha₁
          exact .inr (.inr ⟨a, value, code, ha, hfresh, rfl, .inr rfl⟩)
    · exact .inl h

/-- **A call keeps every attribute**, but for values that it adds at the end. -/
theorem exists_extends_call {i : Nat} (h : b.attributes[i]? = some a) (c : Call) :
    ∃ a', (b.call c).attributes[i]? = some a' ∧ a'.Extends a := by
  obtain ⟨more, hnames⟩ := names_prefix_call b c
  have hi : i < (b.attributes.map (·.name)).length := by
    rw [List.length_map]
    exact (List.getElem?_eq_some_iff.mp h).1
  have hname : ((b.call c).attributes.map (·.name))[i]? = some a.name := by
    rw [← hnames, List.getElem?_append_left hi, List.getElem?_map, h]
    rfl
  rw [List.getElem?_map] at hname
  obtain ⟨a', ha', -⟩ := Option.map_eq_some_iff.mp hname
  refine ⟨a', ha', ?_⟩
  rcases call_cases ha' with hold | ⟨name, hnone, -⟩ | ⟨a₁, value, code, ha₁, -, rfl, -⟩
  · cases h.symm.trans hold
    exact .refl a
  · rw [h] at hnone
    cases hnone
  · cases h.symm.trans ha₁
    exact .register a value code

theorem exists_extends_run {i : Nat} {before : List Call}
    (h : (run before).attributes[i]? = some a) (later : List Call) :
    ∃ a', (run (before ++ later)).attributes[i]? = some a' ∧ a'.Extends a := by
  induction later using List.reverseRecOn with
  | nil => exact ⟨a, by rwa [List.append_nil], .refl a⟩
  | append_singleton later c ih =>
    obtain ⟨a', ha', hextends⟩ := ih
    obtain ⟨a'', ha'', hextends'⟩ := exists_extends_call ha' c
    rw [← List.append_assoc, run_concat]
    exact ⟨a'', ha'', hextends'.trans hextends⟩

/-! ### Codes that were inserted -/

/-- Among the calls, one has inserted a value of the attribute under the code. -/
def Inserted (calls : List Call) (id : AttrId) (code : Int) : Prop :=
  ∃ before value later a, calls = before ++ .insertValue id value code :: later ∧
    (run before).attributes[id.index]? = some a ∧ a.codeOf? value = none

theorem Inserted.concat {code : Int} (h : Inserted calls id code) (c : Call) :
    Inserted (calls ++ [c]) id code := by
  obtain ⟨before, value, later, a, rfl, ha, hfresh⟩ := h
  exact ⟨before, value, later ++ [c], a, by simp, ha, hfresh⟩

/-- A code that was inserted is a code of the attribute for ever. -/
theorem Inserted.mem_codes {code : Int} (h : Inserted calls id code)
    (ha : (run calls).attributes[id.index]? = some a) : code ∈ a.values.map (·.2) := by
  obtain ⟨before, value, later, a₀, rfl, ha₀, hfresh⟩ := h
  have hinsert : (run before).insertValue id value code =
      .ok ((run before).modify id (·.register value code)) := by
    simp [insertValue, ha₀, hfresh]
  have hregistered : (run (before ++ [.insertValue id value code])).attributes[id.index]? =
      some (a₀.register value code) := by
    rw [run_concat, call, hinsert]
    simp [modify, ha₀]
  obtain ⟨a', ha', hextends⟩ := exists_extends_run hregistered later
  rw [List.append_assoc, List.singleton_append] at ha'
  cases ha.symm.trans ha'
  refine List.mem_map.mpr ⟨(value, code), hextends.values_prefix.subset ?_, rfl⟩
  simp [Attribute.register]

/-- **Codes that were not inserted are below the number of values.** -/
theorem lt_or_inserted_of_mem {i : Nat} {entry : String × Int} :
    ∀ {a : Attribute}, (run calls).attributes[i]? = some a → entry ∈ a.values →
      entry.2 < a.values.length ∨ Inserted calls ⟨i⟩ entry.2 := by
  induction calls using List.reverseRecOn with
  | nil =>
    intro a ha
    simp [run, empty] at ha
  | append_singleton calls c ih =>
    intro a' ha' hentry
    rw [run_concat] at ha'
    rcases call_cases ha' with hold | ⟨name, -, rfl⟩ | ⟨a, value, code, ha, hfresh, rfl, hcall⟩
    · exact (ih hold hentry).imp_right (·.concat c)
    · simp [Attribute.new] at hentry
    · simp only [Attribute.register, List.mem_append, List.mem_singleton] at hentry
      simp only [Attribute.register, List.length_append, List.length_singleton]
      rcases hentry with hold | rfl
      · rcases ih ha hold with hlt | hinserted
        · left
          omega
        · exact .inr (hinserted.concat c)
      · rcases hcall with ⟨-, rfl⟩ | rfl
        · left
          omega
        · exact .inr ⟨calls, value, [], a, rfl, ha, hfresh⟩

/-- The number of values is a code exactly if it was inserted. -/
theorem count_mem_codes_iff (ha : (run calls).attributes[id.index]? = some a) :
    (a.values.length : Int) ∈ a.values.map (·.2) ↔ Inserted calls id a.values.length := by
  constructor
  · intro hmem
    obtain ⟨entry, hentry, hcode⟩ := List.mem_map.mp hmem
    rcases lt_or_inserted_of_mem ha hentry with hlt | hinserted
    · omega
    · rwa [hcode] at hinserted
  · intro hinserted
    exact hinserted.mem_codes ha

/-! ### Pushing a new value -/

/-- What pushing a value that the attribute does not have comes to. -/
theorem pushValue_of_fresh (ha : b.attributes[id.index]? = some a) {value : String}
    (fresh : a.codeOf? value = none) :
    b.pushValue id value =
      (some (a.values.length : Int), b.modify id (·.register value a.values.length)) := by
  simp only [pushValue, ha, fresh]

/-- **A value that is pushed gets the number of the values in front of it as its code.**  The code
    is free exactly if no value was inserted under it, and all codes that were registered before,
    of this attribute and of the others, are as they were. -/
theorem pushed_code_free_iff (ha : (run calls).attributes[id.index]? = some a) {value : String}
    (fresh : a.codeOf? value = none) :
    ((run calls).pushValue id value).1 = some (a.values.length : Int) ∧
    (∃ a', ((run calls).pushValue id value).2.attributes[id.index]? = some a' ∧
      a'.codeOf? value = some (a.values.length : Int) ∧
      ((∀ other, other ≠ value → a'.codeOf? other ≠ some (a.values.length : Int)) ↔
        ¬ Inserted calls id a.values.length)) ∧
    ∀ (i : Nat) (c : Attribute), (run calls).attributes[i]? = some c →
      ∃ c', ((run calls).pushValue id value).2.attributes[i]? = some c' ∧ c'.name = c.name ∧
        ∀ other code, c.codeOf? other = some code → c'.codeOf? other = some code := by
  have hpush := pushValue_of_fresh ha fresh
  have hwf := (reachable_run calls).wellFormed.each a (List.mem_of_getElem? ha)
  refine ⟨by rw [hpush], ⟨a.register value a.values.length, ?_, ?_, ?_⟩, ?_⟩
  · rw [hpush]
    simp [modify, ha]
  · exact a.codeOf?_register_self _ fresh
  · rw [← count_mem_codes_iff ha, List.mem_map, not_exists]
    constructor
    · rintro hfree ⟨other, code⟩ ⟨hentry, hcode⟩
      have hother := hwf.codeOf?_eq_some_iff.mpr hentry
      have hne : other ≠ value := by
        rintro rfl
        rw [fresh] at hother
        cases hother
      refine hfree other hne ?_
      rw [a.codeOf?_register_of_ne _ hne, hother]
      exact congrArg some hcode
    · intro hfree other hne hother
      rw [a.codeOf?_register_of_ne _ hne] at hother
      exact hfree _ ⟨hwf.codeOf?_eq_some_iff.mp hother, rfl⟩
  · intro i c hc
    obtain ⟨c', hc', hextends⟩ := exists_extends_call hc (.pushValue id value)
    exact ⟨c', hc', hextends.name_eq, fun _ _ => hextends.codeOf?⟩

/-- The first value of the attribute has the code that the second one would get. -/
def clashingCalls : List Call := [.define "state", .insertValue ⟨0⟩ "play" 1]

def clashingAttribute : Attribute := ⟨"state", ⟨0⟩, .enumerated, .unbound, [("play", 1)]⟩

theorem pushed_code_clashes :
    (run clashingCalls).attributes[0]? = some clashingAttribute ∧
      clashingAttribute.codeOf? "stop" = none ∧ Inserted clashingCalls ⟨0⟩ 1 ∧
      ((run clashingCalls).pushValue ⟨0⟩ "stop").1 = some 1 ∧
      ∃ a', ((run clashingCalls).pushValue ⟨0⟩ "stop").2.attributes[0]? = some a' ∧
        a'.codeOf? "stop" = some 1 ∧ ¬ ∀ other, other ≠ "stop" → a'.codeOf? other ≠ some 1 := by
  have ha : (run clashingCalls).attributes[0]? = some clashingAttribute := by decide
  have hfresh : clashingAttribute.codeOf? "stop" = none := by decide
  have hinserted : Inserted clashingCalls ⟨0⟩ 1 :=
    ⟨[.define "state"], "play", [], .new "state" ⟨0⟩, rfl, rfl, rfl⟩
  obtain ⟨hcode, ⟨a', ha', hstop, hfree⟩, -⟩ :=
    @pushed_code_free_iff clashingCalls ⟨0⟩ clashingAttribute ha "stop" hfresh
  exact ⟨ha, hfresh, hinserted, hcode, a', ha', hstop, fun h => hfree.mp h hinserted⟩

/-- A code that is handed out need not be free. -/
theorem not_every_pushed_code_is_free :
    ¬ ∀ (calls : List Call) (id : AttrId) (a : Attribute) (value : String) (code : Int),
      (run calls).attributes[id.index]? = some a → a.codeOf? value = none →
      ((run calls).pushValue id value).1 = some code → ∀ other, a.codeOf? other ≠ some code := by
  intro h
  exact h clashingCalls ⟨0⟩ clashingAttribute "stop" 1 (by decide) (by decide) (by decide) "play"
    (by decide)

end SchemaBuilder

end DecisionModel
