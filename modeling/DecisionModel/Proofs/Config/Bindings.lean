import DecisionModel.Config
import DecisionModel.Proofs.Schema.Invariant

/-!
# Bindings of configurations

A configuration that was read lists only slots that can be, so that its bindings can be
applied to every schema.  Applying bindings is a run of `bindSlot` and `bindById`.
-/

namespace DecisionModel

namespace Config

/-- All slots that are listed are below the limit. -/
def SlotsInRange (c : Config) : Prop :=
  ∀ bindings, c.bindings = some bindings → ∀ entry ∈ bindings, entry.2 < Slot.limit

theorem slotsInRange_empty : empty.SlotsInRange := by
  intro bindings h
  cases h

theorem slotIndex?_lt {value : Toml.Value} {index : Nat} (h : slotIndex? value = some index) :
    index < Slot.limit := by
  unfold slotIndex? at h
  split at h
  · split at h
    · rename_i n hn
      cases h
      omega
    · cases h
  · cases h

/-! ### Reading keeps slots in range -/

theorem SlotsInRange.of_bindings_eq {c c' : Config} (h : c.SlotsInRange)
    (same : c'.bindings = c.bindings) : c'.SlotsInRange := by
  unfold SlotsInRange
  rw [same]
  exact h

theorem addModelEntry_touches (c : Config) (key : String) (value : Toml.Value) :
    ∃ names tree diagnostics, c.addModelEntry key value =
      { c with names := names, tree := tree, diagnostics := diagnostics } := by
  unfold Config.addModelEntry
  split
  · split
    · split
      · exact ⟨_, _, _, rfl⟩
      · exact ⟨_, _, _, rfl⟩
    · exact ⟨_, _, _, rfl⟩
  · exact ⟨_, _, _, rfl⟩

theorem addBinding_touches (c : Config) (key : String) (value : Toml.Value) :
    ∃ bindings diagnostics, c.addBinding key value =
      { c with bindings := bindings, diagnostics := diagnostics } := by
  unfold Config.addBinding
  split
  · exact ⟨_, _, rfl⟩
  · exact ⟨_, _, rfl⟩

theorem addEvaluationEntry_touches (c : Config) (key : String) (value : Toml.Value) :
    ∃ evaluation diagnostics, c.addEvaluationEntry key value =
      { c with evaluation := evaluation, diagnostics := diagnostics } := by
  unfold Config.addEvaluationEntry
  split
  · split
    · exact ⟨_, _, rfl⟩
    · exact ⟨_, _, rfl⟩
    · exact ⟨_, _, rfl⟩
  · exact ⟨_, _, rfl⟩

theorem bindings_addModelEntry (c : Config) (key : String) (value : Toml.Value) :
    (c.addModelEntry key value).bindings = c.bindings := by
  obtain ⟨names, tree, diagnostics, hadd⟩ := addModelEntry_touches c key value
  rw [hadd]

theorem bindings_addEvaluationEntry (c : Config) (key : String) (value : Toml.Value) :
    (c.addEvaluationEntry key value).bindings = c.bindings := by
  obtain ⟨evaluation, diagnostics, hadd⟩ := addEvaluationEntry_touches c key value
  rw [hadd]

theorem SlotsInRange.addModelEntry {c : Config} (h : c.SlotsInRange) (key : String)
    (value : Toml.Value) : (c.addModelEntry key value).SlotsInRange :=
  h.of_bindings_eq (bindings_addModelEntry c key value)

theorem SlotsInRange.addEvaluationEntry {c : Config} (h : c.SlotsInRange) (key : String)
    (value : Toml.Value) : (c.addEvaluationEntry key value).SlotsInRange :=
  h.of_bindings_eq (bindings_addEvaluationEntry c key value)

theorem SlotsInRange.addBinding {c : Config} (h : c.SlotsInRange) (key : String)
    (value : Toml.Value) : (c.addBinding key value).SlotsInRange := by
  unfold Config.addBinding
  split
  · rename_i index hindex
    intro bindings hbindings entry hentry
    cases hbindings
    rcases List.mem_append.mp hentry with hold | hnew
    · rcases hc : c.bindings with _ | old
      · simp [hc] at hold
      · rw [hc] at hold
        exact h old hc entry hold
    · rw [List.mem_singleton] at hnew
      subst hnew
      exact slotIndex?_lt hindex
  · exact h.of_bindings_eq rfl

theorem SlotsInRange.addEntries {c : Config} (h : c.SlotsInRange) (entries : Toml.Table)
    {add : Config → String → Toml.Value → Config}
    (hadd : ∀ (c : Config) key value, c.SlotsInRange → (add c key value).SlotsInRange) :
    (c.addEntries entries add).SlotsInRange := by
  unfold Config.addEntries
  induction entries generalizing c with
  | nil => exact h
  | cons entry rest ih => exact ih (hadd c entry.1 entry.2 h)

/-- The ways that an entry of the whole goes: it is a section, or it is reported. -/
theorem addSection_cases (c : Config) (key : String) (value : Toml.Value) :
    (∃ entries, key = "model" ∧ value = .table entries ∧
      c.addSection key value = c.addEntries entries addModelEntry) ∨
    (∃ entries, key = "bindings" ∧ value = .table entries ∧
      c.addSection key value = { c with bindings := some [] }.addEntries entries addBinding) ∨
    (∃ entries, key = "evaluation" ∧ value = .table entries ∧
      c.addSection key value = c.addEntries entries addEvaluationEntry) ∨
    ((key = "model" ∨ key = "bindings" ∨ key = "evaluation" → ∀ entries, value ≠ .table entries) ∧
      ∃ d, c.addSection key value = c.report d) := by
  unfold addSection
  split
  · rename_i hkey
    split
    · rename_i entries
      rcases hkey with rfl | rfl | rfl
      · exact .inl ⟨entries, rfl, rfl, rfl⟩
      · exact .inr (.inl ⟨entries, rfl, rfl, rfl⟩)
      · exact .inr (.inr (.inl ⟨entries, rfl, rfl, rfl⟩))
    · rename_i hvalue
      exact .inr (.inr (.inr ⟨fun _ => hvalue, _, rfl⟩))
  · rename_i hkey
    exact .inr (.inr (.inr ⟨fun h => absurd h hkey, _, rfl⟩))

theorem SlotsInRange.addSection {c : Config} (h : c.SlotsInRange) (key : String)
    (value : Toml.Value) : (c.addSection key value).SlotsInRange := by
  rcases c.addSection_cases key value with ⟨entries, -, -, hadd⟩ | ⟨entries, -, -, hadd⟩ |
    ⟨entries, -, -, hadd⟩ | ⟨-, d, hadd⟩
  · rw [hadd]
    exact h.addEntries _ fun _ key value hc => hc.addModelEntry key value
  · have hnew : ({ c with bindings := some [] } : Config).SlotsInRange := by
      intro bindings hbindings entry hentry
      cases hbindings
      cases hentry
    rw [hadd]
    exact hnew.addEntries _ fun _ key value hc => hc.addBinding key value
  · rw [hadd]
    exact h.addEntries _ fun _ key value hc => hc.addEvaluationEntry key value
  · rw [hadd]
    exact h.of_bindings_eq rfl

/-- **A configuration that is read lists only slots that can be.** -/
theorem slotsInRange_of_parse {document : String} {c : Config} (h : parse document = some c) :
    c.SlotsInRange := by
  obtain ⟨table, -, rfl⟩ := Option.map_eq_some_iff.mp h
  exact slotsInRange_empty.addEntries table fun _ key value hc => hc.addSection key value

/-! ### Applying bindings -/

/-- Applies one entry, if its slot can be. -/
def applyEntry : Schema × List String → String × Nat → Option (Schema × List String) :=
  fun (schema, unknown) (name, index) => do
    let slot ← Slot.ofIndex? index
    if schema.defines name then some (schema.bindSlot name slot, unknown)
    else some (schema, unknown ++ [name])

theorem applyBindings_eq (c : Config) (schema : Schema) :
    c.applyBindings schema =
      match c.bindings with
      | none => some (schema.bindById, [])
      | some bindings => bindings.foldlM applyEntry (schema, []) := rfl

/-- An entry binds an attribute, or it is unknown. -/
theorem applyEntry_eq_some {schema schema' : Schema} {unknown unknown' : List String}
    {entry : String × Nat}
    (h : applyEntry (schema, unknown) entry = some (schema', unknown')) :
    schema' = schema.bindSlot entry.1 (.index entry.2) ∨ schema' = schema := by
  simp only [applyEntry, Slot.ofIndex?, bind, Option.bind] at h
  split at h
  · cases h
  · rename_i slot hslot
    split at hslot
    · cases hslot
      split at h
      · cases h
        exact .inl rfl
      · cases h
        exact .inr rfl
    · cases hslot

theorem isSome_applyEntry (state : Schema × List String) {entry : String × Nat}
    (h : entry.2 < Slot.limit) : (applyEntry state entry).isSome = true := by
  obtain ⟨schema, unknown⟩ := state
  by_cases hdefines : schema.defines entry.1 = true
  · simp [applyEntry, Slot.ofIndex?, h, hdefines]
  · simp [applyEntry, Slot.ofIndex?, h, hdefines]

theorem isSome_foldlM_applyEntry {bindings : List (String × Nat)}
    (h : ∀ entry ∈ bindings, entry.2 < Slot.limit) (state : Schema × List String) :
    (bindings.foldlM applyEntry state).isSome = true := by
  induction bindings generalizing state with
  | nil => rfl
  | cons entry rest ih =>
    obtain ⟨next, hnext⟩ := Option.isSome_iff_exists.mp
      (isSome_applyEntry state (h entry (by simp)))
    rw [List.foldlM_cons, hnext]
    exact ih (fun e he => h e (by simp [he])) next

/-- Bindings whose slots can be are applied to every schema. -/
theorem SlotsInRange.isSome_applyBindings {c : Config} (h : c.SlotsInRange) (schema : Schema) :
    (c.applyBindings schema).isSome = true := by
  rw [applyBindings_eq]
  rcases hbindings : c.bindings with _ | bindings
  · rfl
  · exact isSome_foldlM_applyEntry (h bindings hbindings) _

theorem rebound_foldlM_applyEntry {origin : Schema} {bindings : List (String × Nat)} :
    ∀ {schema schema' : Schema} {unknown unknown' : List String}, origin.Rebound schema →
      bindings.foldlM applyEntry (schema, unknown) = some (schema', unknown') →
      origin.Rebound schema' := by
  induction bindings with
  | nil =>
    intro schema schema' unknown unknown' hrebound h
    cases h
    exact hrebound
  | cons entry rest ih =>
    intro schema schema' unknown unknown' hrebound h
    rw [List.foldlM_cons] at h
    obtain ⟨⟨next, names⟩, hnext, h⟩ := Option.bind_eq_some_iff.mp h
    refine ih ?_ h
    rcases applyEntry_eq_some hnext with rfl | rfl
    · exact .bindSlot _ _ hrebound
    · exact hrebound

/-- **Applying bindings** changes nothing but slots. -/
theorem rebound_of_applyBindings {c : Config} {schema bound : Schema} {unknown : List String}
    (h : c.applyBindings schema = some (bound, unknown)) : schema.Rebound bound := by
  rw [applyBindings_eq] at h
  split at h
  · cases h
    exact .bindById .refl
  · exact rebound_foldlM_applyEntry .refl h

end Config

end DecisionModel
