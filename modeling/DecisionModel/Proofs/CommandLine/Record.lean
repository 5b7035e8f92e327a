import DecisionModel.Proofs.CommandLine.Pairs
import DecisionModel.Proofs.Evaluation.Observation

/-!
# The record of a list of arguments

An argument assigns a value to an attribute: the name of the attribute stands in front of its
first equals sign, and behind it stands the name of a value, or a number if the attribute is
continuous.  If all arguments assign values, the record that is built is the one that has these
values at the slots of their attributes, of which the last counts; attributes without a slot are
passed over.  An argument that assigns nothing is the only reason not to build a record.
-/

namespace DecisionModel.CommandLine

/-! ### Arguments that assign values -/

/-- The argument assigns the value to the attribute. -/
inductive Assigns (schema : Schema) (arg : String) : Attribute → Value → Prop
  | code {a : Attribute} {name value : String} {code : Int} : arg = name ++ "=" ++ value →
      '=' ∉ name.toList → schema.attribute? name = some a → a.isEnumerated = true →
      a.codeOf? value = some code → Assigns schema arg a (.integer code)
  | number {a : Attribute} {name value : String} {x : Double} : arg = name ++ "=" ++ value →
      '=' ∉ name.toList → schema.attribute? name = some a → a.isEnumerated = false →
      Double.ofText? value = some x → Assigns schema arg a (.floating x)

variable {schema : Schema} {arg : String} {args : List String} {a : Attribute} {value : Value}

/-- An argument is split at its first equals sign. -/
theorem splitPair?_eq_some_iff {name text : String} :
    splitPair? arg = some (name, text) ↔ arg = name ++ "=" ++ text ∧ '=' ∉ name.toList := by
  constructor
  · intro h
    by_cases hsign : '=' ∈ arg.toList
    · obtain ⟨before, after, harg, hbefore⟩ := List.eq_append_cons_of_mem hsign
      rw [splitPair?_of_toList harg hbefore] at h
      cases h
      refine ⟨?_, by rwa [String.toList_ofList]⟩
      rw [← String.toList_inj, toList_pair, String.toList_ofList, String.toList_ofList, harg]
    · have hkeep : ∀ c ∈ arg.toList, (c != '=') = true := by
        intro c hc
        simpa using fun heq : c = '=' => hsign (heq ▸ hc)
      have hrest : arg.toList.dropWhile (· != '=') = [] := List.dropWhile_eq_nil_iff.mpr hkeep
      rw [splitPair?, List.span_eq_takeWhile_dropWhile, hrest] at h
      cases h
  · rintro ⟨rfl, hname⟩
    exact splitPair?_of_notMem hname text

theorem readPair_eq_ok_iff : readPair schema arg = .ok (a, value) ↔ Assigns schema arg a value := by
  constructor
  · intro h
    unfold readPair at h
    split at h
    · cases h
    · rename_i name text hsplit
      obtain ⟨harg, hname⟩ := splitPair?_eq_some_iff.mp hsplit
      split at h
      · cases h
      · rename_i found hfound
        split at h
        · rename_i henum
          split at h
          · rename_i code hcode
            cases h
            exact .code harg hname hfound henum hcode
          · cases h
        · rename_i henum
          split at h
          · rename_i x hx
            cases h
            exact .number harg hname hfound (by simpa using henum) hx
          · cases h
  · intro h
    cases h with
    | code harg hname hfound henum hcode =>
      exact readPair_of_codeOf? (splitPair?_eq_some_iff.mpr ⟨harg, hname⟩) hfound henum hcode
    | number harg hname hfound henum hx =>
      have hsplit := splitPair?_eq_some_iff.mpr ⟨harg, hname⟩
      simp only [readPair, hsplit, hfound, henum, hx, Bool.false_eq_true, if_false]

theorem Assigns.mem_attributes (h : Assigns schema arg a value) : a ∈ schema.attributes := by
  cases h with
  | code _ _ hfound => exact List.mem_of_find?_eq_some hfound
  | number _ _ hfound => exact List.mem_of_find?_eq_some hfound

/-- The arguments assign these values, one each. -/
def AssignAll (schema : Schema) (args : List String) (assigned : List (Attribute × Value)) : Prop :=
  List.Forall₂ (fun arg (p : Attribute × Value) => Assigns schema arg p.1 p.2) args assigned

theorem AssignAll.mem_attributes {assigned : List (Attribute × Value)}
    (h : AssignAll schema args assigned) : ∀ p ∈ assigned, p.1 ∈ schema.attributes := by
  induction h with
  | nil => simp
  | cons hp _ ih => exact List.forall_mem_cons.mpr ⟨hp.mem_attributes, ih⟩

/-- Either every argument assigns a value, or one of them assigns nothing. -/
theorem assignAll_or_exists (schema : Schema) (args : List String) :
    (∃ assigned, AssignAll schema args assigned) ∨
      ∃ arg ∈ args, ∀ a value, ¬ Assigns schema arg a value := by
  induction args with
  | nil => exact .inl ⟨[], .nil⟩
  | cons arg rest ih =>
    by_cases hassigns : ∃ a value, Assigns schema arg a value
    · obtain ⟨a, value, harg⟩ := hassigns
      rcases ih with ⟨assigned, hrest⟩ | ⟨bad, hbad, hnone⟩
      · exact .inl ⟨(a, value) :: assigned, .cons harg hrest⟩
      · exact .inr ⟨bad, List.mem_cons_of_mem _ hbad, hnone⟩
    · exact .inr ⟨arg, by simp, by simpa using hassigns⟩

/-! ### The record -/

/-- The record that holds what is assigned; of several values at one slot the last counts. -/
def assignedRecord (assigned : List (Attribute × Value)) : Record :=
  .ofPairs (assigned.map fun (a, value) => (a.slot, value))

/-- The list of values with one more in its place. -/
def place (values : List (Option Value)) : Attribute × Value → List (Option Value)
  | (a, value) =>
    match a.slot with
    | .index n => values.set n (some value)
    | .unbound => values

theorem length_foldl_place (assigned : List (Attribute × Value)) (values : List (Option Value)) :
    (assigned.foldl place values).length = values.length := by
  induction assigned generalizing values with
  | nil => rfl
  | cons p rest ih =>
    obtain ⟨a, value⟩ := p
    rw [List.foldl_cons, ih]
    rcases hslot : a.slot with _ | n
    · simp only [place, hslot]
    · simp only [place, hslot, List.length_set]

/-- Values that are placed one after the other make the record of all of them. -/
theorem sparse_foldl_place {width : Nat} {assigned : List (Attribute × Value)}
    (room : ∀ p ∈ assigned, ∀ n, p.1.slot = .index n → n < width) (n : Nat) :
    Record.sparse (assigned.foldl place (List.replicate width none)) (.index n) =
      assignedRecord assigned (.index n) := by
  induction assigned using List.reverseRecOn with
  | nil =>
    by_cases hn : n < width
    · simp [Record.sparse, assignedRecord, Record.ofPairs, hn]
    · simp [Record.sparse, assignedRecord, Record.ofPairs, hn]
  | append_singleton assigned p ih =>
    obtain ⟨a, value⟩ := p
    have hbefore := ih fun q hq => room q (by simp [hq])
    have hlast : assignedRecord (assigned ++ [(a, value)]) (.index n) =
        if a.slot = .index n then some value else assignedRecord assigned (.index n) := by
      by_cases hslot : a.slot = .index n
      · simp [assignedRecord, Record.ofPairs, hslot]
      · have hne : (Slot.index n == a.slot) = false := by simpa using Ne.symm hslot
        simp [assignedRecord, Record.ofPairs, hslot, List.lookup_cons, hne]
    rw [List.foldl_append, List.foldl_cons, List.foldl_nil, hlast, ← hbefore]
    rcases hslot : a.slot with _ | m
    · simp [place, hslot]
    · have hm := room (a, value) (by simp) m hslot
      have hlength := length_foldl_place assigned (List.replicate width none)
      rw [List.length_replicate] at hlength
      by_cases hmn : m = n
      · subst hmn
        simp [place, hslot, Record.sparse, hlength, hm]
      · simp [place, hslot, Record.sparse, hmn]

/-! ### Building it -/

/-- Arguments that assign values are laid out one after the other. -/
theorem addPairs_of_assignAll {assigned : List (Attribute × Value)}
    (h : AssignAll schema args assigned) : ∀ r : RecordBuild, ∃ warnings,
      addPairs schema r args = (⟨assigned.foldl place r.values, warnings⟩, none) := by
  induction h with
  | nil => exact fun r => ⟨r.warnings, rfl⟩
  | @cons arg p args assigned hp _ ih =>
    intro r
    obtain ⟨a, value⟩ := p
    have hread := readPair_eq_ok_iff.mpr hp
    rcases hslot : a.slot with _ | n
    · simpa only [addPairs, addPair, hread, hslot, List.foldl_cons, place] using ih _
    · simpa only [addPairs, addPair, hread, hslot, List.foldl_cons, place] using ih _

/-- Where an argument assigns nothing, there is a fault. -/
theorem exists_fault_of_addPairs (hmem : arg ∈ args)
    (hnone : ∀ a value, ¬ Assigns schema arg a value) :
    ∀ r : RecordBuild, ∃ r' e, addPairs schema r args = (r', some e) := by
  induction args with
  | nil => cases hmem
  | cons first rest ih =>
    intro r
    rcases hread : readPair schema first with e | ⟨a, value⟩
    · exact ⟨r, e, by simp only [addPairs, addPair, hread]⟩
    · have hrest : arg ∈ rest := by
        rcases List.mem_cons.mp hmem with rfl | hrest
        · exact absurd (readPair_eq_ok_iff.mp hread) (hnone a value)
        · exact hrest
      rcases hslot : a.slot with _ | n
      · simpa only [addPairs, addPair, hread, hslot] using ih hrest _
      · simpa only [addPairs, addPair, hread, hslot] using ih hrest _

/-- **Arguments that assign values make the record of these values.** -/
theorem exists_buildRecord {assigned : List (Attribute × Value)}
    (h : AssignAll schema args assigned) :
    ∃ r, buildRecord schema args = (r, none) ∧
      ∀ n, Record.sparse r.values (.index n) = assignedRecord assigned (.index n) := by
  obtain ⟨warnings, hbuild⟩ := addPairs_of_assignAll h
    ⟨List.replicate (recordWidth schema) none, ""⟩
  refine ⟨_, hbuild, ?_⟩
  apply sparse_foldl_place
  intro p hp n hslot
  exact slot_lt_recordWidth (h.mem_attributes p hp) hslot

end DecisionModel.CommandLine
