import DecisionModel.Proofs.CommandLine.Record
import DecisionModel.Proofs.TreeFile.WellFormed

/-!
# Records laid out by slot

The record of a list of arguments has room for every slot of the schema and no more, so that no
value is written outside of it.  An entry holds the value of the last argument for its slot, and
the first argument that assigns nothing is the one that is reported.
-/

namespace DecisionModel.CommandLine

/-! ### The width of records -/

section

variable {schema : Schema}

theorem foldl_widen_cases (attributes : List Attribute) (width : Nat) :
    attributes.foldl widen width = width ∨
      ∃ a ∈ attributes, ∃ n, a.slot = .index n ∧ attributes.foldl widen width = n + 1 := by
  induction attributes generalizing width with
  | nil => exact .inl rfl
  | cons a rest ih =>
    rw [List.foldl_cons]
    rcases ih (widen width a) with hsame | ⟨b, hb, n, hslot, hwidth⟩
    · rw [hsame]
      rcases hslot : a.slot with _ | n
      · exact .inl (by simp only [widen, hslot])
      · by_cases hle : n + 1 ≤ width
        · exact .inl (by simp only [widen, hslot, Nat.max_eq_left hle])
        · refine .inr ⟨a, by simp, n, hslot, ?_⟩
          simp only [widen, hslot]
          omega
    · exact .inr ⟨b, by simp [hb], n, hslot, hwidth⟩

/-- The width is one more than the largest slot, or zero if there is none. -/
def IsWidth (schema : Schema) (width : Nat) : Prop :=
  (∀ a ∈ schema.attributes, ∀ n, a.slot = .index n → n < width) ∧
    (width = 0 ∨ ∃ a ∈ schema.attributes, ∃ n, a.slot = .index n ∧ width = n + 1)

theorem isWidth_recordWidth (schema : Schema) : IsWidth schema (recordWidth schema) :=
  ⟨fun _ ha _ hslot => slot_lt_recordWidth ha hslot, foldl_widen_cases schema.attributes 0⟩

/-- Records keep their length, whatever arguments are added. -/
theorem length_addPairs (args : List String) : ∀ r : RecordBuild,
    (addPairs schema r args).1.values.length = r.values.length := by
  induction args with
  | nil => exact fun r => rfl
  | cons arg rest ih =>
    intro r
    rcases hread : readPair schema arg with e | ⟨a, value⟩
    · simp only [addPairs, addPair, hread]
    · rcases hslot : a.slot with _ | n
      · simp only [addPairs, addPair, hread, hslot, ih]
      · simp only [addPairs, addPair, hread, hslot, ih, List.length_set]

theorem length_buildRecord (args : List String) :
    (buildRecord schema args).1.values.length = recordWidth schema :=
  (length_addPairs args _).trans List.length_replicate

end

/-! ### Faults -/

/-- The argument assigns nothing, for the reason that the text tells. -/
inductive Faulty (schema : Schema) (arg : String) : String → Prop
  | noPair : '=' ∉ arg.toList → Faulty schema arg s!"expected `attribute=value`, found `{arg}`"
  | unknownAttribute {name value : String} : arg = name ++ "=" ++ value → '=' ∉ name.toList →
      schema.attribute? name = none → Faulty schema arg s!"unknown attribute `{name}`"
  | unknownValue {a : Attribute} {name value : String} : arg = name ++ "=" ++ value →
      '=' ∉ name.toList → schema.attribute? name = some a → a.isEnumerated = true →
      a.codeOf? value = none → Faulty schema arg s!"`{value}` is not a value of `{name}`"
  | notNumber {a : Attribute} {name value : String} : arg = name ++ "=" ++ value →
      '=' ∉ name.toList → schema.attribute? name = some a → a.isEnumerated = false →
      Double.ofText? value = none →
      Faulty schema arg s!"`{value}` is not a number, as `{name}` is continuous"

section

variable {schema : Schema} {arg : String} {args : List String} {text : String}

theorem splitPair?_eq_none_iff : splitPair? arg = none ↔ '=' ∉ arg.toList := by
  constructor
  · intro h hsign
    obtain ⟨before, after, harg, hbefore⟩ := List.eq_append_cons_of_mem hsign
    rw [splitPair?_of_toList harg hbefore] at h
    cases h
  · intro h
    rcases hsplit : splitPair? arg with _ | ⟨name, value⟩
    · rfl
    · obtain ⟨rfl, -⟩ := splitPair?_eq_some_iff.mp hsplit
      exact absurd (by simp) h

theorem Faulty.exists_error (h : Faulty schema arg text) :
    ∃ e, readPair schema arg = .error e ∧ e.message = text := by
  cases h with
  | noPair hsign =>
    exact ⟨.noPair arg, by simp only [readPair, splitPair?_eq_none_iff.mpr hsign], rfl⟩
  | @unknownAttribute name value harg hname hnone =>
    have hsplit := splitPair?_eq_some_iff.mpr ⟨harg, hname⟩
    exact ⟨.unknownAttribute name, by simp only [readPair, hsplit, hnone], rfl⟩
  | @unknownValue a name value harg hname hfound henum hcode =>
    have hsplit := splitPair?_eq_some_iff.mpr ⟨harg, hname⟩
    exact ⟨.unknownValue value name,
      by simp only [readPair, hsplit, hfound, henum, hcode, if_true], rfl⟩
  | @notNumber a name value harg hname hfound henum hx =>
    have hsplit := splitPair?_eq_some_iff.mpr ⟨harg, hname⟩
    exact ⟨.notNumber value name,
      by simp only [readPair, hsplit, hfound, henum, hx, Bool.false_eq_true, if_false], rfl⟩

theorem faulty_of_error {e : PairError} (h : readPair schema arg = .error e) :
    Faulty schema arg e.message := by
  unfold readPair at h
  split at h
  · rename_i hsplit
    cases h
    exact .noPair (splitPair?_eq_none_iff.mp hsplit)
  · rename_i name value hsplit
    obtain ⟨harg, hname⟩ := splitPair?_eq_some_iff.mp hsplit
    split at h
    · rename_i hnone
      cases h
      exact .unknownAttribute harg hname hnone
    · rename_i a hfound
      split at h
      · rename_i henum
        split at h
        · cases h
        · rename_i hcode
          cases h
          exact .unknownValue harg hname hfound henum hcode
      · rename_i henum
        split at h
        · cases h
        · rename_i hx
          cases h
          exact .notNumber harg hname hfound (by simpa using henum) hx

/-- An argument can be read exactly if there is nothing wrong with it. -/
theorem exists_readPair_iff :
    (∃ p, readPair schema arg = .ok p) ↔ ∀ text, ¬ Faulty schema arg text := by
  constructor
  · rintro ⟨p, hp⟩ text hfaulty
    obtain ⟨e, he, -⟩ := hfaulty.exists_error
    rw [hp] at he
    cases he
  · intro hnone
    rcases hread : readPair schema arg with e | p
    · exact absurd (faulty_of_error hread) (hnone e.message)
    · exact ⟨p, rfl⟩

variable (schema) in
/-- The text tells what is wrong with the first argument that assigns nothing. -/
def FirstFault (args : List String) (text : String) : Prop :=
  ∃ before arg after, args = before ++ arg :: after ∧
    (∀ b ∈ before, ∀ text', ¬ Faulty schema b text') ∧ Faulty schema arg text

theorem addPairs_cons_of_error {e : PairError} (h : readPair schema arg = .error e)
    (r : RecordBuild) : addPairs schema r (arg :: args) = (r, some e) := by
  simp only [addPairs, addPair, h]

theorem addPairs_cons_of_ok {p : Attribute × Value} (h : readPair schema arg = .ok p)
    (r : RecordBuild) :
    ∃ next, addPairs schema r (arg :: args) = addPairs schema next args := by
  rcases hslot : p.1.slot with _ | n
  · exact ⟨_, by simp only [addPairs, addPair, h, hslot]; rfl⟩
  · exact ⟨_, by simp only [addPairs, addPair, h, hslot]; rfl⟩

/-- Adding arguments stops at the first that cannot be read. -/
theorem addPairs_eq_some_iff {e : PairError} (args : List String) : ∀ r : RecordBuild,
    (addPairs schema r args).2 = some e ↔ ∃ before arg after, args = before ++ arg :: after ∧
      (∀ b ∈ before, ∃ p, readPair schema b = .ok p) ∧ readPair schema arg = .error e := by
  induction args with
  | nil =>
    intro r
    simp [addPairs]
  | cons first rest ih =>
    intro r
    rw [exists_first_cons_iff]
    rcases hread : readPair schema first with e' | p
    · rw [addPairs_cons_of_error hread]
      simp
    · obtain ⟨next, hnext⟩ : ∃ next, addPairs schema r (first :: rest) =
          addPairs schema next rest := addPairs_cons_of_ok hread r
      rw [hnext, ih next]
      simp

/-- What is reported is wrong with the first argument that assigns nothing. -/
theorem message_buildRecord_iff :
    (buildRecord schema args).2.map PairError.message = some text ↔
      FirstFault schema args text := by
  rw [Option.map_eq_some_iff]
  constructor
  · rintro ⟨e, he, rfl⟩
    obtain ⟨before, arg, after, hargs, hbefore, harg⟩ := (addPairs_eq_some_iff args _).mp he
    exact ⟨before, arg, after, hargs, fun b hb => exists_readPair_iff.mp (hbefore b hb),
      faulty_of_error harg⟩
  · rintro ⟨before, arg, after, hargs, hbefore, hfaulty⟩
    obtain ⟨e, harg, rfl⟩ := hfaulty.exists_error
    exact ⟨e, (addPairs_eq_some_iff args _).mpr
      ⟨before, arg, after, hargs, fun b hb => exists_readPair_iff.mpr (hbefore b hb), harg⟩, rfl⟩

theorem assignAll_iff :
    (∃ assigned, AssignAll schema args assigned) ↔
      ∀ arg ∈ args, ∀ text, ¬ Faulty schema arg text := by
  constructor
  · rintro ⟨assigned, h⟩
    induction h with
    | nil => exact nofun
    | @cons arg p _ _ hp _ ih =>
      exact List.forall_mem_cons.mpr ⟨exists_readPair_iff.mp ⟨p, readPair_eq_ok_iff.mpr hp⟩, ih⟩
  · intro h
    rcases assignAll_or_exists schema args with hall | ⟨arg, harg, hnone⟩
    · exact hall
    · obtain ⟨p, hp⟩ := exists_readPair_iff.mpr (h arg harg)
      exact absurd (readPair_eq_ok_iff.mp hp) (hnone p.1 p.2)

theorem buildRecord_eq_none_iff :
    (buildRecord schema args).2 = none ↔ ∀ arg ∈ args, ∀ text, ¬ Faulty schema arg text := by
  rw [← assignAll_iff]
  constructor
  · intro h
    rcases assignAll_or_exists schema args with hall | ⟨arg, harg, hnone⟩
    · exact hall
    · obtain ⟨r, e, hfault⟩ := exists_fault_of_addPairs harg hnone
        ⟨List.replicate (recordWidth schema) none, ""⟩
      rw [buildRecord, hfault] at h
      cases h
  · rintro ⟨assigned, hall⟩
    obtain ⟨r, hbuild, -⟩ := exists_buildRecord hall
    rw [hbuild]

end

/-! ### Entries -/

section

variable {schema : Schema} {arg : String} {args : List String} {assigned : List (Attribute × Value)}
  {s : Nat}

theorem Assigns.unique {a b : Attribute} {value other : Value} (h : Assigns schema arg a value)
    (h' : Assigns schema arg b other) : (a, value) = (b, other) :=
  Except.ok.inj ((readPair_eq_ok_iff.mpr h).symm.trans (readPair_eq_ok_iff.mpr h'))

variable (schema) in
/-- No argument is for an attribute at the slot. -/
def NoneAt (args : List String) (s : Nat) : Prop :=
  ∀ arg ∈ args, ∀ a value, Assigns schema arg a value → a.slot ≠ .index s

variable (schema) in
/-- The value is that of the last argument for an attribute at the slot. -/
def LastAt (args : List String) (s : Nat) (value : Value) : Prop :=
  ∃ before arg after a, args = before ++ arg :: after ∧ Assigns schema arg a value ∧
    a.slot = .index s ∧ NoneAt schema after s

theorem assignedRecord_cons (p : Attribute × Value) (rest : List (Attribute × Value))
    (slot : Slot) : assignedRecord (p :: rest) slot =
      (assignedRecord rest slot).or (if p.1.slot = slot then some p.2 else none) := by
  simp only [assignedRecord, Record.ofPairs, List.map_cons, List.reverse_cons, List.lookup_append]
  congr 1
  by_cases hslot : p.1.slot = slot
  · simp [hslot]
  · have hne : (slot == p.1.slot) = false := by simpa using Ne.symm hslot
    simp [hslot, List.lookup_cons, hne]

theorem noneAt_cons_iff {rest : List String} {p : Attribute × Value}
    (hp : Assigns schema arg p.1 p.2) :
    NoneAt schema (arg :: rest) s ↔ p.1.slot ≠ .index s ∧ NoneAt schema rest s := by
  rw [NoneAt, List.forall_mem_cons]
  refine and_congr_left fun _ => ⟨fun h => h _ _ hp, ?_⟩
  intro hslot a value hassigns
  cases hassigns.unique hp
  exact hslot

theorem assignedRecord_eq_none_iff (h : AssignAll schema args assigned) :
    assignedRecord assigned (.index s) = none ↔ NoneAt schema args s := by
  induction h with
  | nil => exact iff_of_true rfl nofun
  | @cons arg p args assigned hp _ ih =>
    rw [assignedRecord_cons, noneAt_cons_iff hp, Option.or_eq_none_iff, ih, and_comm]
    simp

/-- The value that is assigned at a slot is that of the last argument for it. -/
theorem assignedRecord_eq_some_iff {value : Value} (h : AssignAll schema args assigned) :
    assignedRecord assigned (.index s) = some value ↔ LastAt schema args s value := by
  induction h with
  | nil => simp [assignedRecord, Record.ofPairs, LastAt]
  | @cons arg p args assigned hp hrest ih =>
    rw [assignedRecord_cons, Option.or_eq_some_iff, ih, assignedRecord_eq_none_iff hrest]
    constructor
    · rintro (⟨before, arg', after, a, rfl, hassigns, hslot, hnone⟩ | ⟨hnone, hvalue⟩)
      · exact ⟨arg :: before, arg', after, a, rfl, hassigns, hslot, hnone⟩
      · split at hvalue
        · rename_i hslot
          cases hvalue
          exact ⟨[], arg, args, p.1, rfl, hp, hslot, hnone⟩
        · cases hvalue
    · rintro ⟨before, arg', after, a, hargs, hassigns, hslot, hnone⟩
      rcases List.cons_eq_append_iff.mp hargs with ⟨rfl, hhead⟩ | ⟨before, rfl, rfl⟩
      · cases hhead
        cases hassigns.unique hp
        exact .inr ⟨hnone, by rw [if_pos hslot]⟩
      · exact .inl ⟨before, arg', after, a, rfl, hassigns, hslot, hnone⟩

/-- The values of the record that is built are those that are assigned at the slots in turn. -/
theorem values_buildRecord (h : AssignAll schema args assigned) :
    (buildRecord schema args).1.values =
      (List.range (recordWidth schema)).map fun s => assignedRecord assigned (.index s) := by
  obtain ⟨r, hbuild, hvalues⟩ := exists_buildRecord h
  have hlength : r.values.length = recordWidth schema := by
    rw [← length_buildRecord args, hbuild]
  rw [hbuild]
  refine List.ext_getElem? fun s => ?_
  by_cases hs : s < recordWidth schema
  · have hentry : r.values[s]? = some (assignedRecord assigned (.index s)) := by
      rw [← hvalues s, List.getElem?_eq_getElem (hlength.symm ▸ hs)]
      simp [Record.sparse, hlength, hs]
    simp [hentry, hs]
  · have hbeyond : r.values.length ≤ s := hlength.le.trans (Nat.le_of_not_lt hs)
    rw [List.getElem?_eq_none hbeyond, List.getElem?_eq_none (by simpa using hs)]

/-! ### Arguments in another order -/

variable (schema) in
/-- The argument is for the attribute. -/
def IsFor (arg : String) (a : Attribute) : Prop :=
  ∃ name value, arg = name ++ "=" ++ value ∧ '=' ∉ name.toList ∧ schema.attribute? name = some a

theorem Assigns.eq_of_isFor {a b : Attribute} {value : Value} (h : Assigns schema arg a value)
    (hb : IsFor schema arg b) : b = a := by
  obtain ⟨name, text, harg, hname, hfound⟩ := hb
  have hsplit := splitPair?_eq_some_iff.mpr ⟨harg, hname⟩
  obtain ⟨name', text', hsplit', hfound'⟩ := exists_split_of_readPair (readPair_eq_ok_iff.mpr h)
  rw [hsplit] at hsplit'
  cases hsplit'
  exact Option.some.inj (hfound.symm.trans hfound')

theorem AssignAll.map_fst_eq {attributes : List Attribute} (h : AssignAll schema args assigned)
    (hfor : List.Forall₂ (IsFor schema) args attributes) : assigned.map Prod.fst = attributes := by
  induction h generalizing attributes with
  | nil =>
    cases hfor
    rfl
  | cons hp _ ih =>
    cases hfor with
    | cons ha hrest => rw [List.map_cons, hp.eq_of_isFor ha, ih hrest]

/-- Nothing is said of attributes that have slots. -/
theorem warnings_addPairs (h : AssignAll schema args assigned)
    (hbound : ∀ p ∈ assigned, p.1.slot.isBound = true) : ∀ r : RecordBuild,
    (addPairs schema r args).1.warnings = r.warnings := by
  induction h with
  | nil => exact fun r => rfl
  | @cons arg p args assigned hp _ ih =>
    intro r
    obtain ⟨hfirst, hrest⟩ := List.forall_mem_cons.mp hbound
    have hread := readPair_eq_ok_iff.mpr hp
    rcases hslot : p.1.slot with _ | n
    · rw [hslot] at hfirst
      cases hfirst
    · simpa only [addPairs, addPair, hread, hslot] using ih hrest _

/-- What is assigned at distinct slots does not depend on the order. -/
theorem assignedRecord_eq_of_perm {others : List (Attribute × Value)}
    (hperm : others.Perm assigned) (hslots : (assigned.map fun p => p.1.slot).Nodup) :
    assignedRecord others = assignedRecord assigned := by
  funext slot
  refine lookup_eq_of_perm ?_ ?_ slot
  · exact ((List.reverse_perm _).trans (hperm.map _)).trans (List.reverse_perm _).symm
  · simpa [Function.comp_def] using hslots

/-- Arguments for attributes at distinct slots make the same record in every order. -/
theorem buildRecord_of_perm (h : AssignAll schema args assigned)
    (hslots : (assigned.map fun p => p.1.slot).Nodup)
    (hbound : ∀ p ∈ assigned, p.1.slot.isBound = true) {args' : List String}
    (hperm : args'.Perm args) : buildRecord schema args' = buildRecord schema args := by
  obtain ⟨assigned', h', hassigned⟩ := List.perm_comp_forall₂ hperm h
  have hbound' : ∀ p ∈ assigned', p.1.slot.isBound = true :=
    fun p hp => hbound p (hassigned.mem_iff.mp hp)
  have hvalues : (buildRecord schema args').1.values = (buildRecord schema args).1.values := by
    rw [values_buildRecord h, values_buildRecord h', assignedRecord_eq_of_perm hassigned hslots]
  have hwarnings :
      (buildRecord schema args').1.warnings = (buildRecord schema args).1.warnings := by
    rw [buildRecord, buildRecord, warnings_addPairs h hbound, warnings_addPairs h' hbound']
  have hfault : (buildRecord schema args').2 = (buildRecord schema args).2 := by
    rw [buildRecord_eq_none_iff.mpr (assignAll_iff.mp ⟨_, h⟩),
      buildRecord_eq_none_iff.mpr (assignAll_iff.mp ⟨_, h'⟩)]
  generalize buildRecord schema args' = first at hvalues hwarnings hfault ⊢
  generalize buildRecord schema args = second at hvalues hwarnings hfault ⊢
  obtain ⟨⟨_, _⟩, _⟩ := first
  obtain ⟨⟨_, _⟩, _⟩ := second
  cases hvalues
  cases hwarnings
  cases hfault
  rfl

end

/-- **A record is laid out by slot.**  It is as long as the largest slot needs, and every value is
    written within it.  It is not built exactly if something is wrong with an argument, and then
    the first of these is reported.  If it is built, an entry holds the value of the last argument
    for its slot, or nothing if there is none.  So the order of arguments for attributes at
    distinct slots makes no difference. -/
theorem buildRecord_by_slot (schema : Schema) (args : List String) :
    IsWidth schema (recordWidth schema) ∧
      (∀ before arg after a value n, args = before ++ arg :: after → Assigns schema arg a value →
        a.slot = .index n → n < (buildRecord schema before).1.values.length) ∧
      (∀ text, (buildRecord schema args).2.map PairError.message = some text ↔
        FirstFault schema args text) ∧
      ((buildRecord schema args).2 = none ↔ ∀ arg ∈ args, ∀ text, ¬ Faulty schema arg text) ∧
      ((buildRecord schema args).2 = none →
        (buildRecord schema args).1.values.length = recordWidth schema ∧
        (∀ s < recordWidth schema,
          (∀ value, (buildRecord schema args).1.values[s]? = some (some value) ↔
            LastAt schema args s value) ∧
          ((buildRecord schema args).1.values[s]? = some none ↔ NoneAt schema args s)) ∧
        ∀ attributes args', List.Forall₂ (IsFor schema) args attributes →
          (attributes.map Attribute.slot).Nodup → (∀ a ∈ attributes, a.slot.isBound = true) →
          args'.Perm args → buildRecord schema args' = buildRecord schema args) := by
  refine ⟨isWidth_recordWidth schema, ?_, fun text => message_buildRecord_iff,
    buildRecord_eq_none_iff, ?_⟩
  · intro before arg after a value n _ hassigns hslot
    rw [length_buildRecord]
    exact slot_lt_recordWidth hassigns.mem_attributes hslot
  · intro hbuilt
    obtain ⟨assigned, hall⟩ := assignAll_iff.mpr (buildRecord_eq_none_iff.mp hbuilt)
    refine ⟨length_buildRecord args, ?_, ?_⟩
    · intro s hs
      have hentry : (buildRecord schema args).1.values[s]? =
          some (assignedRecord assigned (.index s)) := by
        rw [values_buildRecord hall]
        simp [hs]
      simp only [hentry, Option.some.injEq]
      exact ⟨fun value => assignedRecord_eq_some_iff hall, assignedRecord_eq_none_iff hall⟩
    · intro attributes args' hfor hslots hbound hperm
      have hattributes := hall.map_fst_eq hfor
      subst hattributes
      refine buildRecord_of_perm hall (by simpa [Function.comp_def] using hslots) ?_ hperm
      intro p hp
      exact hbound p.1 (List.mem_map_of_mem hp)

open TreeFile in
/-- The middle entry is for an attribute that no argument names. -/
theorem buildRecord_swapped :
    buildRecord policySchema.bindById ["state=play", "count=mid"] =
        (⟨[some (.integer 2), none, some (.integer 1)], ""⟩, none) ∧
      buildRecord policySchema.bindById ["count=mid", "state=play"] =
        (⟨[some (.integer 2), none, some (.integer 1)], ""⟩, none) := by
  have hbuilt : buildRecord policySchema.bindById ["state=play", "count=mid"] =
      (⟨[some (.integer 2), none, some (.integer 1)], ""⟩, none) := by cbv
  have hfor : List.Forall₂ (IsFor policySchema.bindById) ["state=play", "count=mid"]
      [⟨"state", ⟨0⟩, .enumerated, .index 0, [("stop", 0), ("pause", 1), ("play", 2)]⟩,
        ⟨"count", ⟨2⟩, .enumerated, .index 2, [("low", 0), ("mid", 1), ("high", 2)]⟩] :=
    .cons ⟨"state", "play", by decide, by decide, by decide⟩
      (.cons ⟨"count", "mid", by decide, by decide, by decide⟩ .nil)
  obtain ⟨-, -, -, -, hlaid⟩ :=
    buildRecord_by_slot policySchema.bindById ["state=play", "count=mid"]
  obtain ⟨-, -, horder⟩ := hlaid (by rw [hbuilt])
  exact ⟨hbuilt, (horder _ _ hfor (by decide) (by decide) (.swap ..)).trans hbuilt⟩

end DecisionModel.CommandLine
