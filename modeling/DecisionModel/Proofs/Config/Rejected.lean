import DecisionModel.Config
import DecisionModel.Proofs.Lists

/-!
# Entries of configurations that cannot be used

A configuration is a table of three sections, which are tables themselves.  An entry that cannot
be used where it stands is rejected: it is reported, in the order of the file, and the settings
are those of the table without it.
-/

namespace DecisionModel

namespace Config

/-! ### Rejected entries -/

/-- The tables of a configuration: the whole, and its sections. -/
inductive Place where
  | top
  | model
  | bindings
  | evaluation
  deriving DecidableEq, Repr

/-- An entry in one of the tables. -/
structure Entry where
  place : Place
  key : String
  value : Toml.Value

/-- The entry cannot be used, for the reason that is reported. -/
inductive Rejected : Entry → ConfigDiagnostic → Prop
  | unknownSection {key : String} {value : Toml.Value} :
      key ∉ ["model", "bindings", "evaluation"] → Rejected ⟨.top, key, value⟩ (.unknownField key)
  | notTable {key : String} {value : Toml.Value} :
      key ∈ ["model", "bindings", "evaluation"] → (∀ entries, value ≠ .table entries) →
      Rejected ⟨.top, key, value⟩ (.unexpectedType key value.typeName "table")
  | unknownInModel {key : String} {value : Toml.Value} :
      key ∉ ["names", "tree"] → Rejected ⟨.model, key, value⟩ (.unknownField ("model." ++ key))
  | notText {key : String} {value : Toml.Value} :
      key ∈ ["names", "tree"] → (∀ stem, value ≠ .text stem) →
      Rejected ⟨.model, key, value⟩ (.unexpectedType ("model." ++ key) value.typeName "string")
  | notSlot {key : String} {value : Toml.Value} :
      (∀ n : Int, 0 ≤ n → n < 4294967295 → value ≠ .integer n) →
      Rejected ⟨.bindings, key, value⟩ (.invalidSlot key value.toText)
  | unknownInEvaluation {key : String} {value : Toml.Value} :
      key ≠ "string-equality" →
      Rejected ⟨.evaluation, key, value⟩ (.unknownField ("evaluation." ++ key))
  | notMode {value : Toml.Value} :
      value ≠ .text "strict" → value ≠ .text "legacy" →
      Rejected ⟨.evaluation, "string-equality", value⟩ (.invalidStringEquality value.toText)

/-- The section with the key. -/
def section? (key : String) : Option Place :=
  if key = "model" then some .model
  else if key = "bindings" then some .bindings
  else if key = "evaluation" then some .evaluation
  else none

def sectionRejection? (key : String) (value : Toml.Value) : Option ConfigDiagnostic :=
  match section? key, value with
  | some _, .table _ => none
  | some _, _ => some (.unexpectedType key value.typeName "table")
  | none, _ => some (.unknownField key)

def modelRejection? (key : String) (value : Toml.Value) : Option ConfigDiagnostic :=
  if key = "names" ∨ key = "tree" then
    match value with
    | .text _ => none
    | _ => some (.unexpectedType ("model." ++ key) value.typeName "string")
  else some (.unknownField ("model." ++ key))

def bindingRejection? (key : String) (value : Toml.Value) : Option ConfigDiagnostic :=
  match slotIndex? value with
  | some _ => none
  | none => some (.invalidSlot key value.toText)

def evaluationRejection? (key : String) (value : Toml.Value) : Option ConfigDiagnostic :=
  if key = "string-equality" then
    match value with
    | .text "strict" | .text "legacy" => none
    | _ => some (.invalidStringEquality value.toText)
  else some (.unknownField ("evaluation." ++ key))

/-- What is reported of an entry, if it is rejected. -/
def rejection? (e : Entry) : Option ConfigDiagnostic :=
  match e.place with
  | .top => sectionRejection? e.key e.value
  | .model => modelRejection? e.key e.value
  | .bindings => bindingRejection? e.key e.value
  | .evaluation => evaluationRejection? e.key e.value

section

variable {key : String} {value : Toml.Value} {d : ConfigDiagnostic}

theorem section?_eq_none_iff : section? key = none ↔ key ∉ ["model", "bindings", "evaluation"] := by
  unfold section?
  split_ifs <;> simp_all

theorem slotIndex?_eq_none_iff :
    slotIndex? value = none ↔ ∀ n : Int, 0 ≤ n → n < 4294967295 → value ≠ .integer n := by
  have hlimit : ((Slot.limit : Nat) : Int) = 4294967295 := rfl
  cases value with
  | integer n =>
    by_cases hrange : 0 ≤ n ∧ n < 4294967295
    · have hsome : slotIndex? (.integer n) = some n.toNat := by
        rw [slotIndex?, hlimit, if_pos hrange]
      simp only [hsome, reduceCtorEq, false_iff, not_forall]
      exact ⟨n, hrange.1, hrange.2, fun hne => hne rfl⟩
    · have hnone : slotIndex? (.integer n) = none := by
        rw [slotIndex?, hlimit, if_neg hrange]
      simp only [hnone, true_iff]
      rintro m hlow hhigh hm
      cases hm
      exact hrange ⟨hlow, hhigh⟩
  | text | float | boolean | datetime | array | table => simp [slotIndex?]

theorem sectionRejection?_eq_some_iff :
    sectionRejection? key value = some d ↔ Rejected ⟨.top, key, value⟩ d := by
  unfold sectionRejection?
  rcases hsection : section? key with _ | place
  · have hkey := section?_eq_none_iff.mp hsection
    constructor
    · rintro ⟨⟩
      exact .unknownSection hkey
    · intro h
      cases h with
      | unknownSection => rfl
      | notTable hknown => exact absurd hknown hkey
  · have hkey : key ∈ ["model", "bindings", "evaluation"] := by
      by_contra hkey
      rw [section?_eq_none_iff.mpr hkey] at hsection
      cases hsection
    have hrejected : Rejected ⟨.top, key, value⟩ d ↔
        (∀ entries, value ≠ .table entries) ∧ .unexpectedType key value.typeName "table" = d := by
      constructor
      · intro h
        cases h with
        | unknownSection hunknown => exact absurd hkey hunknown
        | notTable _ hvalue => exact ⟨hvalue, rfl⟩
      · rintro ⟨hvalue, rfl⟩
        exact .notTable hkey hvalue
    rw [hrejected]
    cases value <;> simp

theorem modelRejection?_eq_some_iff :
    modelRejection? key value = some d ↔ Rejected ⟨.model, key, value⟩ d := by
  unfold modelRejection?
  by_cases hkey : key = "names" ∨ key = "tree"
  · have hrejected : Rejected ⟨.model, key, value⟩ d ↔ (∀ stem, value ≠ .text stem) ∧
        .unexpectedType ("model." ++ key) value.typeName "string" = d := by
      constructor
      · intro h
        cases h with
        | unknownInModel hunknown => exact absurd (by simpa using hkey) hunknown
        | notText _ hvalue => exact ⟨hvalue, rfl⟩
      · rintro ⟨hvalue, rfl⟩
        exact .notText (by simpa using hkey) hvalue
    rw [if_pos hkey, hrejected]
    cases value <;> simp
  · rw [if_neg hkey]
    constructor
    · rintro ⟨⟩
      exact .unknownInModel (by simpa using hkey)
    · intro h
      cases h with
      | unknownInModel => rfl
      | notText hknown => exact absurd (by simpa using hknown) hkey

theorem bindingRejection?_eq_some_iff :
    bindingRejection? key value = some d ↔ Rejected ⟨.bindings, key, value⟩ d := by
  have hrejected : Rejected ⟨.bindings, key, value⟩ d ↔
      slotIndex? value = none ∧ .invalidSlot key value.toText = d := by
    rw [slotIndex?_eq_none_iff]
    constructor
    · intro h
      cases h with
      | notSlot hvalue => exact ⟨hvalue, rfl⟩
    · rintro ⟨hvalue, rfl⟩
      exact .notSlot hvalue
  rw [hrejected]
  unfold bindingRejection?
  cases slotIndex? value <;> simp

theorem evaluationRejection?_eq_some_iff :
    evaluationRejection? key value = some d ↔ Rejected ⟨.evaluation, key, value⟩ d := by
  unfold evaluationRejection?
  by_cases hkey : key = "string-equality"
  · subst hkey
    have hrejected : Rejected ⟨.evaluation, "string-equality", value⟩ d ↔
        (value ≠ .text "strict" ∧ value ≠ .text "legacy") ∧
          .invalidStringEquality value.toText = d := by
      constructor
      · intro h
        cases h with
        | unknownInEvaluation hunknown => exact absurd rfl hunknown
        | notMode hstrict hlegacy => exact ⟨⟨hstrict, hlegacy⟩, rfl⟩
      · rintro ⟨⟨hstrict, hlegacy⟩, rfl⟩
        exact .notMode hstrict hlegacy
    rw [if_pos rfl, hrejected]
    split <;> simp_all
  · rw [if_neg hkey]
    constructor
    · rintro ⟨⟩
      exact .unknownInEvaluation hkey
    · intro h
      cases h with
      | unknownInEvaluation => rfl
      | notMode => exact absurd rfl hkey

end

/-- Whether an entry is rejected can be computed. -/
theorem rejection?_eq_some_iff {e : Entry} {d : ConfigDiagnostic} :
    rejection? e = some d ↔ Rejected e d := by
  obtain ⟨place, key, value⟩ := e
  cases place with
  | top => exact sectionRejection?_eq_some_iff
  | model => exact modelRejection?_eq_some_iff
  | bindings => exact bindingRejection?_eq_some_iff
  | evaluation => exact evaluationRejection?_eq_some_iff

/-! ### Tables without rejected entries -/

def accepts (place : Place) (entry : String × Toml.Value) : Bool :=
  (rejection? ⟨place, entry.1, entry.2⟩).isNone

/-- The entries of a table that stands in the place. -/
def entriesIn (place : Place) (table : Toml.Table) : List Entry :=
  table.map fun entry => ⟨place, entry.1, entry.2⟩

/-- The entries of a section. -/
def sectionEntries (entry : String × Toml.Value) : List Entry :=
  match section? entry.1, entry.2 with
  | some place, .table entries => entriesIn place entries
  | _, _ => []

/-- All entries of a configuration, in the order of the file: each entry of the whole is followed
    by those of the section that it is. -/
def allEntries (table : Toml.Table) : List Entry :=
  table.flatMap fun entry => ⟨.top, entry.1, entry.2⟩ :: sectionEntries entry

/-- A section without its rejected entries. -/
def cleanSection (entry : String × Toml.Value) : String × Toml.Value :=
  match section? entry.1, entry.2 with
  | some place, .table entries => (entry.1, .table (entries.filter (accepts place)))
  | _, _ => entry

/-- The table with all rejected entries deleted. -/
def withoutRejected (table : Toml.Table) : Toml.Table :=
  (table.filter (accepts .top)).map cleanSection

/-! ### Adding entries -/

/-- Everything but what was reported. -/
def settings (c : Config) : Config := { c with diagnostics := [] }

/-- In this place an entry that is rejected is reported and changes nothing else, and another
    changes the settings alone. -/
def Handles (place : Place) (add : Config → String → Toml.Value → Config) : Prop :=
  ∀ (c : Config) (key : String) (value : Toml.Value), add c key value =
    match rejection? ⟨place, key, value⟩ with
    | some d => c.report d
    | none => { add c.settings key value with diagnostics := c.diagnostics }

theorem handles_model : Handles .model addModelEntry := by
  intro c key value
  simp only [addModelEntry, rejection?, modelRejection?]
  by_cases hkey : key = "names" ∨ key = "tree"
  · simp only [if_pos hkey]
    cases value with
    | text stem =>
      simp only [Toml.Value.asText?]
      split <;> rfl
    | integer | float | boolean | datetime | array | table => rfl
  · simp only [if_neg hkey]

theorem handles_bindings : Handles .bindings addBinding := by
  intro c key value
  simp only [addBinding, rejection?, bindingRejection?]
  cases slotIndex? value <;> rfl

theorem handles_evaluation : Handles .evaluation addEvaluationEntry := by
  intro c key value
  simp only [addEvaluationEntry, rejection?, evaluationRejection?]
  by_cases hkey : key = "string-equality"
  · simp only [if_pos hkey]
    cases value with
    | text mode =>
      simp only [Toml.Value.asText?]
      by_cases hstrict : mode = "strict"
      · subst hstrict
        rfl
      · by_cases hlegacy : mode = "legacy"
        · subst hlegacy
          rfl
        · simp [hstrict, hlegacy]
    | integer | float | boolean | datetime | array | table => rfl
  · simp only [if_neg hkey]

/-- The entries of a section are reported as they are rejected, and set as the others are. -/
theorem Handles.addEntries {place : Place} {add : Config → String → Toml.Value → Config}
    (h : Handles place add) (c : Config) (entries : Toml.Table) :
    (c.addEntries entries add).diagnostics =
        c.diagnostics ++ (entriesIn place entries).filterMap rejection? ∧
      (c.addEntries entries add).settings =
        c.settings.addEntries (entries.filter (accepts place)) add := by
  induction entries generalizing c with
  | nil => exact ⟨(List.append_nil _).symm, rfl⟩
  | cons entry rest ih =>
    have hfirst : c.addEntries (entry :: rest) add =
        (add c entry.1 entry.2).addEntries rest add := rfl
    obtain ⟨hdiagnostics, hsettings⟩ := ih (add c entry.1 entry.2)
    have hentries : entriesIn place (entry :: rest) =
        ⟨place, entry.1, entry.2⟩ :: entriesIn place rest := rfl
    have hquiet := h c.settings entry.1 entry.2
    rw [hfirst, hdiagnostics, hsettings, hentries, List.filterMap_cons, List.filter_cons, accepts,
      h c]
    rcases hrejection : rejection? ⟨place, entry.1, entry.2⟩ with _ | d
    · rw [hrejection] at hquiet
      refine ⟨rfl, ?_⟩
      exact congrArg (fun c => c.addEntries (rest.filter (accepts place)) add) hquiet.symm
    · exact ⟨List.append_assoc .., rfl⟩

/-- Adds the entries of a section. -/
def addSectionEntries (c : Config) (place : Place) (entries : Toml.Table) : Config :=
  match place with
  | .top => c
  | .model => c.addEntries entries addModelEntry
  | .bindings => { c with bindings := some [] }.addEntries entries addBinding
  | .evaluation => c.addEntries entries addEvaluationEntry

theorem addSection_eq (c : Config) (key : String) (value : Toml.Value) :
    c.addSection key value =
      match section? key, value with
      | some place, .table entries => c.addSectionEntries place entries
      | some _, _ => c.report (.unexpectedType key value.typeName "table")
      | none, _ => c.report (.unknownField key) := by
  unfold addSection section?
  by_cases hmodel : key = "model"
  · subst hmodel
    cases value <;> rfl
  by_cases hbindings : key = "bindings"
  · subst hbindings
    cases value <;> rfl
  by_cases hevaluation : key = "evaluation"
  · subst hevaluation
    cases value <;> rfl
  simp only [hmodel, hbindings, hevaluation, or_self, if_false]

theorem section?_ne_top (key : String) : section? key ≠ some .top := by
  unfold section?
  split_ifs <;> simp

theorem addSectionEntries_spec (c : Config) {place : Place} (hplace : place ≠ .top)
    (entries : Toml.Table) :
    (c.addSectionEntries place entries).diagnostics =
        c.diagnostics ++ (entriesIn place entries).filterMap rejection? ∧
      (c.addSectionEntries place entries).settings =
        c.settings.addSectionEntries place (entries.filter (accepts place)) := by
  cases place with
  | top => exact absurd rfl hplace
  | model => exact handles_model.addEntries c entries
  | bindings => exact handles_bindings.addEntries { c with bindings := some [] } entries
  | evaluation => exact handles_evaluation.addEntries c entries

/-- What is not rejected in the whole is a section. -/
theorem exists_section_of_accepted {key : String} {value : Toml.Value}
    (h : sectionRejection? key value = none) :
    ∃ place entries, place ≠ .top ∧ section? key = some place ∧ value = .table entries := by
  unfold sectionRejection? at h
  split at h
  · rename_i place entries hsection
    refine ⟨place, entries, ?_, hsection, rfl⟩
    rintro rfl
    exact section?_ne_top key hsection
  all_goals cases h

theorem addSection_of_rejected {key : String} {value : Toml.Value} {d : ConfigDiagnostic}
    (h : sectionRejection? key value = some d) (c : Config) :
    c.addSection key value = c.report d ∧ sectionEntries (key, value) = [] := by
  unfold sectionRejection? at h
  rw [addSection_eq, sectionEntries]
  split at h
  · cases h
  all_goals
    cases h
    simp_all

/-- One entry of the whole is reported as it and those of its section are rejected. -/
theorem addSection_spec (c : Config) (entry : String × Toml.Value) :
    (c.addSection entry.1 entry.2).diagnostics =
        c.diagnostics ++ (allEntries [entry]).filterMap rejection? ∧
      (c.addSection entry.1 entry.2).settings =
        c.settings.addEntries (withoutRejected [entry]) addSection := by
  obtain ⟨key, value⟩ := entry
  have hentries : allEntries [(key, value)] =
      ⟨.top, key, value⟩ :: sectionEntries (key, value) := by
    simp [allEntries]
  rw [hentries, List.filterMap_cons]
  rcases hrejection : rejection? ⟨.top, key, value⟩ with _ | d
  · -- the entries of the section are left to be reported
    obtain ⟨place, entries, hplace, hsection, rfl⟩ := exists_section_of_accepted hrejection
    have hclean : withoutRejected [(key, .table entries)] =
        [(key, .table (entries.filter (accepts place)))] := by
      simp [withoutRejected, accepts, hrejection, cleanSection, hsection]
    have hadd : ∀ (c : Config) (entries : Toml.Table),
        c.addSection key (.table entries) = c.addSectionEntries place entries := by
      intro c entries
      simp only [addSection_eq, hsection]
    obtain ⟨hdiagnostics, hsettings⟩ := addSectionEntries_spec c hplace entries
    simp only [hclean, addEntries, List.foldl_cons, List.foldl_nil, hadd, sectionEntries, hsection]
    exact ⟨hdiagnostics, hsettings⟩
  · have hclean : withoutRejected [(key, value)] = [] := by
      simp [withoutRejected, accepts, hrejection]
    obtain ⟨hadd, hnone⟩ := addSection_of_rejected hrejection c
    rw [hclean, hadd, hnone]
    exact ⟨rfl, rfl⟩

theorem addEntries_addSection (c : Config) (table : Toml.Table) :
    (c.addEntries table addSection).diagnostics =
        c.diagnostics ++ (allEntries table).filterMap rejection? ∧
      (c.addEntries table addSection).settings =
        c.settings.addEntries (withoutRejected table) addSection := by
  induction table generalizing c with
  | nil => exact ⟨(List.append_nil _).symm, rfl⟩
  | cons entry rest ih =>
    obtain ⟨hfirst, hsection⟩ := addSection_spec c entry
    obtain ⟨hrest, hothers⟩ := ih (c.addSection entry.1 entry.2)
    have hentries : allEntries (entry :: rest) = allEntries [entry] ++ allEntries rest := by
      simp [allEntries]
    have hclean : withoutRejected (entry :: rest) =
        withoutRejected [entry] ++ withoutRejected rest := by
      rw [withoutRejected, ← List.singleton_append, List.filter_append, List.map_append]
      rfl
    have hadd : (c.addEntries (entry :: rest) addSection) =
        (c.addSection entry.1 entry.2).addEntries rest addSection := rfl
    rw [hadd, hrest, hothers, hfirst, hsection, hentries, hclean, List.filterMap_append,
      List.append_assoc]
    exact ⟨rfl, (List.foldl_append ..).symm⟩

/-- **A bad entry of a configuration is reported and affects no other.**  There is one diagnostic
    for each rejected entry, in the order of the file, and none for any other.  The settings are
    those of the table without the rejected entries, of which there is nothing to report. -/
theorem ofTable_without_rejected (document : String) (table : Toml.Table) :
    parse document = (Toml.parse document).map ofTable ∧
      (∀ e d, rejection? e = some d ↔ Rejected e d) ∧
      (ofTable table).diagnostics = (allEntries table).filterMap rejection? ∧
      ofTable (withoutRejected table) = { ofTable table with diagnostics := [] } := by
  obtain ⟨hdiagnostics, hsettings⟩ := addEntries_addSection empty table
  exact ⟨rfl, fun e d => rejection?_eq_some_iff, hdiagnostics, hsettings.symm⟩

example : (ofTable [("bindings", .table [("level", .integer (-1)), ("count", .integer 1)]),
    ("extra", .boolean true)]).diagnostics =
      [.invalidSlot "level" "-1", .unknownField "extra"] := by
  cbv

end Config

end DecisionModel
