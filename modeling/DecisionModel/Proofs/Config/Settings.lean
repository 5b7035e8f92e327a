import DecisionModel.Proofs.Config.Bindings
import DecisionModel.Proofs.Toml.Reading

/-!
# What a configuration sets

Keys are distinct in the table that a configuration is read from, and in its sections.  So each
setting is written by one entry at most: an entry that can be used takes effect, whatever stands
around it, and without it the setting is that of an empty configuration.
-/

namespace DecisionModel

namespace Config

/-- The table has a section of the first key, with the entry. -/
def HasEntry (table : Toml.Table) (home key : String) (value : Toml.Value) : Prop :=
  ∃ entries, (home, .table entries) ∈ table ∧ (key, value) ∈ entries

/-! ### Settings that one entry writes -/

section

variable {γ : Type} {setting : Config → Option γ} {home key : String}
  {read : Toml.Value → Option γ}

/-- Where only entries of one key write a setting, it is what is read under this key. -/
theorem setting_addEntries {add : Config → String → Toml.Value → Config} {entries : Toml.Table}
    (distinct : (entries.map Prod.fst).Nodup)
    (hadd : ∀ entry ∈ entries, ∀ c : Config, setting (add c entry.1 entry.2) =
      (if entry.1 = key then read entry.2 else none).or (setting c)) (c : Config) :
    setting (c.addEntries entries add) = ((entries.lookup key).bind read).or (setting c) := by
  unfold addEntries
  induction entries generalizing c with
  | nil => rfl
  | cons entry rest ih =>
    obtain ⟨k, value⟩ := entry
    obtain ⟨hfresh, hrest⟩ := List.nodup_cons.mp distinct
    have hlater := ih hrest fun e he => hadd e (List.mem_cons_of_mem _ he)
    rw [List.foldl_cons, hlater, hadd (k, value) List.mem_cons_self]
    by_cases hkey : k = key
    · have hnone : rest.lookup key = none := lookup_eq_none_iff_notMem.mpr (hkey ▸ hfresh)
      simp [hkey, hnone]
    · have hne : (key == k) = false := by simpa using Ne.symm hkey
      simp [List.lookup_cons, hne, hkey]

theorem setting_addEntries_of_same {add : Config → String → Toml.Value → Config}
    (hadd : ∀ (c : Config) key value, setting (add c key value) = setting c) (c : Config)
    (entries : Toml.Table) : setting (c.addEntries entries add) = setting c := by
  unfold addEntries
  induction entries generalizing c with
  | nil => rfl
  | cons entry rest ih => exact (ih _).trans (hadd c entry.1 entry.2)

/-- The setting is written by entries of one key in one section, and by nothing else. -/
structure WrittenBy (setting : Config → Option γ) (home key : String)
    (read : Toml.Value → Option γ) : Prop where
  known : home = "model" ∨ home = "evaluation"
  report : ∀ (c : Config) d, setting (c.report d) = setting c
  opened : ∀ c : Config, setting { c with bindings := some [] } = setting c
  model : ∀ (c : Config) k value, setting (c.addModelEntry k value) =
    (if "model" = home ∧ k = key then read value else none).or (setting c)
  binding : ∀ (c : Config) k value, setting (c.addBinding k value) = setting c
  evaluation : ∀ (c : Config) k value, setting (c.addEvaluationEntry k value) =
    (if "evaluation" = home ∧ k = key then read value else none).or (setting c)

/-- What is read under a key of a section. -/
def readIn (key : String) (read : Toml.Value → Option γ) : Toml.Value → Option γ
  | .table entries => (entries.lookup key).bind read
  | _ => none

/-- The entries of a section write the setting if the section is the right one. -/
theorem setting_addEntries_of_section {k : String} {add : Config → String → Toml.Value → Config}
    (hadd : ∀ (c : Config) k' value, setting (add c k' value) =
      (if k = home ∧ k' = key then read value else none).or (setting c))
    {entries : Toml.Table} (distinct : (Toml.Value.table entries).Distinct) (c : Config) :
    setting (c.addEntries entries add) =
      (if k = home then readIn key read (.table entries) else none).or (setting c) := by
  cases distinct with
  | table hkeys _ =>
    by_cases hhome : k = home
    · simp only [hhome, true_and] at hadd
      rw [setting_addEntries hkeys (fun entry _ c => hadd c entry.1 entry.2), if_pos hhome, readIn]
    · simp only [hhome, false_and, if_false, Option.none_or] at hadd
      rw [setting_addEntries_of_same hadd, if_neg hhome, Option.none_or]

theorem WrittenBy.addSection (h : WrittenBy setting home key read) (c : Config) {k : String}
    {value : Toml.Value} (distinct : value.Distinct) :
    setting (c.addSection k value) =
      (if k = home then readIn key read value else none).or (setting c) := by
  rcases c.addSection_cases k value with ⟨entries, rfl, rfl, hadd⟩ | ⟨entries, rfl, rfl, hadd⟩ |
    ⟨entries, rfl, rfl, hadd⟩ | ⟨hno, d, hadd⟩
  · rw [hadd, setting_addEntries_of_section h.model distinct]
  · have hother : "bindings" ≠ home := by
      rcases h.known with rfl | rfl <;> decide
    rw [hadd, setting_addEntries_of_same h.binding, h.opened, if_neg hother, Option.none_or]
  · rw [hadd, setting_addEntries_of_section h.evaluation distinct]
  · rw [hadd, h.report]
    split
    · rename_i hhome
      have hvalue := hno (by rcases h.known with hk | hk <;> simp [hhome, hk])
      cases value with
      | table entries => exact absurd rfl (hvalue entries)
      | text | integer | float | boolean | datetime | array => rfl
    · rfl

/-- **A setting is what stands in its section under its key.** -/
theorem WrittenBy.ofTable (h : WrittenBy setting home key read) {table : Toml.Table}
    (distinct : (Toml.Value.table table).Distinct) : setting (ofTable table) =
      ((table.lookup home).bind (readIn key read)).or (setting empty) := by
  cases distinct with
  | table hkeys heach =>
    exact setting_addEntries hkeys (fun entry he c => h.addSection c (heach entry he)) empty

theorem bind_readIn_eq_some_iff {table : Toml.Table}
    (distinct : (Toml.Value.table table).Distinct) {x : γ} :
    (table.lookup home).bind (readIn key read) = some x ↔
      ∃ value, HasEntry table home key value ∧ read value = some x := by
  cases distinct with
  | table hkeys heach =>
    rw [Option.bind_eq_some_iff]
    constructor
    · rintro ⟨found, hfound, hread⟩
      rw [lookup_eq_some_iff_mem hkeys] at hfound
      cases found with
      | table entries =>
        obtain ⟨value, hvalue, hx⟩ := Option.bind_eq_some_iff.mp hread
        exact ⟨value, ⟨entries, hfound, mem_of_lookup_eq_some hvalue⟩, hx⟩
      | text | integer | float | boolean | datetime | array => cases hread
    · rintro ⟨value, ⟨entries, hentries, hvalue⟩, hx⟩
      refine ⟨.table entries, (lookup_eq_some_iff_mem hkeys).mpr hentries, ?_⟩
      cases heach _ hentries with
      | table hkeys' _ =>
        rw [readIn, (lookup_eq_some_iff_mem hkeys').mpr hvalue]
        exact hx

end

/-! ### The stems of files, and how texts are compared -/

theorem names_addModelEntry (c : Config) (key : String) (value : Toml.Value) :
    (c.addModelEntry key value).names =
      (if key = "names" then value.asText? else none).or c.names := by
  unfold addModelEntry
  by_cases hkey : key = "names"
  · subst hkey
    cases value <;> rfl
  · simp only [hkey, false_or, if_false, Option.none_or]
    split
    · split <;> rfl
    · rfl

theorem tree_addModelEntry (c : Config) (key : String) (value : Toml.Value) :
    (c.addModelEntry key value).tree =
      (if key = "tree" then value.asText? else none).or c.tree := by
  unfold addModelEntry
  by_cases hkey : key = "tree"
  · subst hkey
    cases value <;> rfl
  · simp only [hkey, or_false, if_false, Option.none_or]
    split
    · split <;> rfl
    · rfl

/-- Only entries of the section of the model write the stems of its files. -/
theorem writtenBy_of_stems {setting : Config → Option String} {key : String}
    (hstems : ∀ c c' : Config, c'.names = c.names → c'.tree = c.tree → setting c' = setting c)
    (hmodel : ∀ (c : Config) k value, setting (c.addModelEntry k value) =
      (if k = key then value.asText? else none).or (setting c)) :
    WrittenBy setting "model" key Toml.Value.asText? where
  known := .inl rfl
  report c _ := hstems c _ rfl rfl
  opened c := hstems c _ rfl rfl
  model := by simpa using hmodel
  binding := by
    intro c k value
    obtain ⟨bindings, diagnostics, hadd⟩ := addBinding_touches c k value
    rw [hadd]
    exact hstems c _ rfl rfl
  evaluation := by
    intro c k value
    obtain ⟨evaluation, diagnostics, hadd⟩ := addEvaluationEntry_touches c k value
    have hother : ¬("evaluation" = "model" ∧ k = key) := by simp
    rw [hadd, if_neg hother, Option.none_or]
    exact hstems c _ rfl rfl

theorem writtenBy_names : WrittenBy Config.names "model" "names" Toml.Value.asText? :=
  writtenBy_of_stems (fun _ _ hnames _ => hnames) names_addModelEntry

theorem writtenBy_tree : WrittenBy Config.tree "model" "tree" Toml.Value.asText? :=
  writtenBy_of_stems (fun _ _ _ htree => htree) tree_addModelEntry

/-- How texts are compared, if the value says it. -/
def mode? : Toml.Value → Option StringEquality
  | .text "strict" => some .strict
  | .text "legacy" => some .legacy
  | _ => none

theorem writtenBy_stringEquality :
    WrittenBy (fun c => some c.evaluation.stringEquality) "evaluation" "string-equality" mode? where
  known := .inr rfl
  report _ _ := rfl
  opened _ := rfl
  model := by
    intro c k value
    obtain ⟨names, tree, diagnostics, hadd⟩ := addModelEntry_touches c k value
    simp [hadd]
  binding := by
    intro c k value
    obtain ⟨bindings, diagnostics, hadd⟩ := addBinding_touches c k value
    rw [hadd]
  evaluation := by
    intro c k value
    unfold addEvaluationEntry
    by_cases hk : k = "string-equality"
    · simp only [hk, if_true, and_self]
      cases value with
      | text s =>
        by_cases hstrict : s = "strict"
        · subst hstrict
          rfl
        · by_cases hlegacy : s = "legacy"
          · subst hlegacy
            rfl
          · simp [mode?, Toml.Value.asText?, hstrict, hlegacy, report]
      | integer | float | boolean | datetime | array | table => rfl
    · simp only [hk, if_false, and_false, Option.none_or]
      rfl

/-! ### Bindings -/

/-- The binding that an entry is, if its value is a slot. -/
def listed? (entry : String × Toml.Value) : Option (String × Nat) :=
  (slotIndex? entry.2).map (entry.1, ·)

/-- The bindings that a configuration lists, if it has a table of them. -/
def listedIn (table : Toml.Table) : Option (List (String × Nat)) :=
  match table.lookup "bindings" with
  | some (.table entries) => some (entries.filterMap listed?)
  | _ => none

theorem bindings_addEntries_addBinding (entries : Toml.Table) : ∀ {c : Config}
    {before : List (String × Nat)}, c.bindings = some before →
      (c.addEntries entries addBinding).bindings = some (before ++ entries.filterMap listed?) := by
  induction entries with
  | nil => exact fun h => by simpa [addEntries] using h
  | cons entry rest ih =>
    intro c before h
    have hfirst : c.addEntries (entry :: rest) addBinding =
        (c.addBinding entry.1 entry.2).addEntries rest addBinding := rfl
    rw [hfirst, List.filterMap_cons, listed?]
    rcases hslot : slotIndex? entry.2 with _ | index
    · have hsame : (c.addBinding entry.1 entry.2).bindings = some before := by
        simp only [addBinding, hslot]
        exact h
      exact ih hsame
    · have hmore : (c.addBinding entry.1 entry.2).bindings =
          some (before ++ [(entry.1, index)]) := by
        simp only [addBinding, hslot, h, Option.getD_some]
      rw [ih hmore, List.append_assoc]
      rfl

/-- The bindings that an entry of the whole lists, if it is the table of them. -/
def listedAt? : Toml.Value → Option (List (String × Nat))
  | .table entries => some (entries.filterMap listed?)
  | _ => none

theorem bindings_addSection (c : Config) (key : String) (value : Toml.Value) :
    (c.addSection key value).bindings =
      (if key = "bindings" then listedAt? value else none).or c.bindings := by
  rcases c.addSection_cases key value with ⟨entries, rfl, rfl, hadd⟩ | ⟨entries, rfl, rfl, hadd⟩ |
    ⟨entries, rfl, rfl, hadd⟩ | ⟨hno, d, hadd⟩
  · rw [hadd, setting_addEntries_of_same bindings_addModelEntry]
    rfl
  · rw [hadd, bindings_addEntries_addBinding entries rfl]
    rfl
  · rw [hadd, setting_addEntries_of_same bindings_addEvaluationEntry]
    rfl
  · rw [hadd]
    split
    · rename_i hkey
      have hvalue := hno (.inr (.inl hkey))
      cases value with
      | table entries => exact absurd rfl (hvalue entries)
      | text | integer | float | boolean | datetime | array => rfl
    · rfl

/-- **The bindings of a configuration** are the entries of its table of bindings. -/
theorem bindings_ofTable {table : Toml.Table} (distinct : (table.map Prod.fst).Nodup) :
    (ofTable table).bindings = listedIn table := by
  have hall := setting_addEntries distinct (fun entry _ c => bindings_addSection c entry.1 entry.2)
    empty
  rw [ofTable, hall, listedIn]
  cases table.lookup "bindings" with
  | none => rfl
  | some value => cases value <;> rfl

/-! ### All settings -/

/-- The configuration has the settings that entries of the table make, and no others. -/
structure SetBy (table : Toml.Table) (c : Config) : Prop where
  names : ∀ stem, c.names = some stem ↔ HasEntry table "model" "names" (.text stem)
  tree : ∀ stem, c.tree = some stem ↔ HasEntry table "model" "tree" (.text stem)
  bindings : c.bindings = listedIn table
  legacy : c.evaluation.stringEquality = .legacy ↔
    HasEntry table "evaluation" "string-equality" (.text "legacy")

theorem asText?_eq_some_iff {value : Toml.Value} {s : String} :
    value.asText? = some s ↔ value = .text s := by
  cases value <;> simp [Toml.Value.asText?]

theorem mode?_eq_some_legacy_iff {value : Toml.Value} :
    mode? value = some .legacy ↔ value = .text "legacy" := by
  unfold mode?
  split <;> simp_all

/-- **Every entry that can be used takes effect**, and settings come from nowhere else. -/
theorem setBy_of_parse {document : String} {c : Config} (h : parse document = some c) :
    ∃ table, Toml.parse document = some table ∧ SetBy table c := by
  obtain ⟨table, htable, rfl⟩ := Option.map_eq_some_iff.mp h
  have distinct := Toml.distinct_of_parse htable
  refine ⟨table, htable, ?_, ?_, ?_, ?_⟩
  · intro stem
    rw [writtenBy_names.ofTable distinct]
    simp [empty, bind_readIn_eq_some_iff distinct, asText?_eq_some_iff]
  · intro stem
    rw [writtenBy_tree.ofTable distinct]
    simp [empty, bind_readIn_eq_some_iff distinct, asText?_eq_some_iff]
  · cases distinct with
    | table hkeys _ => exact bindings_ofTable hkeys
  · have hmode := writtenBy_stringEquality.ofTable distinct
    have hentry : (table.lookup "evaluation").bind (readIn "string-equality" mode?) = some .legacy ↔
        HasEntry table "evaluation" "string-equality" (.text "legacy") := by
      simp [bind_readIn_eq_some_iff distinct, mode?_eq_some_legacy_iff]
    rw [← hentry]
    rcases hfound : (table.lookup "evaluation").bind (readIn "string-equality" mode?) with _ | mode
    · rw [hfound] at hmode
      simp [Option.some.inj hmode, empty]
    · rw [hfound] at hmode
      simp [Option.some.inj hmode]

end Config

end DecisionModel
