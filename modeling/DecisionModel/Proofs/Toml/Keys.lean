import DecisionModel.Toml.Layout
import DecisionModel.Proofs.Lists

/-!
# Keys of tables

However dotted keys and headers come together, no table of a document has two entries of one key.
Entries are added where there is none with their key; a header that takes a table out of its place
leaves no entry of its key behind, so that the table can be put back when it is complete.
-/

namespace DecisionModel.Toml

/-- No table in the value has two entries of one key. -/
inductive Value.Distinct : Value → Prop
  | text (s : String) : Distinct (.text s)
  | integer (n : Int) : Distinct (.integer n)
  | float (x : Double) : Distinct (.float x)
  | boolean (b : Bool) : Distinct (.boolean b)
  | datetime (d : Datetime) : Distinct (.datetime d)
  | array {items : List Value} : (∀ v ∈ items, v.Distinct) → Distinct (.array items)
  | table {entries : List (String × Value)} : (entries.map Prod.fst).Nodup →
      (∀ e ∈ entries, e.2.Distinct) → Distinct (.table entries)

/-- No table in the item has two entries of one key. -/
inductive Item.Distinct : Item → Prop
  | value {v : Value} : v.Distinct → Distinct (.value v)
  | table {origin : Origin} {entries : List (String × Item)} : (entries.map Prod.fst).Nodup →
      (∀ e ∈ entries, e.2.Distinct) → Distinct (.table origin entries)
  | tables {list : List (List (String × Item))} : (∀ items ∈ list, (items.map Prod.fst).Nodup) →
      (∀ items ∈ list, ∀ e ∈ items, e.2.Distinct) → Distinct (.tables list)

namespace Items

structure Distinct (items : Items) : Prop where
  keys : (items.map Prod.fst).Nodup
  each : ∀ e ∈ items, e.2.Distinct

theorem Distinct.nil : Distinct [] := ⟨List.nodup_nil, nofun⟩

theorem Distinct.table {items : Items} (h : items.Distinct) (origin : Origin) :
    (Item.table origin items).Distinct :=
  .table h.keys h.each

/-! ### Changes of one entry -/

section

variable {items : Items} {key : String} {item : Item}

theorem keys_replace : (replace items key item).map Prod.fst = items.map Prod.fst := by
  rw [replace, List.map_map]
  refine List.map_congr_left fun e _ => ?_
  dsimp only [Function.comp_apply]
  split <;> rfl

theorem lookup_replace (h : items.lookup key ≠ none) :
    (replace items key item).lookup key = some item := by
  induction items with
  | nil => exact absurd rfl h
  | cons e rest ih =>
    obtain ⟨k, i⟩ := e
    by_cases hk : k = key
    · subst hk
      simp [replace]
    · have hne : (key == k) = false := by simpa using Ne.symm hk
      rw [List.lookup_cons, hne] at h
      simpa [replace, hk, List.lookup_cons, hne] using ih h

theorem lookup_append_self (h : items.lookup key = none) :
    (items ++ [(key, item)]).lookup key = some item := by
  rw [List.lookup_append, h]
  simp

theorem Distinct.replace (h : items.Distinct) (hitem : item.Distinct) :
    (items.replace key item).Distinct where
  keys := by
    rw [keys_replace]
    exact h.keys
  each := by
    intro e he
    obtain ⟨old, hold, rfl⟩ := List.mem_map.mp he
    dsimp only
    split
    · exact hitem
    · exact h.each old hold

theorem Distinct.append (h : items.Distinct) (hkey : items.lookup key = none)
    (hitem : item.Distinct) : Distinct (items ++ [(key, item)]) where
  keys := by
    rw [List.map_append, List.map_singleton, ← List.concat_eq_append]
    exact h.keys.concat (lookup_eq_none_iff_notMem.mp hkey)
  each := by
    intro e he
    rcases List.mem_append.mp he with hold | hnew
    · exact h.each e hold
    · rw [List.mem_singleton.mp hnew]
      exact hitem

theorem Distinct.erase (h : items.Distinct) : (items.erase key).Distinct where
  keys := h.keys.sublist (List.filter_sublist.map Prod.fst)
  each := fun e he => h.each e (List.mem_of_mem_filter he)

theorem lookup_erase : (items.erase key).lookup key = none := by
  rw [lookup_eq_none_iff_notMem]
  intro hmem
  obtain ⟨e, he, rfl⟩ := List.mem_map.mp hmem
  simpa using (List.mem_filter.mp he).2

theorem Distinct.of_lookup (h : items.Distinct) (hlookup : items.lookup key = some item) :
    item.Distinct :=
  h.each _ (mem_of_lookup_eq_some hlookup)

end

/-! ### Changes at the end of a path -/

/-- The table at the end of a path; it is empty where there is none. -/
def tableAt : List String → Items → Items
  | [], items => items
  | key :: path, items =>
    match items.lookup key with
    | some (.table _ inner) => tableAt path inner
    | some (.tables list) => tableAt path (list.getLast?.getD [])
    | _ => tableAt path []

section

variable {α : Type} {dotted : Bool} {f : Origin → Items → Option (α × Items)}

/-- A change at the end of a path sees the table there, and puts another there. -/
theorem tableAt_of_update {path : List String} : ∀ {origin : Origin} {items items' : Items}
    {found : α}, update dotted f path origin items = some (found, items') →
      ∃ origin', f origin' (tableAt path items) = some (found, tableAt path items') := by
  induction path with
  | nil => exact fun h => ⟨_, h⟩
  | cons key path ih =>
    intro origin items items' found h
    unfold update at h
    unfold tableAt
    rcases hlookup : items.lookup key with _ | item
    · rw [hlookup] at h
      obtain ⟨⟨found', inner⟩, hinner, h⟩ := Option.bind_eq_some_iff.mp h
      cases h
      rw [lookup_append_self hlookup]
      exact ih hinner
    · have hne : items.lookup key ≠ none := by simp [hlookup]
      rw [hlookup] at h
      cases item with
      | value v => cases h
      | table origin inner =>
        dsimp only at h
        split at h
        · cases h
        · obtain ⟨⟨found', inner'⟩, hinner, h⟩ := Option.bind_eq_some_iff.mp h
          cases h
          rw [lookup_replace hne]
          exact ih hinner
      | tables list =>
        obtain ⟨last, hlast, h⟩ := Option.bind_eq_some_iff.mp h
        obtain ⟨⟨found', last'⟩, hinner, h⟩ := Option.bind_eq_some_iff.mp h
        cases h
        rw [lookup_replace hne]
        simpa [hlast] using ih hinner

/-- What a change at the end of a path leaves has distinct keys if the table there has. -/
theorem distinct_of_update {path : List String} : ∀ {origin : Origin} {items items' : Items}
    {found : α}, items.Distinct → update dotted f path origin items = some (found, items') →
      (tableAt path items').Distinct → items'.Distinct := by
  induction path with
  | nil => exact fun _ _ hat => hat
  | cons key path ih =>
    intro origin items items' found hitems h hat
    unfold update at h
    unfold tableAt at hat
    rcases hlookup : items.lookup key with _ | item
    · rw [hlookup] at h
      obtain ⟨⟨found', inner⟩, hinner, h⟩ := Option.bind_eq_some_iff.mp h
      cases h
      rw [lookup_append_self hlookup] at hat
      exact hitems.append hlookup ((ih .nil hinner hat).table _)
    · have hne : items.lookup key ≠ none := by simp [hlookup]
      have hitem : item.Distinct := hitems.of_lookup hlookup
      rw [hlookup] at h
      cases hitem with
      | value hv => cases h
      | @table origin inner hkeys heach =>
        dsimp only at h
        split at h
        · cases h
        · obtain ⟨⟨found', inner'⟩, hinner, h⟩ := Option.bind_eq_some_iff.mp h
          cases h
          rw [lookup_replace hne] at hat
          exact hitems.replace ((ih ⟨hkeys, heach⟩ hinner hat).table _)
      | @tables list hkeys heach =>
        obtain ⟨last, hlast, h⟩ := Option.bind_eq_some_iff.mp h
        obtain ⟨⟨found', last'⟩, hinner, h⟩ := Option.bind_eq_some_iff.mp h
        cases h
        have hmem : last ∈ list := List.mem_of_getLast? hlast
        have hlast' : Distinct last' := by
          rw [lookup_replace hne] at hat
          exact ih ⟨hkeys last hmem, heach last hmem⟩ hinner (by simpa using hat)
        have hold : ∀ items ∈ list.dropLast, items ∈ list := fun _ hmem =>
          List.dropLast_subset list hmem
        refine hitems.replace (.tables ?_ ?_)
        · exact List.forall_mem_append.mpr
            ⟨fun items hitems => hkeys items (hold items hitems), by simpa using hlast'.keys⟩
        · exact List.forall_mem_append.mpr
            ⟨fun items hitems => heach items (hold items hitems), by simpa using hlast'.each⟩

end

theorem Distinct.tableAt {path : List String} : ∀ {items : Items}, items.Distinct →
    (items.tableAt path).Distinct := by
  induction path with
  | nil => exact fun h => h
  | cons key path ih =>
    intro items h
    unfold Items.tableAt
    rcases hlookup : items.lookup key with _ | item
    · exact ih .nil
    · cases h.of_lookup hlookup with
      | value => exact ih .nil
      | table hkeys heach => exact ih ⟨hkeys, heach⟩
      | @tables list hkeys heach =>
        dsimp only
        rcases hlast : list.getLast? with _ | last
        · exact ih .nil
        · have hmem : last ∈ list := List.mem_of_getLast? hlast
          exact ih ⟨hkeys last hmem, heach last hmem⟩

/-! ### Entries and tables -/

section

variable {items items' inner : Items} {path : List String} {key : String}

theorem Distinct.addEntry (h : items.Distinct) {item : Item} (hitem : item.Distinct)
    (hadd : items.addEntry path key item = some items') : items'.Distinct := by
  obtain ⟨⟨_, items''⟩, hupdate, hadd⟩ := Option.bind_eq_some_iff.mp hadd
  cases hadd
  obtain ⟨origin, hat⟩ := tableAt_of_update hupdate
  refine distinct_of_update h hupdate ?_
  split at hat
  · cases hat
  · rename_i hfree
    obtain ⟨-, hat⟩ := Prod.mk.inj (Option.some.inj hat)
    rw [Bool.or_eq_true, not_or, Option.not_isSome_iff_eq_none] at hfree
    rw [← hat]
    exact h.tableAt.append hfree.2 hitem

/-- A table can be put where there is no entry of its key. -/
theorem Distinct.addTable (h : items.Distinct) (hinner : inner.Distinct)
    (hfree : (items.tableAt path).lookup key = none)
    (hadd : items.addTable path key inner = some items') : items'.Distinct := by
  obtain ⟨⟨_, items''⟩, hupdate, hadd⟩ := Option.bind_eq_some_iff.mp hadd
  cases hadd
  obtain ⟨origin, hat⟩ := tableAt_of_update hupdate
  obtain ⟨-, hat⟩ := Prod.mk.inj (Option.some.inj hat)
  refine distinct_of_update h hupdate ?_
  rw [← hat]
  exact h.tableAt.append hfree (hinner.table _)

theorem Distinct.addToArray (h : items.Distinct) (hinner : inner.Distinct)
    (hadd : items.addToArray path key inner = some items') : items'.Distinct := by
  obtain ⟨⟨_, items''⟩, hupdate, hadd⟩ := Option.bind_eq_some_iff.mp hadd
  cases hadd
  obtain ⟨origin, hat⟩ := tableAt_of_update hupdate
  refine distinct_of_update h hupdate ?_
  split at hat
  · rename_i hfree
    obtain ⟨-, hat⟩ := Prod.mk.inj (Option.some.inj hat)
    rw [← hat]
    refine h.tableAt.append hfree (.tables ?_ ?_)
    · simpa using hinner.keys
    · simpa using hinner.each
  · rename_i list hlookup
    obtain ⟨-, hat⟩ := Prod.mk.inj (Option.some.inj hat)
    rw [← hat]
    cases h.tableAt.of_lookup hlookup with
    | tables hkeys heach =>
      refine h.tableAt.replace (.tables ?_ ?_)
      · exact List.forall_mem_append.mpr ⟨hkeys, by simpa using hinner.keys⟩
      · exact List.forall_mem_append.mpr ⟨heach, by simpa using hinner.each⟩
  · cases hat

/-- A table that is taken out leaves no entry of its key behind. -/
theorem Distinct.takeTable (h : items.Distinct)
    (htake : items.takeTable path key = some (inner, items')) :
    inner.Distinct ∧ items'.Distinct ∧ (items'.tableAt path).lookup key = none := by
  obtain ⟨origin, hat⟩ := tableAt_of_update htake
  have hboth : inner.Distinct ∧ (items'.tableAt path).Distinct ∧
      (items'.tableAt path).lookup key = none := by
    split at hat
    · rename_i hfree
      obtain ⟨rfl, hsame⟩ := Prod.mk.inj (Option.some.inj hat)
      rw [← hsame]
      exact ⟨.nil, h.tableAt, hfree⟩
    · rename_i hlookup
      obtain ⟨rfl, hsame⟩ := Prod.mk.inj (Option.some.inj hat)
      rw [← hsame]
      cases h.tableAt.of_lookup hlookup with
      | table hkeys heach => exact ⟨⟨hkeys, heach⟩, h.tableAt.erase, lookup_erase⟩
    · cases hat
  obtain ⟨hinner, htable, hfree⟩ := hboth
  exact ⟨hinner, distinct_of_update h htake htable, hfree⟩

end

end Items

/-! ### Values of documents -/

theorem toTable_eq_map (items : Items) :
    toTable items = items.map fun e => (e.1, e.2.toValue) := by
  induction items with
  | nil => rfl
  | cons e rest ih =>
    obtain ⟨key, item⟩ := e
    rw [toTable, List.map_cons, ih]

theorem toTables_eq_map (list : List Items) :
    toTables list = list.map fun items => .table (toTable items) := by
  induction list with
  | nil => rfl
  | cons items rest ih => rw [toTables, List.map_cons, ih]

theorem distinct_toTable {items : Items} (hkeys : (items.map Prod.fst).Nodup)
    (heach : ∀ e ∈ items, e.2.toValue.Distinct) : (Value.table (toTable items)).Distinct := by
  rw [toTable_eq_map]
  refine .table (by simpa [Function.comp_def] using hkeys) ?_
  intro e he
  obtain ⟨item, hitem, rfl⟩ := List.mem_map.mp he
  exact heach item hitem

theorem Item.Distinct.toValue {item : Item} (h : item.Distinct) : item.toValue.Distinct := by
  induction h with
  | value hv => exact hv
  | table hkeys _ ih => exact distinct_toTable hkeys ih
  | tables hkeys _ ih =>
    rw [Item.toValue, toTables_eq_map]
    refine .array ?_
    intro v hv
    obtain ⟨items, hitems, rfl⟩ := List.mem_map.mp hv
    exact distinct_toTable (hkeys items hitems) (ih items hitems)

/-- The table that items make has distinct keys as they have. -/
theorem Items.Distinct.toTable {items : Items} (h : items.Distinct) :
    (Value.table (toTable items)).Distinct :=
  distinct_toTable h.keys fun e he => (h.each e he).toValue

/-! ### Layouts -/

namespace Layout

/-- The tables that are read so far have distinct keys, and so has the document when the current
    table is put back. -/
structure Distinct (l : Layout) : Prop where
  root : l.root.Distinct
  current : l.current.Distinct
  free : ∀ path key, l.target = .table path key → (l.root.tableAt path).lookup key = none

theorem distinct_initial : initial.Distinct := ⟨.nil, .nil, nofun⟩

theorem Distinct.close {l : Layout} (h : l.Distinct) {items : Items}
    (hclose : l.close = some items) : items.Distinct := by
  unfold Layout.close at hclose
  split at hclose
  · cases hclose
    exact h.current
  · rename_i htarget
    exact h.root.addTable h.current (h.free _ _ htarget) hclose
  · exact h.root.addToArray h.current hclose

/-- The value of the statement has distinct keys, if it has one. -/
def StatementDistinct : Statement → Prop
  | .entry _ _ value => value.Distinct
  | .header .. | .arrayHeader .. => True

theorem Distinct.step {l l' : Layout} (h : l.Distinct) {s : Statement} (hs : StatementDistinct s)
    (hstep : l.step s = some l') : l'.Distinct := by
  cases s with
  | entry path key value =>
    obtain ⟨current, hcurrent, hstep⟩ := Option.bind_eq_some_iff.mp hstep
    cases hstep
    exact ⟨h.root, h.current.addEntry (.value hs) hcurrent, h.free⟩
  | header path key =>
    obtain ⟨closed, hclosed, hstep⟩ := Option.bind_eq_some_iff.mp hstep
    obtain ⟨⟨inner, root⟩, htake, hstep⟩ := Option.bind_eq_some_iff.mp hstep
    cases hstep
    obtain ⟨hinner, hroot, hfree⟩ := (h.close hclosed).takeTable htake
    exact ⟨hroot, hinner, fun _ _ htarget => by cases htarget; exact hfree⟩
  | arrayHeader path key =>
    obtain ⟨root, hroot, hstep⟩ := Option.bind_eq_some_iff.mp hstep
    obtain ⟨_, -, hstep⟩ := Option.bind_eq_some_iff.mp hstep
    cases hstep
    exact ⟨h.close hroot, .nil, nofun⟩

theorem Distinct.run {statements : List Statement} : ∀ {l l' : Layout}, l.Distinct →
    (∀ s ∈ statements, StatementDistinct s) → statements.foldlM Layout.step l = some l' →
    l'.Distinct := by
  induction statements with
  | nil =>
    intro l l' h _ hrun
    cases hrun
    exact h
  | cons s rest ih =>
    intro l l' h hall hrun
    obtain ⟨hs, hrest⟩ := List.forall_mem_cons.mp hall
    obtain ⟨next, hnext, hrun⟩ := Option.bind_eq_some_iff.mp hrun
    exact ih (h.step hs hnext) hrest hrun

/-- **The tables of a document have distinct keys** if the values in it have. -/
theorem distinct_ofStatements {statements : List Statement}
    (h : ∀ s ∈ statements, StatementDistinct s) {table : Table}
    (hlayout : ofStatements statements = some table) : (Value.table table).Distinct := by
  obtain ⟨l, hl, hlayout⟩ := Option.bind_eq_some_iff.mp hlayout
  obtain ⟨items, hitems, hlayout⟩ := Option.bind_eq_some_iff.mp hlayout
  cases hlayout
  exact ((distinct_initial.run h hl).close hitems).toTable

end Layout

end DecisionModel.Toml
