import DecisionModel.Proofs.Config.Settings
import DecisionModel.Proofs.Schema.Runs
import DecisionModel.Proofs.TreeFile.WellFormed

/-!
# Schemas that bindings are applied to

The bindings of a configuration are the entries of a table, whose keys are distinct.  Applied to a
schema, they move the attributes that are listed to the slots beside their names and leave the
others where they are.  So their order makes no difference to the schema.
-/

namespace DecisionModel

namespace Config

/-! ### The bindings of a table -/

theorem map_fst_listed_sublist (entries : Toml.Table) :
    ((entries.filterMap listed?).map Prod.fst).Sublist (entries.map Prod.fst) := by
  induction entries with
  | nil => exact .slnil
  | cons entry rest ih =>
    rw [List.filterMap_cons, listed?]
    cases slotIndex? entry.2 with
    | none => exact ih.cons entry.1
    | some index => exact ih.cons_cons entry.1

theorem nodup_of_listedIn {table : Toml.Table} (h : (Toml.Value.table table).Distinct)
    {bindings : List (String × Nat)} (hlisted : listedIn table = some bindings) :
    (bindings.map Prod.fst).Nodup := by
  unfold listedIn at hlisted
  split at hlisted
  · rename_i entries hlookup
    cases hlisted
    cases h with
    | table hkeys heach =>
      cases heach _ (mem_of_lookup_eq_some hlookup) with
      | table hentries _ => exact hentries.sublist (map_fst_listed_sublist entries)
  · cases hlisted

/-- A configuration that is read has the bindings of its table, under distinct names. -/
theorem listed_of_parse {document : String} {c : Config} (h : parse document = some c) :
    ∃ table, Toml.parse document = some table ∧ c.bindings = listedIn table ∧
      ∀ bindings, c.bindings = some bindings → (bindings.map Prod.fst).Nodup := by
  obtain ⟨table, htable, rfl⟩ := Option.map_eq_some_iff.mp h
  have hdistinct := Toml.distinct_of_parse htable
  have hbindings : (ofTable table).bindings = listedIn table := by
    cases hdistinct with
    | table hkeys _ => exact bindings_ofTable hkeys
  refine ⟨table, htable, hbindings, ?_⟩
  intro bindings hsome
  exact nodup_of_listedIn hdistinct (hbindings ▸ hsome)

/-! ### Applying bindings -/

/-- The attribute at the slot that is listed for its name, or where it is if there is none. -/
def bindListed (bindings : List (String × Nat)) (a : Attribute) : Attribute :=
  match bindings.lookup a.name with
  | some index => a.bind (.index index)
  | none => a

section

variable {schema : Schema} {bindings : List (String × Nat)}

theorem mapAttributes_congr {f g : Attribute → Attribute}
    (h : ∀ a ∈ schema.attributes, f a = g a) : schema.mapAttributes f = schema.mapAttributes g := by
  simp only [Schema.mapAttributes, List.map_congr_left h]

theorem mapAttributes_self : schema.mapAttributes (fun a => a) = schema := by
  simp only [Schema.mapAttributes, List.map_id']

theorem defines_eq_true_iff {name : String} :
    schema.defines name = true ↔ ∃ a ∈ schema.attributes, a.name = name := by
  simp [Schema.defines]

theorem defines_mapAttributes {f : Attribute → Attribute} (hf : ∀ a, (f a).name = a.name)
    (name : String) : (schema.mapAttributes f).defines name = schema.defines name := by
  simp [Schema.defines, Function.comp_def, hf]

/-- Binding a name and then others is binding them all. -/
theorem mapAttributes_bindSlot {name : String} {index : Nat}
    (hfresh : name ∉ bindings.map Prod.fst) :
    (schema.bindSlot name (.index index)).mapAttributes (bindListed bindings) =
      schema.mapAttributes (bindListed ((name, index) :: bindings)) := by
  have hnone : bindings.lookup name = none := lookup_eq_none_iff_notMem.mpr hfresh
  simp only [Schema.mapAttributes, Schema.bindSlot, List.map_map]
  congr 1
  refine List.map_congr_left fun a _ => ?_
  by_cases hname : a.name = name
  · simp [bindListed, hname, hnone, Attribute.bind]
  · have hne : (a.name == name) = false := by simpa using hname
    simp [bindListed, hname, List.lookup_cons, hne]

/-- An entry of another name makes no difference. -/
theorem mapAttributes_bindListed_cons {name : String} (index : Nat)
    (hundefined : schema.defines name = false) :
    schema.mapAttributes (bindListed ((name, index) :: bindings)) =
      schema.mapAttributes (bindListed bindings) := by
  refine mapAttributes_congr fun a ha => ?_
  have hname : a.name ≠ name := by
    intro heq
    rw [defines_eq_true_iff.mpr ⟨a, ha, heq⟩] at hundefined
    cases hundefined
  have hne : (a.name == name) = false := by simpa using hname
  simp [bindListed, List.lookup_cons, hne]

/-- Bindings of distinct names that are applied one after the other move what is listed, and leave
    the names that are not defined. -/
theorem foldlM_applyEntry_eq (hslots : ∀ entry ∈ bindings, entry.2 < Slot.limit)
    (hnames : (bindings.map Prod.fst).Nodup) : ∀ (schema : Schema) (unknown : List String),
      bindings.foldlM applyEntry (schema, unknown) =
        some (schema.mapAttributes (bindListed bindings),
          unknown ++ (bindings.map Prod.fst).filter fun name => !schema.defines name) := by
  induction bindings with
  | nil =>
    intro schema unknown
    have hsame : schema.mapAttributes (bindListed []) = schema := mapAttributes_self
    rw [hsame, List.map_nil, List.filter_nil, List.append_nil]
    rfl
  | cons entry rest ih =>
    intro schema unknown
    obtain ⟨name, index⟩ := entry
    obtain ⟨hslot, hslots⟩ := List.forall_mem_cons.mp hslots
    obtain ⟨hfresh, hnames⟩ := List.nodup_cons.mp hnames
    rw [List.foldlM_cons, List.map_cons, List.filter_cons]
    by_cases hdefines : schema.defines name = true
    · have hfirst : applyEntry (schema, unknown) (name, index) =
          some (schema.bindSlot name (.index index), unknown) := by
        simp [applyEntry, Slot.ofIndex?, hslot, hdefines]
      have hdefined : ∀ name', (schema.bindSlot name (.index index)).defines name' =
          schema.defines name' :=
        defines_mapAttributes fun a => (Schema.sameButSlot_bindNamed name _ a).name
      rw [hfirst, Option.bind_eq_bind, Option.bind_some, ih hslots hnames,
        mapAttributes_bindSlot hfresh]
      simp [hdefined, hdefines]
    · rw [Bool.not_eq_true] at hdefines
      have hfirst : applyEntry (schema, unknown) (name, index) =
          some (schema, unknown ++ [name]) := by
        simp [applyEntry, Slot.ofIndex?, hslot, hdefines]
      rw [hfirst, Option.bind_eq_bind, Option.bind_some, ih hslots hnames,
        mapAttributes_bindListed_cons index hdefines]
      simp [hdefines]

/-- Bindings that are listed in another order are applied with the same effect. -/
theorem applyBindings_eq_of_perm {c : Config} {reordered : List (String × Nat)}
    (hslots : ∀ entry ∈ bindings, entry.2 < Slot.limit) (hnames : (bindings.map Prod.fst).Nodup)
    (hperm : reordered.Perm bindings) (hc : c.bindings = some reordered) (schema : Schema) :
    c.applyBindings schema = some (schema.mapAttributes (bindListed bindings),
      (reordered.map Prod.fst).filter fun name => !schema.defines name) := by
  have hslots' : ∀ entry ∈ reordered, entry.2 < Slot.limit :=
    fun entry hentry => hslots entry (hperm.mem_iff.mp hentry)
  have hnames' : (reordered.map Prod.fst).Nodup := (hperm.map Prod.fst).nodup_iff.mpr hnames
  have hsame : bindListed reordered = bindListed bindings := by
    funext a
    rw [bindListed, bindListed, lookup_eq_of_perm hperm hnames]
  rw [applyBindings_eq, hc]
  exact (foldlM_applyEntry_eq hslots' hnames' schema []).trans (by rw [hsame, List.nil_append])

/-- With the slots of their positions, all attributes have slots that can be. -/
theorem slot_lt_of_bindById (h : schema.Consistent) (hsize : schema.size ≤ Slot.limit) :
    ∀ a ∈ schema.bindById.attributes, ∃ n < Slot.limit, a.slot = .index n := by
  intro b hb
  obtain ⟨a, ha, rfl⟩ := List.mem_map.mp hb
  obtain ⟨i, hi⟩ := List.mem_iff_getElem?.mp ha
  have hlt : i < schema.size := (List.getElem?_eq_some_iff.mp hi).1
  refine ⟨i, Nat.lt_of_lt_of_le hlt hsize, ?_⟩
  rw [h.id_eq i a hi]
  rfl

end

/-- **Applying bindings** does what the configuration says, and always can.  What it lists are the
    entries of its table of bindings.  If there is none, every attribute gets the slot of its
    position.  Else the attributes that are listed get their slots and no other changes, and the
    names that are not defined come back in the order of the file, each once.  Nothing else of the
    schema changes, and the order of the bindings makes no difference to it. -/
theorem applyBindings_of_parse {document : String} {c : Config} (h : parse document = some c)
    (schema : Schema) :
    ∃ table bound unknown, Toml.parse document = some table ∧ c.bindings = listedIn table ∧
      c.applyBindings schema = some (bound, unknown) ∧ schema.SameButSlots bound ∧
      (c.bindings = none →
        bound.attributes = schema.attributes.map (fun a => a.bind (.index a.id.index)) ∧
        unknown = [] ∧
        (schema.Consistent → schema.size ≤ Slot.limit →
          ∀ a ∈ bound.attributes, ∃ n < Slot.limit, a.slot = .index n)) ∧
      ∀ bindings, c.bindings = some bindings →
        bound.attributes = schema.attributes.map (bindListed bindings) ∧
        unknown = ((bindings.map Prod.fst).filter fun name => !schema.defines name) ∧
        unknown.Nodup ∧
        ∀ (c' : Config) (reordered : List (String × Nat)), c'.bindings = some reordered →
          reordered.Perm bindings → ∃ unknown', c'.applyBindings schema = some (bound, unknown') ∧
            unknown'.Perm unknown := by
  obtain ⟨table, htable, hlisted, hnames⟩ := listed_of_parse h
  have hslots := slotsInRange_of_parse h
  rcases hbindings : c.bindings with _ | bindings
  · have happly : c.applyBindings schema = some (schema.bindById, []) := by
      rw [applyBindings_eq, hbindings]
    refine ⟨table, _, _, htable, hbindings ▸ hlisted, happly,
      (rebound_of_applyBindings happly).sameButSlots, ?_, nofun⟩
    exact fun _ => ⟨rfl, rfl, slot_lt_of_bindById⟩
  · have happly := applyBindings_eq_of_perm (hslots bindings hbindings) (hnames bindings hbindings)
      (.refl bindings) hbindings schema
    refine ⟨table, _, _, htable, hbindings ▸ hlisted, happly,
      (rebound_of_applyBindings happly).sameButSlots, nofun, ?_⟩
    rintro _ ⟨⟩
    refine ⟨rfl, rfl, (hnames bindings hbindings).filter _, ?_⟩
    intro c' reordered hc' hperm
    have hother := applyBindings_eq_of_perm (hslots bindings hbindings) (hnames bindings hbindings)
      hperm hc' schema
    exact ⟨_, hother, (hperm.map Prod.fst).filter _⟩

def mixedDocument : String := "[bindings]\nheight = 0\ncount = 4\nlevel = -1\n"

/-- One of the names is not defined, and one has no slot. -/
def mixedBindings : Config :=
  { Config.empty with
    bindings := some [("height", 0), ("count", 4)]
    diagnostics := [.invalidSlot "level" "-1"] }

/-- The names of `mixedBindings` in another order. -/
def reorderedBindings : Config :=
  { Config.empty with bindings := some [("count", 4), ("height", 0)] }

open TreeFile in
theorem applyBindings_mixedBindings :
    parse mixedDocument = some mixedBindings ∧
      ∃ bound, mixedBindings.applyBindings policySchema = some (bound, ["height"]) ∧
        policySchema.SameButSlots bound ∧
        bound.attributes.map Attribute.slot = [.unbound, .unbound, .index 4] ∧
        ∃ unknown, reorderedBindings.applyBindings policySchema = some (bound, unknown) := by
  have hparse : parse mixedDocument = some mixedBindings := by decide +kernel
  obtain ⟨table, bound, unknown, -, -, happly, hsame, -, hlisted⟩ :=
    applyBindings_of_parse hparse policySchema
  obtain ⟨hattributes, hunknown, -, hreordered⟩ := hlisted _ rfl
  obtain ⟨unknown', hother, -⟩ := hreordered reorderedBindings _ rfl (.swap ..)
  subst hunknown
  refine ⟨hparse, bound, happly, hsame, ?_, unknown', hother⟩
  rw [hattributes]
  cbv

end Config

end DecisionModel
