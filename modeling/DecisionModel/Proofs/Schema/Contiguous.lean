import Mathlib.Data.List.Perm.Subperm
import DecisionModel.Proofs.Schema.Runs

/-!
# Which attributes can be the decision

The codes of `n` values are contiguous if they are `0, 1, …, n - 1` in some order.  An attribute
can be the decision exactly if its codes are.  Values are put into the table of names one after
the other, and the first that has no place in it, or whose place is taken, is the reason for a
refusal.  What the refusal says of the codes is true of all of them: a missing code is the least
number that no value has, and by counting it is below the number of values.
-/

namespace DecisionModel

/-- The codes are the numbers below their count, each once. -/
def Contiguous (codes : List Int) : Prop :=
  codes.Perm ((List.range codes.length).map Int.ofNat)

/-- The least number that is no code. -/
structure LeastGap (codes : List Int) (gap : Int) : Prop where
  nonneg : 0 ≤ gap
  unused : gap ∉ codes
  least : ∀ code, 0 ≤ code → code < gap → code ∈ codes

variable {codes : List Int}

theorem nodup_map_ofNat_range (count : Nat) : ((List.range count).map Int.ofNat).Nodup :=
  List.nodup_range.map fun _ _ => Int.ofNat.inj

theorem Contiguous.nodup (h : Contiguous codes) : codes.Nodup := by
  rw [List.Perm.nodup_iff h]
  exact nodup_map_ofNat_range _

theorem Contiguous.mem_iff (h : Contiguous codes) {code : Int} :
    code ∈ codes ↔ 0 ≤ code ∧ code < codes.length := by
  rw [List.Perm.mem_iff h, List.mem_map]
  constructor
  · rintro ⟨i, hi, rfl⟩
    rw [List.mem_range] at hi
    simp only [Int.ofNat_eq_natCast]
    omega
  · rintro ⟨hlow, hhigh⟩
    exact ⟨code.toNat, List.mem_range.mpr (by omega), Int.toNat_of_nonneg hlow⟩

/-- As many codes as there are numbers below their count leave no room for others. -/
theorem contiguous_of_forall_mem (h : ∀ i : Nat, i < codes.length → (i : Int) ∈ codes) :
    Contiguous codes := by
  have hnumbers : (List.range codes.length).map Int.ofNat ⊆ codes := by
    intro code hcode
    obtain ⟨i, hi, rfl⟩ := List.mem_map.mp hcode
    exact h i (List.mem_range.mp hi)
  have hperm := ((nodup_map_ofNat_range codes.length).subperm hnumbers).perm_of_length_le (by simp)
  exact hperm.symm

namespace SchemaBuilder

/-! ### The least number that is no code -/

theorem mem_of_lt_gapFrom {count candidate i : Nat} (hlow : candidate ≤ i)
    (hhigh : i < gapFrom codes count candidate) : (i : Int) ∈ codes := by
  induction count generalizing candidate with
  | zero =>
    rw [gapFrom] at hhigh
    omega
  | succ count ih =>
    rw [gapFrom] at hhigh
    split at hhigh
    · rename_i hmem
      by_cases hi : i = candidate
      · exact hi ▸ List.contains_iff_mem.mp hmem
      · exact ih (by omega) hhigh
    · omega

theorem gapFrom_notMem {count candidate : Nat}
    (h : gapFrom codes count candidate < candidate + count) :
    (gapFrom codes count candidate : Int) ∉ codes := by
  induction count generalizing candidate with
  | zero =>
    rw [gapFrom] at h
    omega
  | succ count ih =>
    rw [gapFrom] at h ⊢
    split
    · rename_i hmem
      rw [if_pos hmem] at h
      exact ih (by omega)
    · rename_i hnot
      exact fun hmem => hnot (List.contains_iff_mem.mpr hmem)

/-- Codes that are not contiguous leave a gap below their count. -/
theorem firstGap_lt (h : ¬ Contiguous codes) : firstGap codes < codes.length := by
  by_contra hlarge
  refine h (contiguous_of_forall_mem ?_)
  intro i hi
  exact mem_of_lt_gapFrom (Nat.zero_le i) (Nat.lt_of_lt_of_le hi (Nat.le_of_not_lt hlarge))

theorem leastGap_firstGap (h : ¬ Contiguous codes) : LeastGap codes (firstGap codes) where
  nonneg := Int.natCast_nonneg _
  unused := gapFrom_notMem (by rw [Nat.zero_add]; exact firstGap_lt h)
  least := by
    intro code hlow hhigh
    obtain ⟨i, rfl⟩ := Int.eq_ofNat_of_zero_le hlow
    exact mem_of_lt_gapFrom (Nat.zero_le i) (by exact_mod_cast hhigh)

/-! ### Reasons for a refusal -/

/-- Every name in the table is that of a value which has its position as the code. -/
def TakenBy (names : List (Option String)) (values : List (String × Int)) : Prop :=
  ∀ (i : Nat) (value : String), names[i]?.join = some value → (value, (i : Int)) ∈ values

theorem TakenBy.replicate (count : Nat) : TakenBy (List.replicate count none) [] := by
  intro i value h
  by_cases hi : i < count
  · simp [hi] at h
  · simp [hi] at h

theorem TakenBy.set {names : List (Option String)} {values : List (String × Int)}
    (h : TakenBy names values) (value : String) {code : Int} (hcode : 0 ≤ code) :
    TakenBy (names.set code.toNat (some value)) (values ++ [(value, code)]) := by
  intro i other hi
  rw [List.getElem?_set] at hi
  split at hi
  · rename_i hplace
    split at hi
    · rw [Option.join_some, Option.some.injEq] at hi
      have hnew : (other, (i : Int)) = (value, code) := by
        rw [hi, ← hplace, Int.toNat_of_nonneg hcode]
      rw [hnew]
      simp
    · cases hi
  · exact List.mem_append_left _ (h i other hi)

/-- The code of the value has no place in a table of the given length. -/
def OutOfPlace (length : Nat) (code : Int) : Prop := code < 0 ∨ length ≤ code.toNat

/-- Two values have the code. -/
def Shared (values : List (String × Int)) (code : Int) : Prop :=
  ∃ value other, value ≠ other ∧ (value, code) ∈ values ∧ (other, code) ∈ values

/-- Filling stops at a value without a place in the table, or at one whose place is taken.  The
    table holds the values in front of those that remain. -/
theorem fillNames_refuses {attr : String} {rest : List (String × Int)} {e : SchemaError} :
    ∀ {names : List (Option String)} {done : List (String × Int)}, TakenBy names done →
      ((done ++ rest).map (·.1)).Nodup → fillNames attr codes rest names = .error e →
      (e = .missingCode attr (firstGap codes) ∧
        ∃ entry ∈ rest, OutOfPlace names.length entry.2) ∨
      ∃ code, e = .duplicateCode attr code ∧ Shared (done ++ rest) code := by
  induction rest with
  | nil =>
    intro names done htaken distinct h
    cases h
  | cons entry rest ih =>
    obtain ⟨value, code⟩ := entry
    intro names done htaken distinct h
    rw [fillNames] at h
    split at h
    · rename_i hplace
      cases h
      exact .inl ⟨rfl, (value, code), by simp, hplace⟩
    · rename_i hplace
      have hlow : 0 ≤ code := by omega
      split at h
      · -- the place of the value is taken by one in front of it
        rename_i htake
        cases h
        obtain ⟨other, hother⟩ := Option.isSome_iff_exists.mp htake
        have hmem := htaken _ other hother
        rw [Int.toNat_of_nonneg hlow] at hmem
        refine .inr ⟨code, rfl, other, value, ?_, by simp [hmem], by simp⟩
        rintro rfl
        rw [List.map_append, List.nodup_append] at distinct
        exact distinct.2.2 other (List.mem_map.mpr ⟨_, hmem, rfl⟩) other (by simp) rfl
      · have hnext : done ++ (value, code) :: rest = done ++ [(value, code)] ++ rest := by simp
        rw [hnext] at distinct ⊢
        rcases ih (htaken.set value hlow) distinct h with ⟨rfl, entry, hentry, hplace⟩ | hshared
        · rw [List.length_set] at hplace
          exact .inl ⟨rfl, entry, List.mem_cons_of_mem _ hentry, hplace⟩
        · exact .inr hshared

theorem namesByCode_refuses {a : Attribute} (ha : a.WellFormed) {e : SchemaError}
    (h : namesByCode a = .error e) :
    (e = .missingCode a.name (firstGap (a.values.map (·.2))) ∧
      ∃ entry ∈ a.values, OutOfPlace a.values.length entry.2) ∨
    ∃ code, e = .duplicateCode a.name code ∧ Shared a.values code := by
  rcases bind_eq_error_iff.mp h with hfill | ⟨names, _, hok⟩
  · have hreasons := fillNames_refuses (TakenBy.replicate _) ha.names_distinct hfill
    rwa [List.length_replicate] at hreasons
  · cases hok

/-! ### Contiguous codes -/

theorem not_contiguous_of_outOfPlace {values : List (String × Int)} {entry : String × Int}
    (hentry : entry ∈ values) (hplace : OutOfPlace values.length entry.2) :
    ¬ Contiguous (values.map (·.2)) := by
  intro hcontiguous
  have hrange := hcontiguous.mem_iff.mp (List.mem_map.mpr ⟨entry, hentry, rfl⟩)
  rw [List.length_map] at hrange
  unfold OutOfPlace at hplace
  omega

theorem not_contiguous_of_shared {values : List (String × Int)} {code : Int}
    (h : Shared values code) : ¬ Contiguous (values.map (·.2)) := by
  intro hcontiguous
  obtain ⟨value, other, hne, hvalue, hother⟩ := h
  have hsame : (value, code) = (other, code) :=
    List.inj_on_of_nodup_map hcontiguous.nodup hvalue hother rfl
  exact hne (congrArg Prod.fst hsame)

/-- **There is a table of names exactly if the codes are contiguous.** -/
theorem exists_namesByCode_iff {a : Attribute} (ha : a.WellFormed) :
    (∃ names, namesByCode a = .ok names) ↔ Contiguous (a.values.map (·.2)) := by
  constructor
  · rintro ⟨names, hnames⟩
    obtain ⟨hlength, htable⟩ := namesByCode_ok hnames
    apply contiguous_of_forall_mem
    intro i hi
    rw [List.length_map, ← hlength] at hi
    have hmem := (htable names[i] i).mpr ⟨i, rfl, List.getElem?_eq_getElem hi⟩
    exact List.mem_map.mpr ⟨_, hmem, rfl⟩
  · intro hcontiguous
    rcases hnames : namesByCode a with e | names
    · rcases namesByCode_refuses ha hnames with ⟨-, entry, hentry, hplace⟩ | ⟨code, -, hshared⟩
      · exact absurd hcontiguous (not_contiguous_of_outOfPlace hentry hplace)
      · exact absurd hcontiguous (not_contiguous_of_shared hshared)
    · exact ⟨names, rfl⟩

/-! ### Finishing -/

section

variable {b : SchemaBuilder}

/-- Finishing with a name that no attribute has. -/
theorem finish_of_no_attribute {decision : String} (h : ∀ a ∈ b.attributes, a.name ≠ decision) :
    b.finish decision = .error (.missingDecision decision) := by
  refine finish_of_unknown ?_
  rw [Bool.eq_false_iff, Ne, contains_iff_mem_names, List.mem_map]
  rintro ⟨a, ha, hname⟩
  exact h a ha hname

/-- What finishing with an attribute does, by its values. -/
theorem finish_cases_of_mem (h : AttributesWellFormed b.attributes) {a : Attribute}
    (ha : a ∈ b.attributes) :
    (a.isEnumerated = false ∧ a.values = [] ∧
      b.finish a.name = .error (.decisionNotEnumerated a.name)) ∨
    a.isEnumerated = true ∧ a.values ≠ [] ∧
      ((Contiguous (a.values.map (·.2)) ∧ ∃ s, b.finish a.name = .ok s) ∨
      ¬ Contiguous (a.values.map (·.2)) ∧
        (b.finish a.name = .error (.missingCode a.name (firstGap (a.values.map (·.2)))) ∨
        ∃ code, b.finish a.name = .error (.duplicateCode a.name code) ∧ Shared a.values code)) := by
  have hwf := h.each a ha
  by_cases hvalues : a.values = []
  · have hcontinuous : a.isEnumerated = false := by
      rw [Bool.eq_false_iff]
      exact fun henumerated => hwf.enumerated_iff.mp henumerated hvalues
    exact .inl ⟨hcontinuous, hvalues, finish_of_continuous h.names_distinct ha hcontinuous⟩
  · have henumerated := hwf.enumerated_iff.mpr hvalues
    refine .inr ⟨henumerated, hvalues, ?_⟩
    rcases hnames : namesByCode a with e | names
    · have hfinish := finish_of_no_table h.names_distinct ha henumerated hvalues hnames
      rcases namesByCode_refuses hwf hnames with
        ⟨rfl, entry, hentry, hplace⟩ | ⟨code, rfl, hshared⟩
      · exact .inr ⟨not_contiguous_of_outOfPlace hentry hplace, .inl hfinish⟩
      · exact .inr ⟨not_contiguous_of_shared hshared, .inr ⟨code, hfinish, hshared⟩⟩
    · obtain ⟨s, hfinish, -⟩ := finish_of_table h.names_distinct ha henumerated hvalues hnames
      exact .inl ⟨(exists_namesByCode_iff hwf).mp ⟨names, hnames⟩, s, hfinish⟩

/-- Where names are distinct, what holds of some attribute of a name holds of the one that has
    it. -/
theorem exists_named_iff (distinct : (b.attributes.map (·.name)).Nodup) {a : Attribute}
    (ha : a ∈ b.attributes) (p : Attribute → Prop) :
    (∃ c ∈ b.attributes, c.name = a.name ∧ p c) ↔ p a := by
  constructor
  · rintro ⟨c, hc, hname, hp⟩
    rwa [← List.inj_on_of_nodup_map distinct hc ha hname]
  · intro hp
    exact ⟨a, ha, rfl, hp⟩

end

/-- What the result of finishing says of the values of the decision attribute. -/
structure Validates (b : SchemaBuilder) (decision : String) (result : Except SchemaError Schema) :
    Prop where
  ok_iff : (∃ s, result = .ok s) ↔ ∃ a ∈ b.attributes, a.name = decision ∧
    a.isEnumerated = true ∧ Contiguous (a.values.map (·.2))
  missing_iff : result = .error (.missingDecision decision) ↔
    ¬ ∃ a ∈ b.attributes, a.name = decision
  notEnumerated_iff : result = .error (.decisionNotEnumerated decision) ↔
    ∃ a ∈ b.attributes, a.name = decision ∧ a.values = []
  missingCode : ∀ code, result = .error (.missingCode decision code) →
    ∃ a ∈ b.attributes, a.name = decision ∧
      LeastGap (a.values.map (·.2)) code ∧ code < a.values.length
  duplicateCode : ∀ code, result = .error (.duplicateCode decision code) →
    ∃ a ∈ b.attributes, a.name = decision ∧ Shared a.values code
  /-- There are no other reasons for a refusal, and each names the attribute that was asked for. -/
  error_cases : ∀ e, result = .error e → e = .missingDecision decision ∨
    e = .decisionNotEnumerated decision ∨ (∃ code, e = .missingCode decision code) ∨
      ∃ code, e = .duplicateCode decision code

theorem validates_of_no_attribute {b : SchemaBuilder} {decision : String}
    (h : ¬ ∃ a ∈ b.attributes, a.name = decision) :
    Validates b decision (.error (.missingDecision decision)) := by
  have hnone : ∀ p : Attribute → Prop, ¬ ∃ a ∈ b.attributes, a.name = decision ∧ p a :=
    fun p ⟨a, ha, hname, _⟩ => h ⟨a, ha, hname⟩
  constructor
  case ok_iff => exact iff_of_false nofun (hnone _)
  case missing_iff => exact iff_of_true rfl h
  case notEnumerated_iff => exact iff_of_false nofun (hnone _)
  case missingCode => nofun
  case duplicateCode => nofun
  case error_cases => simp

/-- **A builder is finished exactly if the codes of the decision attribute are contiguous**, and
    what a refusal says of them is true. -/
theorem validates_finish {b : SchemaBuilder} (h : b.Reachable) (decision : String) :
    Validates b decision (b.finish decision) := by
  have hwf := h.wellFormed
  by_cases hmem : ∃ a ∈ b.attributes, a.name = decision
  · obtain ⟨a, ha, rfl⟩ := hmem
    -- what is said of some attribute of the name is said of `a`
    have hnamed := exists_named_iff hwf.names_distinct ha
    have hsome : ∃ c ∈ b.attributes, c.name = a.name := ⟨a, ha, rfl⟩
    rcases finish_cases_of_mem hwf ha with ⟨henumerated, hvalues, hfinish⟩ | ⟨henumerated, hvalues,
      ⟨hcontiguous, s, hfinish⟩ | ⟨hnot, hfinish | ⟨code, hfinish, hshared⟩⟩⟩
    · rw [hfinish]
      constructor <;> simp [hnamed, hsome, henumerated, hvalues]
    · rw [hfinish]
      constructor <;> simp [hnamed, hsome, henumerated, hvalues, hcontiguous]
    · have hgap := leastGap_firstGap hnot
      have hlt : firstGap (a.values.map (·.2)) < a.values.length := by simpa using firstGap_lt hnot
      rw [hfinish]
      constructor <;> simp [hnamed, hsome, hvalues, hnot, hgap, hlt]
    · rw [hfinish]
      constructor <;> simp [hnamed, hsome, hvalues, hnot, hshared]
  · rw [finish_of_no_attribute (by simpa using hmem)]
    exact validates_of_no_attribute hmem

/-- The codes of `state` have the gap 1, and two values of `gear` have the code 1. -/
def gappedCalls : List Call :=
  [.define "state", .define "gear", .insertValue ⟨0⟩ "play" 2, .insertValue ⟨0⟩ "stop" 0,
    .insertValue ⟨1⟩ "low" 1, .insertValue ⟨1⟩ "high" 1]

theorem validates_gapped :
    (run gappedCalls).Reachable ∧
      (run gappedCalls).finish "state" = .error (.missingCode "state" 1) ∧
      Validates (run gappedCalls) "state" (.error (.missingCode "state" 1)) ∧
      (run gappedCalls).finish "gear" = .error (.duplicateCode "gear" 1) ∧
      Validates (run gappedCalls) "gear" (.error (.duplicateCode "gear" 1)) := by
  have hreachable := reachable_run gappedCalls
  have hstate : (run gappedCalls).finish "state" = .error (.missingCode "state" 1) := by decide
  have hgear : (run gappedCalls).finish "gear" = .error (.duplicateCode "gear" 1) := by decide
  exact ⟨hreachable, hstate, hstate ▸ validates_finish hreachable "state", hgear,
    hgear ▸ validates_finish hreachable "gear"⟩

end SchemaBuilder

end DecisionModel
