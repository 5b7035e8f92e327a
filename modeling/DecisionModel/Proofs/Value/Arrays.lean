import Mathlib.Data.Set.List
import DecisionModel.Proofs.Lists
import DecisionModel.Value.Array

/-!
# What arrays are made of

An array is made from values that all are scalars of its element type.  Making one is refused
for an element type that arrays cannot have, and else for the first value that is no scalar of
the element type.

That arrays are flat is a matter of how values are made, and not of what they could be.  So
values are looked at without any guarantee: a raw array names an element type and holds any
values, masks and arrays included.  Whatever is made of raw values, in any number of steps, is
one of the values, and the arrays that occur in it hold scalars of their element type.

A search compares types before it compares values.  Equal values have the same type, so that
this only saves time.
-/

namespace DecisionModel

variable {elem : ValueType}

theorem ValueType.isBasic_iff {type : ValueType} : type.isBasic = true ↔ type ≠ .bitmask := by
  cases type <;> simp [isBasic]

/-! ### Equality and types -/

/-- **Equal values have the same type**, be they scalars, masks or arrays. -/
theorem Value.tag_eq_of_same {u v : Value} (h : u.same v = true) : u.tag = v.tag := by
  match u, v with
  | .scalar _, .scalar _ => exact congrArg TypeTag.scalar (Scalar.type_eq_of_same h)
  | .mask _, .mask _ => rfl
  | .array a, .array b =>
    obtain ⟨helem, -⟩ := Bool.and_eq_true_iff.mp h
    exact congrArg TypeTag.array (eq_of_beq helem)

namespace ValueArray

/-- **A value is found exactly if an element equals it**, whatever its type. -/
theorem contains_iff {a : ValueArray} {v : Value} :
    a.contains v = true ↔ ∃ item ∈ a.items, (Value.scalar item).same v = true := by
  rw [contains, Bool.and_eq_true, List.any_eq_true]
  constructor
  · exact And.right
  · intro hfound
    refine ⟨?_, hfound⟩
    obtain ⟨item, hitem, hsame⟩ := hfound
    have htag : v.tag = .scalar item.type := (Value.tag_eq_of_same hsame).symm
    rw [htag, a.typed item hitem]
    exact BEq.rfl

example : ((ValueArray.ofValues .floating [.floating .nan, .floating (.zero true)]).map fun a =>
    [Value.floating .nan, .floating (.zero false), .integer 0].map a.contains) =
      .ok [false, true, false] := by
  decide

end ValueArray

/-! ### Making arrays -/

/-- The value is a scalar of the type. -/
def Value.IsOf (elem : ValueType) (v : Value) : Prop :=
  ∃ s : Scalar, v = .scalar s ∧ s.type = elem

theorem scalarsOf_cons_of_isOf {s : Scalar} (h : s.type = elem) (rest : List Value) :
    scalarsOf elem (.scalar s :: rest) =
      (scalarsOf elem rest).map fun found => ⟨s :: found.1, by simpa [h] using found.2⟩ := by
  rw [scalarsOf, dif_pos h]
  rcases scalarsOf elem rest with bad | ⟨items, typed⟩
  · rfl
  · rfl

theorem scalarsOf_cons_of_not_isOf {v : Value} (h : ¬ v.IsOf elem) (rest : List Value) :
    scalarsOf elem (v :: rest) = .error v := by
  match v with
  | .scalar s =>
    have htype : s.type ≠ elem := fun htype => h ⟨s, rfl, htype⟩
    rw [scalarsOf, dif_neg htype]
  | .mask _ => rfl
  | .array _ => rfl

theorem scalarsOf_map_scalar {items : List Scalar} (typed : ∀ item ∈ items, item.type = elem) :
    scalarsOf elem (items.map .scalar) = .ok ⟨items, typed⟩ := by
  induction items with
  | nil => rfl
  | cons s rest ih =>
    obtain ⟨hs, hrest⟩ := List.forall_mem_cons.mp typed
    rw [List.map_cons, scalarsOf_cons_of_isOf hs, ih hrest]
    rfl

theorem map_scalar_of_scalarsOf {values : List Value}
    {found : { items : List Scalar // ∀ item ∈ items, item.type = elem }}
    (h : scalarsOf elem values = .ok found) : found.1.map .scalar = values := by
  induction values generalizing found with
  | nil =>
    cases h
    rfl
  | cons v rest ih =>
    by_cases hv : v.IsOf elem
    · obtain ⟨s, rfl, htype⟩ := hv
      rw [scalarsOf_cons_of_isOf htype] at h
      obtain ⟨behind, hrest, rfl⟩ := map_eq_ok_iff.mp h
      rw [List.map_cons, ih hrest]
    · rw [scalarsOf_cons_of_not_isOf hv] at h
      cases h

/-- The first value that is no scalar of the type is what is wrong with a list of values. -/
theorem scalarsOf_eq_error_iff {values : List Value} {bad : Value} :
    scalarsOf elem values = .error bad ↔
      ∃ before v after, values = before ++ v :: after ∧ (∀ v ∈ before, v.IsOf elem) ∧
        (¬ v.IsOf elem ∧ v = bad) := by
  induction values with
  | nil => exact iff_of_false nofun (by simp)
  | cons v rest ih =>
    rw [exists_first_cons_iff, ← ih]
    by_cases hv : v.IsOf elem
    · obtain ⟨s, rfl, htype⟩ := hv
      rw [scalarsOf_cons_of_isOf htype, map_eq_error_iff]
      simp [Value.IsOf, htype]
    · rw [scalarsOf_cons_of_not_isOf hv]
      simp [hv]

namespace ValueArray

/-- Why no array is made: its element type is none that arrays can have, or one of the values,
    the first such, is no scalar of the element type. -/
inductive Refused (elem : ValueType) (values : List Value) : ValueError → Prop
  | type : elem = .bitmask → Refused elem values (.invalidElementType elem)
  | item {before after : List Value} {bad : Value} : elem ≠ .bitmask →
      values = before ++ bad :: after → (∀ v ∈ before, v.IsOf elem) → ¬ bad.IsOf elem →
      Refused elem values (.elementTypeMismatch elem bad.tag)

variable {values : List Value}

theorem ofValues_bitmask (values : List Value) :
    ofValues .bitmask values = .error (.invalidElementType .bitmask) := rfl

theorem ofValues_of_error (basic : elem ≠ .bitmask) {bad : Value}
    (h : scalarsOf elem values = .error bad) :
    ofValues elem values = .error (.elementTypeMismatch elem bad.tag) := by
  rw [ofValues, dif_pos (ValueType.isBasic_iff.mpr basic), h]

theorem ofValues_of_ok (basic : elem.isBasic = true)
    {found : { items : List Scalar // ∀ item ∈ items, item.type = elem }}
    (h : scalarsOf elem values = .ok found) :
    ofValues elem values = .ok ⟨elem, found.1, basic, found.2⟩ := by
  rw [ofValues, dif_pos basic, h]

/-- **An array is made of exactly its elements.** -/
theorem ofValues_eq_ok_iff {a : ValueArray} :
    ofValues elem values = .ok a ↔ a.elem = elem ∧ a.items.map .scalar = values := by
  constructor
  · intro h
    by_cases hbitmask : elem = .bitmask
    · rw [hbitmask, ofValues_bitmask] at h
      cases h
    · rcases hfound : scalarsOf elem values with bad | found
      · rw [ofValues_of_error hbitmask hfound] at h
        cases h
      · rw [ofValues_of_ok (ValueType.isBasic_iff.mpr hbitmask) hfound] at h
        cases h
        exact ⟨rfl, map_scalar_of_scalarsOf hfound⟩
  · rintro ⟨rfl, rfl⟩
    exact ofValues_of_ok a.basic (scalarsOf_map_scalar a.typed)

/-- **Making an array is refused** for its type or for the first value that does not fit. -/
theorem ofValues_eq_error_iff {e : ValueError} :
    ofValues elem values = .error e ↔ Refused elem values e := by
  constructor
  · intro h
    by_cases hbitmask : elem = .bitmask
    · rw [hbitmask, ofValues_bitmask] at h
      cases h
      rw [← hbitmask]
      exact .type hbitmask
    · rcases hfound : scalarsOf elem values with bad | found
      · rw [ofValues_of_error hbitmask hfound] at h
        cases h
        obtain ⟨before, v, after, hsplit, hbefore, hv, rfl⟩ := scalarsOf_eq_error_iff.mp hfound
        exact .item hbitmask hsplit hbefore hv
      · rw [ofValues_of_ok (ValueType.isBasic_iff.mpr hbitmask) hfound] at h
        cases h
  · intro h
    cases h with
    | type hbitmask =>
      rw [hbitmask]
      exact ofValues_bitmask values
    | @item before after bad hbasic hsplit hbefore hbad =>
      apply ofValues_of_error hbasic
      exact scalarsOf_eq_error_iff.mpr ⟨before, bad, after, hsplit, hbefore, hbad, rfl⟩

theorem exists_ofValues_iff :
    (∃ a, ofValues elem values = .ok a) ↔ elem ≠ .bitmask ∧ ∀ v ∈ values, v.IsOf elem := by
  constructor
  · rintro ⟨a, h⟩
    obtain ⟨rfl, rfl⟩ := ofValues_eq_ok_iff.mp h
    refine ⟨ValueType.isBasic_iff.mp a.basic, ?_⟩
    intro v hv
    obtain ⟨item, hitem, rfl⟩ := List.mem_map.mp hv
    exact ⟨item, rfl, a.typed item hitem⟩
  · rintro ⟨hbasic, hvalues⟩
    rcases hmade : ofValues elem values with e | a
    · exfalso
      cases ofValues_eq_error_iff.mp hmade with
      | type hbitmask => exact hbasic hbitmask
      | item _ hsplit _ hbad => exact hbad (hvalues _ (by simp [hsplit]))
    · exact ⟨a, rfl⟩

/-- Integers need no check. -/
theorem ofValues_integers (codes : List Int) :
    ofValues .integer (codes.map .integer) = .ok (ofIntegers codes) := by
  apply ofValues_eq_ok_iff.mpr
  exact ⟨rfl, by rw [ofIntegers, List.map_map]; rfl⟩

end ValueArray

/-! ### Raw values -/

/-- A value without guarantees: an array names an element type, and holds any values. -/
inductive RawValue where
  | scalar (s : Scalar)
  | mask (m : Bitmask)
  | array (elem : ValueType) (items : List RawValue)

namespace RawValue

def tag : RawValue → TypeTag
  | .scalar s => .scalar s.type
  | .mask _ => .scalar .bitmask
  | .array elem _ => .array elem

/-- The raw array, if arrays can have the element type and all items have it. -/
def checkedArray (elem : ValueType) (items : List RawValue) : Except ValueError RawValue :=
  if elem.isBasic then
    match items.find? (·.tag != .scalar elem) with
    | some bad => .error (.elementTypeMismatch elem bad.tag)
    | none => .ok (.array elem items)
  else .error (.invalidElementType elem)

/-- The raw array of codes, which are not checked. -/
def codeArray (codes : List Int) : RawValue :=
  .array .integer (codes.map fun n => .scalar (.integer n))

/-- The ways to make values: from what is no array, from made values after a check, and from
    codes without one. -/
inductive Constructed : RawValue → Prop
  | scalar (s : Scalar) : Constructed (.scalar s)
  | mask (m : Bitmask) : Constructed (.mask m)
  | checkedArray {elem : ValueType} {items : List RawValue} {made : RawValue} :
      (∀ item ∈ items, Constructed item) → checkedArray elem items = .ok made → Constructed made
  | codeArray (codes : List Int) : Constructed (codeArray codes)

/-- One raw value stands in another, at any depth. -/
inductive OccursIn (part : RawValue) : RawValue → Prop
  | self : OccursIn part part
  | item {elem : ValueType} {items : List RawValue} {item : RawValue} : item ∈ items →
      OccursIn part item → OccursIn part (.array elem items)

end RawValue

/-- The value without its guarantees. -/
def Value.raw : Value → RawValue
  | .scalar s => .scalar s
  | .mask m => .mask m
  | .array a => .array a.elem (a.items.map .scalar)

/-- With a type that elements can have, a tag tells the scalars of the type. -/
theorem Value.tag_eq_scalar_iff {v : Value} (basic : elem ≠ .bitmask) :
    v.tag = .scalar elem ↔ v.IsOf elem := by
  match v with
  | .scalar s => simp [tag, type, TypeTag.scalar, IsOf]
  | .mask m => simp [tag, type, TypeTag.scalar, IsOf, basic.symm]
  | .array a => simp [tag, TypeTag.scalar, TypeTag.array, IsOf]

namespace RawValue

theorem tag_raw (v : Value) : v.raw.tag = v.tag := by
  match v with
  | .scalar _ => rfl
  | .mask _ => rfl
  | .array _ => rfl

/-- The raw array of an array has the elements that it was made from. -/
theorem raw_of_ofValues {values : List Value} {a : ValueArray}
    (h : ValueArray.ofValues elem values = .ok a) :
    (Value.array a).raw = .array elem (values.map Value.raw) := by
  obtain ⟨rfl, rfl⟩ := ValueArray.ofValues_eq_ok_iff.mp h
  rw [List.map_map]
  rfl

/-- **Making an array of values** is making the raw array of them. -/
theorem checkedArray_raw (elem : ValueType) (values : List Value) :
    checkedArray elem (values.map Value.raw) =
      (ValueArray.ofValues elem values).map fun a => (Value.array a).raw := by
  -- the values have the tags of the raw values, and a tag tells whether a value fits
  have hfind : (values.map Value.raw).find? (·.tag != .scalar elem) =
      (values.find? (·.tag != .scalar elem)).map Value.raw := by
    rw [List.find?_map]
    simp only [Function.comp_def, tag_raw]
  rcases hmade : ValueArray.ofValues elem values with e | a
  · cases ValueArray.ofValues_eq_error_iff.mp hmade with
    | type hbitmask =>
      rw [hbitmask]
      rfl
    | @item before after bad basic hsplit hbefore hbad =>
      have hfirst : values.find? (·.tag != .scalar elem) = some bad := by
        rw [List.find?_eq_some_iff_append]
        simp only [bne_iff_ne, ne_eq, Bool.not_eq_true', bne_eq_false_iff_eq,
          Value.tag_eq_scalar_iff basic]
        exact ⟨hbad, before, after, hsplit, hbefore⟩
      rw [checkedArray, if_pos (ValueType.isBasic_iff.mpr basic), hfind, hfirst]
      change Except.error (ValueError.elementTypeMismatch elem bad.raw.tag) = _
      rw [tag_raw]
      rfl
  · obtain ⟨basic, hvalues⟩ := ValueArray.exists_ofValues_iff.mp ⟨a, hmade⟩
    have hnone : values.find? (·.tag != .scalar elem) = none := by
      rw [List.find?_eq_none]
      intro v hv
      simpa [Value.tag_eq_scalar_iff basic] using hvalues v hv
    rw [checkedArray, if_pos (ValueType.isBasic_iff.mpr basic), hfind, hnone]
    exact congrArg Except.ok (raw_of_ofValues hmade).symm

/-- What is made of values is a value, step after step. -/
theorem Constructed.exists_value {made : RawValue} (h : made.Constructed) :
    ∃ v : Value, v.raw = made := by
  induction h with
  | scalar s => exact ⟨.scalar s, rfl⟩
  | mask m => exact ⟨.mask m, rfl⟩
  | @checkedArray elem items made _ hmade ih =>
    -- the items are values, so that this is making an array of them, which gives a value
    have hitems : items ∈ Set.range (List.map Value.raw) := by
      rw [Set.range_list_map]
      exact ih
    obtain ⟨values, rfl⟩ := hitems
    rw [checkedArray_raw] at hmade
    obtain ⟨a, -, rfl⟩ := map_eq_ok_iff.mp hmade
    exact ⟨.array a, rfl⟩
  | codeArray codes =>
    refine ⟨.array (.ofIntegers codes), ?_⟩
    rw [raw_of_ofValues (ValueArray.ofValues_integers codes), List.map_map]
    rfl

theorem constructed_raw (v : Value) : v.raw.Constructed := by
  match v with
  | .scalar s => exact .scalar s
  | .mask m => exact .mask m
  | .array a =>
    have hmade : ValueArray.ofValues a.elem (a.items.map .scalar) = .ok a :=
      ValueArray.ofValues_eq_ok_iff.mpr ⟨rfl, rfl⟩
    have hraw : checkedArray a.elem ((a.items.map Value.scalar).map Value.raw) =
        .ok (Value.array a).raw := by
      rw [checkedArray_raw, hmade]
      rfl
    refine .checkedArray ?_ hraw
    intro item hitem
    rw [List.map_map] at hitem
    obtain ⟨s, -, rfl⟩ := List.mem_map.mp hitem
    exact .scalar s

/-- The raw values that can be made are those of the values. -/
theorem constructed_iff {made : RawValue} : made.Constructed ↔ ∃ v : Value, v.raw = made := by
  constructor
  · exact Constructed.exists_value
  · rintro ⟨v, rfl⟩
    exact constructed_raw v

/-- The only array in a value is the value itself. -/
theorem occursIn_raw {v : Value} {items : List RawValue} (h : OccursIn (.array elem items) v.raw) :
    ∃ a : ValueArray, v = .array a ∧ elem = a.elem ∧ items = a.items.map .scalar := by
  match v with
  | .scalar _ => cases h
  | .mask _ => cases h
  | .array a =>
    cases h with
    | self => exact ⟨a, rfl, rfl, rfl⟩
    | item hitem hin =>
      obtain ⟨s, -, rfl⟩ := List.mem_map.mp hitem
      cases hin

/-- **No array holds a mask or an array**, wherever in a made value it stands. -/
theorem Constructed.flat {made : RawValue} (h : made.Constructed) {items : List RawValue}
    (hin : OccursIn (.array elem items) made) :
    ∀ item ∈ items, ∃ s : Scalar, item = .scalar s ∧ s.type = elem := by
  obtain ⟨v, rfl⟩ := h.exists_value
  obtain ⟨a, -, rfl, rfl⟩ := occursIn_raw hin
  intro item hitem
  obtain ⟨s, hs, rfl⟩ := List.mem_map.mp hitem
  exact ⟨s, rfl, a.typed s hs⟩

end RawValue

/-! ### Arrays -/

/-- **Arrays are homogeneous, flat, and searched for what they hold.**  An array is made of
    scalars of an element type that is not `bitmask`, and holds just these; if there is anything
    else, the element type is named, or the type of the first value that is no such scalar.
    Codes make the array that a check would have made.

    Without the guarantees that types give, the same arrays are made and the same are refused.
    What can be made so is the values, and all arrays that occur in it hold scalars of their
    element type only.

    Whatever is sought, it is found in an array exactly if it equals an element. -/
theorem arrays_hold_scalars_of_one_type (elem : ValueType) (values : List Value) :
    ((∃ a, ValueArray.ofValues elem values = .ok a) ↔
      elem ≠ .bitmask ∧ ∀ v ∈ values, v.IsOf elem) ∧
    (∀ a, ValueArray.ofValues elem values = .ok a ↔
      a.elem = elem ∧ a.items.map .scalar = values) ∧
    (∀ e, ValueArray.ofValues elem values = .error e ↔ ValueArray.Refused elem values e) ∧
    (∀ codes, ValueArray.ofValues .integer (codes.map .integer) = .ok (.ofIntegers codes)) ∧
    RawValue.checkedArray elem (values.map Value.raw) =
      (ValueArray.ofValues elem values).map (fun a => (Value.array a).raw) ∧
    (∀ made : RawValue, made.Constructed ↔ ∃ v : Value, v.raw = made) ∧
    (∀ made : RawValue, made.Constructed → ∀ type items,
      RawValue.OccursIn (.array type items) made →
        ∀ item ∈ items, ∃ s : Scalar, item = .scalar s ∧ s.type = type) ∧
    ∀ (a : ValueArray) (v : Value),
      a.contains v = true ↔ ∃ item ∈ a.items, (Value.scalar item).same v = true := by
  refine ⟨ValueArray.exists_ofValues_iff, ?_, ?_, ValueArray.ofValues_integers,
    RawValue.checkedArray_raw elem values, ?_, ?_, ?_⟩
  · intro a
    exact ValueArray.ofValues_eq_ok_iff
  · intro e
    exact ValueArray.ofValues_eq_error_iff
  · intro made
    exact RawValue.constructed_iff
  · intro made hmade type items hin
    exact hmade.flat hin
  · intro a v
    exact ValueArray.contains_iff

/-- An array among integers is what is wrong with them, though a mask follows; and an array that
    is made of codes holds integers. -/
theorem arrays_of_mixed_values_and_of_codes :
    ValueArray.Refused .integer [.integer 1, .array (.ofIntegers [2]), .mask ⟨5⟩]
      (.elementTypeMismatch .integer (.array .integer)) ∧
    (RawValue.codeArray [2, 3]).Constructed ∧
    ∀ item ∈ [RawValue.scalar (.integer 2), .scalar (.integer 3)],
      ∃ s : Scalar, item = .scalar s ∧ s.type = .integer := by
  have hmade : (RawValue.codeArray [2, 3]).Constructed := .codeArray [2, 3]
  obtain ⟨-, -, hrefused, -, -, -, hflat, -⟩ := arrays_hold_scalars_of_one_type .integer
    [.integer 1, .array (.ofIntegers [2]), .mask ⟨5⟩]
  exact ⟨(hrefused _).mp rfl, hmade, hflat _ hmade _ _ .self⟩

end DecisionModel
