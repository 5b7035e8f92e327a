import DecisionModel.Evaluation
import DecisionModel.Proofs.Number.Order
import DecisionModel.Proofs.Value.Arrays

/-!
# Comparisons

A test with one of the conditions `>`, `>=`, `=`, `<=`, `<` compares numbers of one type, and it
passes exactly if the numbers are so related.  Nothing is converted: values of two types are not
compared, nor are masks and arrays, and texts only for equality.  What is no number compares
with nothing.  So of numbers of one type exactly one of `>`, `=`, `<` holds, and the other two
conditions are made up of these.

A test with the condition `in` passes for elements of an array and for codes of a mask.
-/

namespace DecisionModel

variable {options : EvalOptions} {input expected : Value} {c : Condition}

/-! ### Numbers -/

/-- The value is a number of the type. -/
inductive Value.IsNumber : Value → ValueType → ExtendedRational → Prop
  | integer (n : Int) : IsNumber (.integer n) .integer ((n : ℚ) : WithTop ℚ)
  | unsigned (n : Nat) : IsNumber (.unsigned n) .unsigned ((n : ℚ) : WithTop ℚ)
  | floating {x : Double} {a : ExtendedRational} : x.number? = some a →
      IsNumber (.floating x) .floating a

theorem Value.IsNumber.tag_eq {v : Value} {type : ValueType} {a : ExtendedRational}
    (h : v.IsNumber type a) : v.tag = .scalar type := by
  cases h <;> rfl

/-- The relation that a condition asks for; `in` asks for none. -/
def Condition.Relates : Condition → ExtendedRational → ExtendedRational → Prop
  | .gt, a, b => b < a
  | .ge, a, b => b ≤ a
  | .eq, a, b => a = b
  | .le, a, b => a ≤ b
  | .lt, a, b => a < b
  | .within, _, _ => False

section

variable {type : ValueType} {a b : ExtendedRational} {o : Ordering}

/-- **Numbers of one type** compare as they are ordered. -/
theorem Value.compare?_of_isNumber (hinput : input.IsNumber type a)
    (hexpected : expected.IsNumber type b) :
    input.compare? expected = some o ↔ o.Compares a b := by
  cases hinput with
  | integer n =>
    cases hexpected with
    | integer k =>
      rw [compares_coe_iff, Int.cast_strictMono.compares]
      exact Option.some_inj.trans compare_eq_iff_compares
  | unsigned n =>
    cases hexpected with
    | unsigned k =>
      rw [compares_coe_iff, Nat.strictMono_cast.compares]
      exact Option.some_inj.trans compare_eq_iff_compares
  | floating hx =>
    cases hexpected with
    | floating hy => exact Double.compare?_of_numbers hx hy

/-- Only numbers of one type are compared. -/
theorem Value.exists_isNumber_of_compare? (h : input.compare? expected = some o) :
    ∃ type a b, input.IsNumber type a ∧ expected.IsNumber type b := by
  unfold compare? at h
  split at h
  · exact ⟨_, _, _, .integer _, .integer _⟩
  · exact ⟨_, _, _, .unsigned _, .unsigned _⟩
  · obtain ⟨a, b, ha, hb, -⟩ := Double.compare?_eq_some_iff.mp h
    exact ⟨_, a, b, .floating ha, .floating hb⟩
  · cases h

theorem Condition.holds_iff (h : o.Compares a b) : c.holds o = true ↔ c.Relates a b := by
  cases c with
  | gt =>
    rw [holds, beq_iff_eq]
    exact h.eq_gt
  | ge =>
    rw [holds, bne_iff_ne]
    exact h.ne_lt
  | eq =>
    rw [holds, beq_iff_eq]
    exact h.eq_eq
  | le =>
    rw [holds, bne_iff_ne]
    exact h.ne_gt
  | lt =>
    rw [holds, beq_iff_eq]
    exact h.eq_lt
  | within => exact iff_of_false nofun id

/-- Of three conditions two numbers meet exactly one. -/
theorem Condition.existsUnique_relates (a b : ExtendedRational) :
    ∃! c, c ∈ [Condition.gt, .eq, .lt] ∧ c.Relates a b := by
  rcases lt_trichotomy a b with hlt | heq | hgt
  · refine ⟨.lt, ⟨by simp, hlt⟩, ?_⟩
    rintro c ⟨hc, hrelates⟩
    cases c <;> grind [Relates]
  · refine ⟨.eq, ⟨by simp, heq⟩, ?_⟩
    rintro c ⟨hc, hrelates⟩
    cases c <;> grind [Relates]
  · refine ⟨.gt, ⟨by simp, hgt⟩, ?_⟩
    rintro c ⟨hc, hrelates⟩
    cases c <;> grind [Relates]

end

namespace Test

/-! ### The five comparisons -/

theorem passes_text_iff {s : String} :
    (⟨.eq, .text s⟩ : Test).passes options input = true ↔
      ∃ t, input = .text t ∧ options.stringEquality.holds t s = true := by
  rcases input with ⟨n | n | x | t⟩ | m | a
  all_goals simp [passes]

theorem passes_iff_holds (hc : c ≠ .within) (htext : ¬ ∃ s, c = .eq ∧ expected = .text s) :
    (⟨c, expected⟩ : Test).passes options input = true ↔
      ∃ o, input.compare? expected = some o ∧ c.holds o = true := by
  unfold passes
  -- three cases are for `in`, one is for the equality of texts, and the last compares
  split
  · rename_i hwithin _
    exact absurd hwithin hc
  · rename_i hwithin _
    exact absurd hwithin hc
  · rename_i hwithin _ _
    exact absurd hwithin hc
  · rename_i s heq hexpected
    exact absurd ⟨s, heq, hexpected⟩ htext
  · rcases input.compare? expected with _ | o
    · simp
    · simp

theorem passes_iff_relates {type : ValueType} {a b : ExtendedRational}
    (hinput : input.IsNumber type a) (hexpected : expected.IsNumber type b) (hc : c ≠ .within) :
    (⟨c, expected⟩ : Test).passes options input = true ↔ c.Relates a b := by
  have htext : ¬ ∃ s, c = .eq ∧ expected = .text s := by
    rintro ⟨s, -, rfl⟩
    cases hexpected
  obtain ⟨o, hcompares⟩ : ∃ o : Ordering, o.Compares a b := ⟨cmp a b, cmp_compares a b⟩
  have hcompare : input.compare? expected = some o :=
    (Value.compare?_of_isNumber hinput hexpected).mpr hcompares
  rw [passes_iff_holds hc htext, hcompare, ← Condition.holds_iff hcompares]
  simp

/-- **What a comparison asks for:** numbers of one type that are so related, or, as an equality,
    texts that are equal in the reading of the options. -/
theorem passes_iff (hc : c ≠ .within) :
    (⟨c, expected⟩ : Test).passes options input = true ↔
      (∃ type a b, input.IsNumber type a ∧ expected.IsNumber type b ∧ c.Relates a b) ∨
        c = .eq ∧ ∃ s t, expected = .text s ∧ input = .text t ∧
          options.stringEquality.holds t s = true := by
  constructor
  · intro hpasses
    by_cases htext : ∃ s, c = .eq ∧ expected = .text s
    · obtain ⟨s, rfl, rfl⟩ := htext
      obtain ⟨t, rfl, hequal⟩ := passes_text_iff.mp hpasses
      exact .inr ⟨rfl, s, t, rfl, rfl, hequal⟩
    · obtain ⟨o, hcompare, -⟩ := (passes_iff_holds hc htext).mp hpasses
      obtain ⟨type, a, b, hinput, hexpected⟩ := Value.exists_isNumber_of_compare? hcompare
      exact .inl ⟨type, a, b, hinput, hexpected,
        (passes_iff_relates hinput hexpected hc).mp hpasses⟩
  · rintro (⟨type, a, b, hinput, hexpected, hrelates⟩ | ⟨rfl, s, t, rfl, rfl, hequal⟩)
    · exact (passes_iff_relates hinput hexpected hc).mpr hrelates
    · exact passes_text_iff.mpr ⟨t, rfl, hequal⟩

end Test

/-! ### What is not compared -/

/-- What makes a comparison fail, whatever the values are otherwise: different types, a value that
    is no scalar, texts that are to be ordered, and a `nan`. -/
inductive Condition.Refuses (c : Condition) (input expected : Value) : Prop
  | types : input.tag ≠ expected.tag → Refuses c input expected
  | mask (m : Bitmask) : input = .mask m ∨ expected = .mask m → Refuses c input expected
  | array (a : ValueArray) : input = .array a ∨ expected = .array a → Refuses c input expected
  | texts {s t : String} : c ≠ .eq → input = .text t → expected = .text s →
      Refuses c input expected
  | nan : input = .floating .nan ∨ expected = .floating .nan → Refuses c input expected

theorem Condition.Refuses.passes_eq_false (h : c.Refuses input expected) (hc : c ≠ .within)
    (options : EvalOptions) : (⟨c, expected⟩ : Test).passes options input = false := by
  rw [Bool.eq_false_iff]
  intro hpasses
  rcases (Test.passes_iff hc).mp hpasses with
    ⟨type, a, b, hinput, hexpected, -⟩ | ⟨rfl, s, t, rfl, rfl, -⟩
  · cases h with
    | types hne => exact hne (hinput.tag_eq.trans hexpected.tag_eq.symm)
    | mask m h =>
      rcases h with rfl | rfl
      · cases hinput
      · cases hexpected
    | array a h =>
      rcases h with rfl | rfl
      · cases hinput
      · cases hexpected
    | texts _ htext =>
      subst htext
      cases hinput
    | nan h =>
      rcases h with rfl | rfl
      · obtain _ | _ | hnumber := hinput
        cases hnumber
      · obtain _ | _ | hnumber := hexpected
        cases hnumber
  · cases h with
    | types hne => exact hne rfl
    | mask m h => simp at h
    | array a h => simp at h
    | texts hne => exact hne rfl
    | nan h => simp at h

/-! ### Numbers of one type -/

/-- Two integers, two unsigned values, or two doubles neither of which is `nan`. -/
inductive Value.Comparable : Value → Value → Prop
  | integers (n k : Int) : Comparable (.integer n) (.integer k)
  | unsigneds (n k : Nat) : Comparable (.unsigned n) (.unsigned k)
  | doubles {x y : Double} : x ≠ .nan → y ≠ .nan → Comparable (.floating x) (.floating y)

theorem Value.Comparable.exists_isNumber (h : input.Comparable expected) :
    ∃ type a b, input.IsNumber type a ∧ expected.IsNumber type b := by
  cases h with
  | integers n k => exact ⟨_, _, _, .integer n, .integer k⟩
  | unsigneds n k => exact ⟨_, _, _, .unsigned n, .unsigned k⟩
  | doubles hx hy =>
    obtain ⟨a, ha⟩ := Double.exists_number_iff.mpr hx
    obtain ⟨b, hb⟩ := Double.exists_number_iff.mpr hy
    exact ⟨_, a, b, .floating ha, .floating hb⟩

/-- Exactly one of `>`, `=`, `<` holds, the other two conditions are made up of these, and `>`
    becomes `<` when the values change places. -/
structure Value.Partitioned (options : EvalOptions) (input expected : Value) : Prop where
  one_of_three : ∃! c, c ∈ [Condition.gt, .eq, .lt] ∧
    (⟨c, expected⟩ : Test).passes options input = true
  ge_iff : (⟨.ge, expected⟩ : Test).passes options input = true ↔
    (⟨.gt, expected⟩ : Test).passes options input = true ∨
      (⟨.eq, expected⟩ : Test).passes options input = true
  le_iff : (⟨.le, expected⟩ : Test).passes options input = true ↔
    (⟨.lt, expected⟩ : Test).passes options input = true ∨
      (⟨.eq, expected⟩ : Test).passes options input = true
  gt_iff : (⟨.gt, expected⟩ : Test).passes options input = true ↔
    (⟨.lt, input⟩ : Test).passes options expected = true

/-- **Conditions partition the numbers of one type.** -/
theorem Value.Comparable.partitioned (h : input.Comparable expected) (options : EvalOptions) :
    Value.Partitioned options input expected := by
  obtain ⟨type, a, b, hinput, hexpected⟩ := h.exists_isNumber
  have hpasses (c : Condition) (hc : c ≠ .within) :
      (⟨c, expected⟩ : Test).passes options input = true ↔ c.Relates a b :=
    Test.passes_iff_relates hinput hexpected hc
  have hexchanged : (⟨.lt, input⟩ : Test).passes options expected = true ↔ b < a :=
    Test.passes_iff_relates hexpected hinput nofun
  constructor
  · have hone := Condition.existsUnique_relates a b
    refine (existsUnique_congr fun c => and_congr_right fun hc => hpasses c ?_).mpr hone
    rintro rfl
    simp at hc
  · rw [hpasses .ge nofun, hpasses .gt nofun, hpasses .eq nofun]
    exact le_iff_lt_or_eq.trans (or_congr_right eq_comm)
  · rw [hpasses .le nofun, hpasses .lt nofun, hpasses .eq nofun]
    exact le_iff_lt_or_eq
  · rw [hpasses .gt nofun, hexchanged]
    exact Iff.rfl

/-! ### Membership -/

/-- **What a test with `in` asks for:** an element of the array, which has the type of the input,
    or a code of the mask, signed or unsigned. -/
theorem Test.passes_within_iff :
    (⟨.within, expected⟩ : Test).passes options input = true ↔
      (∃ a : ValueArray, expected = .array a ∧ input.tag = .scalar a.elem ∧
        ∃ item ∈ a.items, (Value.scalar item).same input = true) ∨
      ∃ (m : Bitmask) (code : Int), expected = .mask m ∧ m.contains code = true ∧
        (input = .integer code ∨ ∃ n : Nat, code = n ∧ input = .unsigned n) := by
  match expected with
  | .scalar s => simp [passes]
  | .mask m =>
    rcases input with ⟨n | n | x | s⟩ | m' | a
    all_goals simp [passes, Bitmask.holds]
  | .array a =>
    have hpasses : (⟨.within, .array a⟩ : Test).passes options input = a.contains input := rfl
    rw [hpasses, ValueArray.contains_iff]
    constructor
    · rintro ⟨item, hitem, hsame⟩
      have htag : input.tag = .scalar a.elem := by
        rw [← Value.tag_eq_of_same hsame, ← a.typed item hitem]
        rfl
      exact .inl ⟨a, rfl, htag, item, hitem, hsame⟩
    · rintro (⟨a', ⟨⟩, -, hitem⟩ | ⟨_, _, ⟨⟩, _⟩)
      exact hitem

/-! ### Tests -/

/-- **Conditions partition the numbers of one type and convert nothing.**  A comparison fails for
    values of different types, for masks and arrays, for texts unless it asks for equality, and
    for a `nan`.  Of two numbers of one type exactly one of `>`, `=`, `<` holds, and the other
    conditions follow.  In all, what passes a comparison is the numbers that are so related and
    the texts that are equal in the reading of the options; and what passes a test with `in` is
    elements, which have the type that the array is for, and codes of a mask. -/
theorem comparisons_partition_numbers (options : EvalOptions) (input expected : Value) :
    (∀ c : Condition, c ≠ .within → c.Refuses input expected →
      (⟨c, expected⟩ : Test).passes options input = false) ∧
    (input.Comparable expected → Value.Partitioned options input expected) ∧
    (∀ c : Condition, c ≠ .within →
      ((⟨c, expected⟩ : Test).passes options input = true ↔
        (∃ type a b, input.IsNumber type a ∧ expected.IsNumber type b ∧ c.Relates a b) ∨
          c = .eq ∧ ∃ s t, expected = .text s ∧ input = .text t ∧
            options.stringEquality.holds t s = true)) ∧
    ((⟨.within, expected⟩ : Test).passes options input = true ↔
      (∃ a : ValueArray, expected = .array a ∧ input.tag = .scalar a.elem ∧
        ∃ item ∈ a.items, (Value.scalar item).same input = true) ∨
      ∃ (m : Bitmask) (code : Int), expected = .mask m ∧ m.contains code = true ∧
        (input = .integer code ∨ ∃ n : Nat, code = n ∧ input = .unsigned n)) := by
  refine ⟨?_, ?_, ?_, Test.passes_within_iff⟩
  · intro c hc hrefuses
    exact hrefuses.passes_eq_false hc options
  · intro h
    exact h.partitioned options
  · intro c hc
    exact Test.passes_iff hc

/-- The two zeros are one number, no `nan` equals itself, and 2 is not more than 1 if one of them
    is unsigned. -/
theorem comparisons_of_zeros_nan_and_unsigned :
    (Value.floating (.zero true)).Comparable (.floating (.zero false)) ∧
    Value.Partitioned ⟨.strict⟩ (.floating (.zero true)) (.floating (.zero false)) ∧
    Condition.eq.Refuses (.floating .nan) (.floating .nan) ∧
    (⟨.eq, .floating .nan⟩ : Test).passes ⟨.strict⟩ (.floating .nan) = false ∧
    Condition.gt.Refuses (.unsigned 2) (.integer 1) ∧
    (⟨.gt, .integer 1⟩ : Test).passes ⟨.legacy⟩ (.unsigned 2) = false := by
  have hzeros : (Value.floating (.zero true)).Comparable (.floating (.zero false)) :=
    .doubles nofun nofun
  have hnan : Condition.eq.Refuses (.floating .nan) (.floating .nan) := .nan (.inl rfl)
  have htypes : Condition.gt.Refuses (.unsigned 2) (.integer 1) := .types (by decide)
  obtain ⟨-, hpartitioned, -⟩ := comparisons_partition_numbers ⟨.strict⟩
    (.floating (.zero true)) (.floating (.zero false))
  obtain ⟨hnanFails, -⟩ := comparisons_partition_numbers ⟨.strict⟩ (.floating .nan)
    (.floating .nan)
  obtain ⟨htypesFail, -⟩ := comparisons_partition_numbers ⟨.legacy⟩ (.unsigned 2) (.integer 1)
  exact ⟨hzeros, hpartitioned hzeros, hnan, hnanFails .eq nofun hnan, htypes,
    htypesFail .gt nofun htypes⟩

end DecisionModel
