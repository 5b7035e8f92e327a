import Mathlib.Data.List.Induction
import Mathlib.Data.List.Nodup

/-!
# Lists with keys, and folds that may fail

Schemas keep their attributes, and attributes their values, as lists in which no two entries
have the same name.  Looking a name up in such a list finds the one entry that has it.

Readers are folds of a step that may fail.  What each step that succeeds preserves, a fold
that succeeds preserves.
-/

namespace DecisionModel

variable {α β γ κ ε : Type}

/-! ### Keys -/

/-- Where keys are distinct, looking a key up finds exactly the entry that has it. -/
theorem find?_key_eq_some_iff [BEq κ] [LawfulBEq κ] {key : α → κ} {entries : List α}
    (distinct : (entries.map key).Nodup) {k : κ} {entry : α} :
    entries.find? (key · == k) = some entry ↔ entry ∈ entries ∧ key entry = k := by
  constructor
  · intro hfind
    exact ⟨List.mem_of_find?_eq_some hfind, by simpa using List.find?_some hfind⟩
  · rintro ⟨hmem, rfl⟩
    obtain ⟨found, hfound⟩ : ∃ found, entries.find? (key · == key entry) = some found := by
      rw [← Option.isSome_iff_exists, List.find?_isSome]
      exact ⟨entry, hmem, by simp⟩
    have hkey : key found = key entry := by simpa using List.find?_some hfound
    have hsame : found = entry :=
      List.inj_on_of_nodup_map distinct (List.mem_of_find?_eq_some hfound) hmem hkey
    rw [hfound, hsame]

/-- Where keys are distinct, a key has exactly the value that is listed beside it. -/
theorem lookup_eq_some_iff_mem [BEq κ] [LawfulBEq κ] {entries : List (κ × β)}
    (distinct : (entries.map (·.1)).Nodup) {k : κ} {v : β} :
    entries.lookup k = some v ↔ (k, v) ∈ entries := by
  induction entries with
  | nil => simp
  | cons entry rest ih =>
    obtain ⟨k', v'⟩ := entry
    simp only [List.map_cons, List.nodup_cons, List.mem_map, not_exists, not_and] at distinct
    obtain ⟨hfresh, hrest⟩ := distinct
    by_cases hk : k = k'
    · subst hk
      have hnot : (k, v) ∉ rest := fun hmem => hfresh (k, v) hmem rfl
      simp [hnot, eq_comm]
    · have hbeq : (k == k') = false := by simpa using hk
      simp [List.lookup_cons, hbeq, hk, ih hrest]

theorem lookup_eq_none_iff_notMem [BEq κ] [LawfulBEq κ] {entries : List (κ × β)} {k : κ} :
    entries.lookup k = none ↔ k ∉ entries.map (·.1) := by
  rw [List.lookup_eq_none_iff]
  constructor
  · intro hne hmem
    obtain ⟨entry, hentry, rfl⟩ := List.mem_map.mp hmem
    simpa using hne entry hentry
  · intro hmem entry hentry
    have hne : k ≠ entry.1 := fun heq => hmem (List.mem_map.mpr ⟨entry, hentry, heq.symm⟩)
    simpa using hne

/-- Where keys are distinct, the order of entries makes no difference to what is found. -/
theorem lookup_eq_of_perm [BEq κ] [LawfulBEq κ] {entries others : List (κ × β)}
    (hperm : others.Perm entries) (distinct : (entries.map (·.1)).Nodup) (k : κ) :
    others.lookup k = entries.lookup k := by
  have hothers : (others.map (·.1)).Nodup := (hperm.map _).nodup_iff.mpr distinct
  ext v
  rw [lookup_eq_some_iff_mem hothers, lookup_eq_some_iff_mem distinct, hperm.mem_iff]

theorem mem_of_lookup_eq_some [BEq κ] [LawfulBEq κ] {entries : List (κ × β)} {k : κ} {v : β}
    (h : entries.lookup k = some v) : (k, v) ∈ entries := by
  obtain ⟨before, after, rfl, -⟩ := List.lookup_eq_some_iff.mp h
  simp

theorem modify_length_append_singleton (before : List α) (a : α) (f : α → α) :
    (before ++ [a]).modify before.length f = before ++ [f a] := by
  induction before with
  | nil => rfl
  | cons b rest ih => simp [ih]

theorem intercalate_cons (sep x : List α) (xs : List (List α)) :
    sep.intercalate (x :: xs) = x ++ xs.flatMap (sep ++ ·) := by
  induction xs generalizing x with
  | nil => simp
  | cons y rest ih =>
    rw [List.intercalate_cons_cons, ih]
    simp

/-- The first of a kind is in front, or it is so behind what is in front. -/
theorem exists_first_cons_iff {P Q : α → Prop} {a : α} {as : List α} :
    (∃ before x after, a :: as = before ++ x :: after ∧ (∀ b ∈ before, P b) ∧ Q x) ↔
      Q a ∨ P a ∧ ∃ before x after, as = before ++ x :: after ∧
        (∀ b ∈ before, P b) ∧ Q x := by
  constructor
  · rintro ⟨before, x, after, hsplit, hbefore, hx⟩
    rcases List.cons_eq_append_iff.mp hsplit with ⟨rfl, hhead⟩ | ⟨before, rfl, hrest⟩
    · cases hhead
      exact .inl hx
    · obtain ⟨hfirst, hbefore⟩ := List.forall_mem_cons.mp hbefore
      exact .inr ⟨hfirst, before, x, after, hrest, hbefore, hx⟩
  · rintro (hfirst | ⟨hfirst, before, x, after, rfl, hbefore, hx⟩)
    · exact ⟨[], a, as, rfl, List.forall_mem_nil _, hfirst⟩
    · exact ⟨a :: before, x, after, rfl, List.forall_mem_cons.mpr ⟨hfirst, hbefore⟩, hx⟩

/-! ### Folds -/

theorem ok_bind (a : α) (f : α → Except ε β) : ((.ok a : Except ε α) >>= f) = f a := rfl

theorem error_bind (e : ε) (f : α → Except ε β) : ((.error e : Except ε α) >>= f) = .error e := rfl

theorem bind_eq_ok_iff {x : Except ε α} {f : α → Except ε β} {b : β} :
    (x >>= f) = .ok b ↔ ∃ a, x = .ok a ∧ f a = .ok b := by
  rcases x with e | a
  · simp [bind, Except.bind]
  · simp [bind, Except.bind]

theorem bind_eq_error_iff {x : Except ε α} {f : α → Except ε β} {e : ε} :
    (x >>= f) = .error e ↔ x = .error e ∨ ∃ a, x = .ok a ∧ f a = .error e := by
  rcases x with e' | a
  · simp [bind, Except.bind]
  · simp [bind, Except.bind]

theorem mapError_eq_error_iff {x : Except ε α} {f : ε → γ} {e : γ} :
    x.mapError f = .error e ↔ ∃ e', x = .error e' ∧ f e' = e := by
  rcases x with e' | a
  · simp [Except.mapError]
  · simp [Except.mapError]

theorem map_eq_ok_iff {x : Except ε α} {f : α → β} {b : β} :
    x.map f = .ok b ↔ ∃ a, x = .ok a ∧ f a = b := by
  rcases x with e | a
  · simp [Except.map]
  · simp [Except.map]

theorem map_eq_error_iff {x : Except ε α} {f : α → β} {e : ε} :
    x.map f = .error e ↔ x = .error e := by
  rcases x with e' | a
  · simp [Except.map]
  · simp [Except.map]

theorem mapError_eq_ok_iff {x : Except ε α} {f : ε → γ} {a : α} :
    x.mapError f = .ok a ↔ x = .ok a := by
  rcases x with e | a'
  · simp [Except.mapError]
  · simp [Except.mapError]

theorem except_map_bind (x : Except ε α) (f : α → Except ε β) (g : β → γ) :
    (x >>= f).map g = x >>= fun a => (f a).map g := by
  rcases x with e | a
  · rfl
  · rfl

theorem except_bind_map (x : Except ε α) (f : α → β) (g : β → Except ε γ) :
    (x.map f >>= g) = x >>= fun a => g (f a) := by
  rcases x with e | a
  · rfl
  · rfl

theorem foldlM_append_ok {step : β → α → Except ε β} {s t : β} {xs ys : List α}
    (h : xs.foldlM step s = .ok t) : (xs ++ ys).foldlM step s = ys.foldlM step t := by
  rw [List.foldlM_append, h]
  rfl

theorem foldlM_cons_ok {step : β → α → Except ε β} {s t : β} {x : α} {xs : List α}
    (h : step s x = .ok t) : (x :: xs).foldlM step s = xs.foldlM step t := by
  rw [List.foldlM_cons, h]
  rfl

/-- **What every step preserves, a run preserves.** -/
theorem foldlM_invariant {step : β → α → Except ε β} {inv : β → Prop} {xs : List α}
    (preserved : ∀ s x t, x ∈ xs → inv s → step s x = .ok t → inv t) {s t : β} (start : inv s)
    (run : xs.foldlM step s = .ok t) : inv t := by
  induction xs generalizing s with
  | nil =>
    cases run
    exact start
  | cons x rest ih =>
    rw [List.foldlM_cons] at run
    obtain ⟨next, hstep, run⟩ := bind_eq_ok_iff.mp run
    have hnext : inv next := preserved s x next (by simp) start hstep
    exact ih (fun s y t hy => preserved s y t (by simp [hy])) hnext run

theorem exists_of_foldlM_append_ok {step : β → α → Except ε β} {s t : β} {xs ys : List α}
    (h : (xs ++ ys).foldlM step s = .ok t) :
    ∃ middle, xs.foldlM step s = .ok middle ∧ ys.foldlM step middle = .ok t := by
  rw [List.foldlM_append] at h
  exact bind_eq_ok_iff.mp h

/-- **What every step keeps of a state and of what was read up to it, a run keeps.** -/
theorem foldlM_history {step : β → α → Except ε β} {inv : β → List α → Prop} {s : β}
    (start : inv s []) (keeps : ∀ t read x next, inv t read → step t x = .ok next →
      inv next (read ++ [x])) {xs : List α} {t : β} (run : xs.foldlM step s = .ok t) : inv t xs := by
  induction xs using List.reverseRecOn generalizing t with
  | nil =>
    cases run
    exact start
  | append_singleton before x ih =>
    obtain ⟨middle, hbefore, hlast⟩ := exists_of_foldlM_append_ok run
    obtain ⟨next, hstep, hnil⟩ := bind_eq_ok_iff.mp hlast
    cases hnil
    exact keeps middle before x _ (ih hbefore) hstep

/-- A fold that fails fails at an entry, in a state that all steps so far have preserved. -/
theorem exists_state_of_foldlM_error {step : β → α → Except ε β} (inv : β → Prop) {xs : List α}
    (preserved : ∀ s x t, x ∈ xs → inv s → step s x = .ok t → inv t) {s : β} (start : inv s)
    {e : ε} (run : xs.foldlM step s = .error e) : ∃ t, ∃ x ∈ xs, inv t ∧ step t x = .error e := by
  induction xs generalizing s with
  | nil => cases run
  | cons x rest ih =>
    rcases hstep : step s x with e' | next
    · have he : e' = e := by
        rw [List.foldlM_cons, hstep] at run
        cases run
        rfl
      exact ⟨s, x, by simp, start, by rw [hstep, he]⟩
    · rw [foldlM_cons_ok hstep] at run
      have hnext : inv next := preserved s x next (by simp) start hstep
      obtain ⟨t, y, hy, ht, hfails⟩ := ih (fun s y t hy => preserved s y t (by simp [hy])) hnext run
      exact ⟨t, y, by simp [hy], ht, hfails⟩

/-- A fold that fails has run up to the entry at which it fails. -/
theorem exists_run_of_foldlM_error {step : β → α → Except ε β} {s : β} {xs : List α} {e : ε}
    (run : xs.foldlM step s = .error e) :
    ∃ before x after t, xs = before ++ x :: after ∧ before.foldlM step s = .ok t ∧
      step t x = .error e := by
  induction xs generalizing s with
  | nil => cases run
  | cons x rest ih =>
    rcases bind_eq_error_iff.mp run with hfails | ⟨next, hstep, run⟩
    · exact ⟨[], x, rest, s, rfl, rfl, hfails⟩
    · obtain ⟨before, y, after, t, rfl, hbefore, hfails⟩ := ih run
      exact ⟨x :: before, y, after, t, rfl, by rw [foldlM_cons_ok hstep, hbefore], hfails⟩

theorem exists_step_of_foldlM_error {step : β → α → Except ε β} {s : β} {xs : List α} {e : ε}
    (run : xs.foldlM step s = .error e) : ∃ t, ∃ x ∈ xs, step t x = .error e := by
  obtain ⟨t, x, hx, -, hfails⟩ := exists_state_of_foldlM_error (fun _ => True)
    (fun _ _ _ _ _ _ => trivial) trivial run
  exact ⟨t, x, hx, hfails⟩

/-- Where every step does the same to the images of states, so does a run. -/
theorem foldlM_map_state {step : β → α → Except ε β} {step' : γ → α → Except ε γ} {f : β → γ}
    (same : ∀ s x, step' (f s) x = (step s x).map f) (xs : List α) (s : β) :
    xs.foldlM step' (f s) = (xs.foldlM step s).map f := by
  induction xs generalizing s with
  | nil => rfl
  | cons x rest ih =>
    rw [List.foldlM_cons, List.foldlM_cons, same]
    rcases step s x with e | next
    · rfl
    · exact ih next

/-- What a map that succeeds returns, it has made from an entry. -/
theorem exists_mem_of_mapM_ok {f : α → Except ε β} {xs : List α} {ys : List β}
    (h : xs.mapM f = .ok ys) {y : β} (hy : y ∈ ys) : ∃ x ∈ xs, f x = .ok y := by
  induction xs generalizing ys with
  | nil =>
    cases h
    cases hy
  | cons x rest ih =>
    rw [List.mapM_cons] at h
    obtain ⟨z, hx, h⟩ := bind_eq_ok_iff.mp h
    obtain ⟨zs, hrest, h⟩ := bind_eq_ok_iff.mp h
    cases h
    rcases List.mem_cons.mp hy with rfl | hmem
    · exact ⟨x, by simp, hx⟩
    · obtain ⟨x', hx', hy'⟩ := ih hrest hmem
      exact ⟨x', by simp [hx'], hy'⟩

theorem length_eq_of_mapM_ok {f : α → Except ε β} {xs : List α} {ys : List β}
    (h : xs.mapM f = .ok ys) : ys.length = xs.length := by
  induction xs generalizing ys with
  | nil =>
    cases h
    rfl
  | cons x rest ih =>
    rw [List.mapM_cons] at h
    obtain ⟨y, -, h⟩ := bind_eq_ok_iff.mp h
    obtain ⟨zs, hzs, h⟩ := bind_eq_ok_iff.mp h
    cases h
    simp [ih hzs]

theorem mapM_cons_eq_some {f : α → Option β} {x : α} {xs : List α} {ys : List β}
    (h : (x :: xs).mapM f = some ys) :
    ∃ z zs, f x = some z ∧ xs.mapM f = some zs ∧ ys = z :: zs := by
  rw [List.mapM_cons] at h
  obtain ⟨z, hz, h⟩ := Option.bind_eq_some_iff.mp h
  obtain ⟨zs, hzs, h⟩ := Option.bind_eq_some_iff.mp h
  cases h
  exact ⟨z, zs, hz, hzs, rfl⟩

theorem exists_mapM_eq_some {f : α → Option β} {xs : List α}
    (h : ∀ x ∈ xs, ∃ y, f x = some y) : ∃ ys, xs.mapM f = some ys ∧ ys.length = xs.length := by
  induction xs with
  | nil => exact ⟨[], rfl, rfl⟩
  | cons x xs ih =>
    obtain ⟨y, hy⟩ := h x (by simp)
    obtain ⟨ys, hys, hlength⟩ := ih fun z hz => h z (by simp [hz])
    exact ⟨y :: ys, by simp [hy, hys], by simp [hlength]⟩

theorem mem_mapM_eq_some_iff {f : α → Option β} {xs : List α} {ys : List β}
    (h : xs.mapM f = some ys) {y : β} : y ∈ ys ↔ ∃ x ∈ xs, f x = some y := by
  induction xs generalizing ys with
  | nil =>
    rw [List.mapM_nil] at h
    cases h
    simp
  | cons x xs ih =>
    obtain ⟨z, zs, hz, hzs, rfl⟩ := mapM_cons_eq_some h
    rw [List.mem_cons, ih hzs, List.exists_mem_cons_iff, hz, Option.some.injEq, eq_comm]

end DecisionModel
