import DecisionModel.Source.Token

/-!
# The tokens of a lexer

A lexer passes over its text once, with something open that its next step goes on with.  Its
tokens stand one behind the other, and none of them is empty.  Two tokens then never start at
the same place.
-/

namespace DecisionModel

open Text

@[simp] theorem Text.byteLength_reverse (cs : List Char) :
    byteLength cs.reverse = byteLength cs := by
  induction cs with
  | nil => rfl
  | cons c rest ih => simp [ih, Nat.add_comm]

/-! ### Steps -/

/-- The function goes through a text character by character.  A step gives the tokens that end
    there, and what is open behind them; at the end of the text it is closed. -/
structure Scans {σ τ : Type} (step : Nat → Char → σ → List τ × σ) (close : σ → List τ)
    (scan : σ → Nat → List Char → List τ) : Prop where
  nil : ∀ state place, scan state place [] = close state
  cons : ∀ state place c rest, scan state place (c :: rest) =
    (step place c state).1 ++ scan (step place c state).2 (place + c.utf8Size) rest

namespace Scans

variable {σ τ : Type} {step : Nat → Char → σ → List τ × σ} {close : σ → List τ}
  {scan : σ → Nat → List Char → List τ}

/-- **What every step of a lexer keeps, all its tokens satisfy:** `inv` says what is open at the
    end of the text so far, and `p` what the tokens up to there are like. -/
theorem forall_mem (h : Scans step close scan) {offset : Nat} {inv : List Char → σ → Prop}
    {p : List Char → τ → Prop}
    (append_right : ∀ before more t, p before t → p (before ++ more) t)
    (step_keeps : ∀ before c state, inv before state →
      (∀ t ∈ (step (offset + byteLength before) c state).1, p (before ++ [c]) t) ∧
        inv (before ++ [c]) (step (offset + byteLength before) c state).2)
    (close_keeps : ∀ before state, inv before state → ∀ t ∈ close state, p before t)
    (before : List Char) {state : σ} (start : inv before state) (text : List Char) :
    ∀ t ∈ scan state (offset + byteLength before) text, p (before ++ text) t := by
  induction text generalizing before state with
  | nil =>
    intro t ht
    rw [h.nil] at ht
    rw [List.append_nil]
    exact close_keeps before state start t ht
  | cons c rest ih =>
    obtain ⟨htokens, hopen⟩ := step_keeps before c state start
    have hplace : offset + byteLength before + c.utf8Size =
        offset + byteLength (before ++ [c]) := by simp [Nat.add_assoc]
    have htext : before ++ c :: rest = before ++ [c] ++ rest := by simp
    intro t ht
    rw [h.cons, hplace, List.mem_append] at ht
    rw [htext]
    rcases ht with hnow | hlater
    · exact append_right _ rest t (htokens t hnow)
    · exact ih (before ++ [c]) hopen t hlater

/-- Characters that are only kept, last first, end no token. -/
theorem collect (h : Scans step close scan) (opened : List Char → σ) {word : List Char}
    (hstep : ∀ c ∈ word, ∀ place reversed,
      step place c (opened reversed) = ([], opened (c :: reversed)))
    (reversed : List Char) (place : Nat) (rest : List Char) :
    scan (opened reversed) place (word ++ rest) =
      scan (opened (word.reverse ++ reversed)) (place + byteLength word) rest := by
  induction word generalizing reversed place with
  | nil => rfl
  | cons c word ih =>
    obtain ⟨hc, hword⟩ := List.forall_mem_cons.mp hstep
    rw [List.cons_append, h.cons, hc place reversed, List.nil_append, ih hword, byteLength_cons,
      Nat.add_assoc, List.reverse_cons, List.append_assoc, List.singleton_append]

/-- Characters that change nothing are passed over. -/
theorem skip (h : Scans step close scan) {state : σ} {word : List Char}
    (hstep : ∀ c ∈ word, ∀ place, step place c state = ([], state)) (place : Nat)
    (rest : List Char) :
    scan state place (word ++ rest) = scan state (place + byteLength word) rest :=
  h.collect (fun _ => state) (fun c hc place _ => hstep c hc place) [] place rest

end Scans

/-! ### The order of tokens -/

namespace Token

variable {κ : Type}

/-- Tokens from one place to another, none of them empty, each behind the one before it. -/
inductive Between : Nat → List (Token κ) → Nat → Prop
  | nil {start stop : Nat} : start ≤ stop → Between start [] stop
  | cons {start stop : Nat} {t : Token κ} {ts : List (Token κ)} : start ≤ t.span.start →
      t.span.start < t.span.stop → Between t.span.stop ts stop → Between start (t :: ts) stop

namespace Between

variable {start middle stop : Nat} {ts us : List (Token κ)}

theorem le (h : Between start ts stop) : start ≤ stop := by
  induction h with
  | nil hle => exact hle
  | cons hstart hspan _ ih => omega

/-- Places in front do not matter. -/
theorem weaken {start' : Nat} (h : Between start ts stop) (hle : start' ≤ start) :
    Between start' ts stop := by
  cases h with
  | nil hstop => exact .nil (Nat.le_trans hle hstop)
  | cons hstart hspan hrest => exact .cons (Nat.le_trans hle hstart) hspan hrest

theorem append (h : Between start ts middle) (h' : Between middle us stop) :
    Between start (ts ++ us) stop := by
  induction h with
  | nil hle => exact h'.weaken hle
  | cons hstart hspan _ ih => exact .cons hstart hspan (ih h')

/-- Some of the tokens are between the places too. -/
theorem sublist (h : Between start ts stop) (hsub : us.Sublist ts) : Between start us stop := by
  induction hsub generalizing start with
  | slnil => exact h
  | cons t _ ih =>
    obtain _ | ⟨hstart, hspan, hrest⟩ := h
    exact (ih hrest).weaken (by omega)
  | cons_cons t _ ih =>
    obtain _ | ⟨hstart, hspan, hrest⟩ := h
    exact .cons hstart hspan (ih hrest)

/-- A piece of text is a token between its places. -/
theorem ofChars (kind : κ) {cs : List Char} (hcs : cs ≠ []) (start : Nat) :
    Between start [.ofChars kind start cs] (start + byteLength cs) := by
  have hpos : 0 < byteLength cs := by
    obtain ⟨c, rest, rfl⟩ := List.exists_cons_of_ne_nil hcs
    have hc : 0 < c.utf8Size := Char.utf8Size_pos c
    rw [byteLength_cons]
    omega
  refine .cons (Nat.le_refl start) ?_ (.nil (Nat.le_refl _))
  show start < start + byteLength cs
  omega

theorem within (h : Between start ts stop) {t : Token κ} (ht : t ∈ ts) :
    start ≤ t.span.start ∧ t.span.start < t.span.stop ∧ t.span.stop ≤ stop := by
  induction h with
  | nil => cases ht
  | cons hstart hspan hrest ih =>
    have hstop := hrest.le
    rcases List.mem_cons.mp ht with rfl | hmem
    · exact ⟨hstart, hspan, hstop⟩
    · obtain ⟨hlow, hlt, hhigh⟩ := ih hmem
      exact ⟨by omega, hlt, hhigh⟩

/-- **Of two tokens, the later one starts where the earlier one has ended.** -/
theorem pairwise (h : Between start ts stop) :
    ts.Pairwise fun t u => t.span.stop ≤ u.span.start := by
  induction h with
  | nil => exact .nil
  | cons _ _ hrest ih => exact .cons (fun u hu => (hrest.within hu).1) ih

end Between

end Token

/-- **The tokens of a lexer stand in its text**, one behind the other, where what is open always
    starts behind the tokens so far and goes up to the place. -/
theorem Scans.between {σ κ : Type} {step : Nat → Char → σ → List (Token κ) × σ}
    {close : σ → List (Token κ)} {scan : σ → Nat → List Char → List (Token κ)}
    (h : Scans step close scan) {since : Nat → Nat → σ → Prop}
    (step_since : ∀ start place c state, since start place state → ∃ middle,
      Token.Between start (step place c state).1 middle ∧
        since middle (place + c.utf8Size) (step place c state).2)
    (close_since : ∀ start place state, since start place state →
      Token.Between start (close state) place)
    {start place : Nat} {state : σ} (hopen : since start place state) (text : List Char) :
    Token.Between start (scan state place text) (place + byteLength text) := by
  induction text generalizing state start place with
  | nil =>
    rw [h.nil]
    exact close_since start place state hopen
  | cons c rest ih =>
    obtain ⟨middle, htokens, hnext⟩ := step_since start place c state hopen
    have hrest := ih hnext
    rw [Nat.add_assoc, ← byteLength_cons] at hrest
    rw [h.cons]
    exact htokens.append hrest

end DecisionModel
