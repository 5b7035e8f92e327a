import DecisionModel.Proofs.Source.Token
import DecisionModel.TreeFile.Token

/-!
# The tokens of records

The tokens of a record stand in its line one behind the other.  What is open at a place is
the text from its start up to there, and a text is open from its first quote on.
-/

namespace DecisionModel.TreeFile

open Text

theorem scans : Scans step close tokensFrom := ⟨fun _ _ => rfl, fun _ _ _ _ => rfl⟩

/-! ### Places -/

/-- What is open at a place is the text up to there, and starts no sooner than `start`. -/
def Open.Since (start place : Nat) : Open → Prop
  | .nothing => start ≤ place
  | .name first reversed | .text first reversed =>
    start ≤ first ∧ reversed ≠ [] ∧ first + byteLength reversed = place
  | .escape first reversed =>
    start ≤ first ∧ reversed ≠ [] ∧ first + byteLength reversed + '\\'.utf8Size = place

variable {start place : Nat}

theorem between_closed (kind : TokenKind) {first : Nat} {reversed : List Char}
    (hstart : start ≤ first) (hne : reversed ≠ []) (hplace : first + byteLength reversed = place) :
    Token.Between start [closed kind first reversed] place := by
  have hreverse : reversed.reverse ≠ [] := by simpa using hne
  have hclosed := Token.Between.ofChars kind hreverse first
  rw [byteLength_reverse, hplace] at hclosed
  exact hclosed.weaken hstart

theorem between_brokenText {first : Nat} {reversed : List Char} (hstart : start ≤ first)
    (hne : reversed ≠ []) (hplace : first + byteLength reversed + '\\'.utf8Size = place) :
    Token.Between start (brokenText first reversed) place := by
  have hbackslash := Token.Between.ofChars TokenKind.error (List.cons_ne_nil '\\' [])
    (first + byteLength reversed)
  rw [byteLength_cons, byteLength_nil, Nat.add_zero, hplace] at hbackslash
  exact (between_closed .error hstart hne rfl).append hbackslash

/-- One character, where nothing is open. -/
theorem since_begin (c : Char) (h : start ≤ place) :
    ∃ middle, Token.Between start (begin place c).1 middle ∧
      (begin place c).2.Since middle (place + c.utf8Size) := by
  unfold begin
  split
  · exact ⟨place, .nil h, Nat.le_add_right _ _⟩
  · split
    · exact ⟨place, .nil h, Nat.le_refl _, by simp, by simp⟩
    · split
      · exact ⟨place, .nil h, Nat.le_refl _, by simp, by simp⟩
      · refine ⟨place + c.utf8Size, ?_, Nat.le_refl _⟩
        have hchar := Token.Between.ofChars
          (if c = '=' then TokenKind.equals else if c = ',' then .comma else .error)
          (List.cons_ne_nil c []) place
        rw [byteLength_cons, byteLength_nil, Nat.add_zero] at hchar
        exact hchar.weaken h

/-- One character takes the place along. -/
theorem since_step (c : Char) {state : Open} (h : state.Since start place) :
    ∃ middle, Token.Between start (step place c state).1 middle ∧
      (step place c state).2.Since middle (place + c.utf8Size) := by
  cases state with
  | nothing => exact since_begin c h
  | name first reversed =>
    obtain ⟨hstart, hne, hplace⟩ := h
    by_cases hrest : isNameRest c = true
    · simp only [step, hrest, if_true]
      refine ⟨start, .nil (Nat.le_refl _), hstart, by simp, ?_⟩
      rw [byteLength_cons]
      omega
    · obtain ⟨middle, htokens, hopen⟩ := since_begin c (Nat.le_refl place)
      simp only [step, hrest]
      exact ⟨middle, (between_closed .name hstart hne hplace).append htokens, hopen⟩
  | text first reversed =>
    obtain ⟨hstart, hne, hplace⟩ := h
    by_cases hquote : c = '"'
    · simp only [step, hquote, if_true]
      refine ⟨place + '"'.utf8Size, between_closed .text hstart (by simp) ?_, Nat.le_refl _⟩
      rw [byteLength_cons]
      omega
    · by_cases hbackslash : c = '\\'
      · simp only [step, hbackslash, if_true]
        exact ⟨start, .nil (Nat.le_refl _), hstart, hne, by rw [hplace]⟩
      · simp only [step, hquote, hbackslash, if_false]
        refine ⟨start, .nil (Nat.le_refl _), hstart, by simp, ?_⟩
        rw [byteLength_cons]
        omega
  | escape first reversed =>
    obtain ⟨hstart, hne, hplace⟩ := h
    by_cases hfeed : c = '\n'
    · obtain ⟨middle, htokens, hopen⟩ := since_begin c (Nat.le_refl place)
      simp only [step, hfeed, if_true] at htokens hopen ⊢
      exact ⟨middle, (between_brokenText hstart hne hplace).append htokens, hopen⟩
    · simp only [step, hfeed, if_false]
      refine ⟨start, .nil (Nat.le_refl _), hstart, by simp, ?_⟩
      rw [byteLength_cons, byteLength_cons]
      omega

theorem since_close {state : Open} (h : state.Since start place) :
    Token.Between start (close state) place := by
  cases state with
  | nothing => exact .nil h
  | name first reversed => exact between_closed .name h.1 h.2.1 h.2.2
  | text first reversed => exact between_closed .error h.1 h.2.1 h.2.2
  | escape first reversed => exact between_brokenText h.1 h.2.1 h.2.2

/-- **The tokens of a record stand in its line**, one behind the other. -/
theorem between_tokens (offset : Nat) (record : List Char) :
    Token.Between offset (tokens offset record) (offset + byteLength record) := by
  have hnothing : Open.nothing.Since offset offset := Nat.le_refl offset
  exact scans.between (fun _ _ c _ => since_step c) (fun _ _ _ => since_close) hnothing record

/-! ### Quotes -/

/-- A token that is a text only if it stands between quotes. -/
def Quoted (t : Token TokenKind) : Prop :=
  t.kind = .text → ∃ inside, t.text.toList = '"' :: inside ++ ['"']

/-- What is open is a text only from its first quote on. -/
def Open.Quoted : Open → Prop
  | .text _ reversed | .escape _ reversed => ∃ inside, reversed.reverse = '"' :: inside
  | _ => True

theorem quoted_of_ne_text {t : Token TokenKind} (h : t.kind ≠ .text) : Quoted t :=
  fun htext => absurd htext h

theorem quoted_brokenText (start : Nat) (reversed : List Char) :
    ∀ t ∈ brokenText start reversed, Quoted t := by
  intro t ht
  simp only [brokenText, List.mem_cons, List.not_mem_nil, or_false] at ht
  rcases ht with rfl | rfl
  · exact quoted_of_ne_text nofun
  · exact quoted_of_ne_text nofun

theorem quoted_begin (place : Nat) (c : Char) :
    (∀ t ∈ (begin place c).1, Quoted t) ∧ (begin place c).2.Quoted := by
  unfold begin
  split
  · exact ⟨by simp, trivial⟩
  · split
    · exact ⟨by simp, trivial⟩
    · split
      · rename_i hquote
        exact ⟨by simp, [], by rw [hquote]; rfl⟩
      · refine ⟨?_, trivial⟩
        intro t ht
        rw [List.mem_singleton] at ht
        subst ht
        refine quoted_of_ne_text ?_
        dsimp only [Token.ofChars]
        split
        · exact nofun
        · split <;> exact nofun

/-- One character keeps the tokens and what is open quoted. -/
theorem quoted_step (place : Nat) (c : Char) {state : Open} (h : state.Quoted) :
    (∀ t ∈ (step place c state).1, Quoted t) ∧ (step place c state).2.Quoted := by
  cases state with
  | nothing => exact quoted_begin place c
  | name start reversed =>
    by_cases hrest : isNameRest c = true
    · simp [step, hrest, Open.Quoted]
    · obtain ⟨htokens, hopen⟩ := quoted_begin place c
      simp only [step, hrest]
      refine ⟨?_, hopen⟩
      intro t ht
      rcases List.mem_cons.mp ht with rfl | hmem
      · exact quoted_of_ne_text nofun
      · exact htokens t hmem
  | text start reversed =>
    obtain ⟨inside, hinside⟩ := h
    by_cases hquote : c = '"'
    · simp only [step, hquote, if_true]
      refine ⟨?_, trivial⟩
      intro t ht _
      rw [List.mem_singleton] at ht
      subst ht
      exact ⟨inside, by simp [closed, Token.ofChars, hinside]⟩
    · by_cases hbackslash : c = '\\'
      · simp only [step, hbackslash]
        exact ⟨by simp, inside, hinside⟩
      · simp only [step, hquote, hbackslash, if_false]
        exact ⟨by simp, inside ++ [c], by simp [hinside]⟩
  | escape start reversed =>
    obtain ⟨inside, hinside⟩ := h
    by_cases hfeed : c = '\n'
    · obtain ⟨htokens, hopen⟩ := quoted_begin place c
      simp only [step, hfeed, if_true] at htokens hopen ⊢
      refine ⟨?_, hopen⟩
      intro t ht
      rcases List.mem_append.mp ht with hbroken | hmem
      · exact quoted_brokenText start reversed t hbroken
      · exact htokens t hmem
    · simp only [step, hfeed, if_false]
      exact ⟨by simp, inside ++ ['\\', c], by simp [hinside]⟩

theorem quoted_close (state : Open) : ∀ t ∈ close state, Quoted t := by
  intro t ht
  cases state with
  | nothing => cases ht
  | name start reversed | text start reversed =>
    rw [close, List.mem_singleton] at ht
    subst ht
    exact quoted_of_ne_text nofun
  | escape start reversed => exact quoted_brokenText start reversed t ht

/-- **Every text token of a record stands between quotes.** -/
theorem quoted_tokens (offset : Nat) (record : List Char) :
    ∀ t ∈ tokens offset record, Quoted t := by
  have hnothing : Open.nothing.Quoted := trivial
  have hstep : ∀ (before : List Char) (c : Char) (state : Open), state.Quoted →
      (∀ t ∈ (step (offset + byteLength before) c state).1, Quoted t) ∧
        (step (offset + byteLength before) c state).2.Quoted := by
    intro before c state hstate
    exact quoted_step _ c hstate
  exact scans.forall_mem (fun _ _ _ ht => ht) hstep (fun _ state _ => quoted_close state) []
    hnothing record

end DecisionModel.TreeFile
