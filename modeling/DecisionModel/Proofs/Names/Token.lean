import DecisionModel.Names.Token
import DecisionModel.Proofs.Source.Token

/-!
# The tokens of schema text

The name tokens of a text are non-empty runs of name characters.  In particular no name
contains a line feed.  All tokens stand in the text one behind the other.
-/

namespace DecisionModel.Names

open Text

theorem scans : Scans step close tokensFrom := ⟨fun _ _ => rfl, fun _ _ _ _ => rfl⟩

/-- A name as schema text can spell it. -/
structure IsName (name : String) : Prop where
  nonempty : name.toList ≠ []
  chars : ∀ c ∈ name.toList, isNameChar c = true

instance (name : String) : Decidable (IsName name) :=
  decidable_of_iff (name.toList ≠ [] ∧ name.toList.all isNameChar = true)
    ⟨fun ⟨nonempty, chars⟩ => ⟨nonempty, List.all_eq_true.mp chars⟩,
      fun ⟨nonempty, chars⟩ => ⟨nonempty, List.all_eq_true.mpr chars⟩⟩

theorem IsName.no_lineFeed {name : String} (h : IsName name) : '\n' ∉ name.toList := by
  intro hmem
  have hchar := h.chars '\n' hmem
  revert hchar
  decide

/-- A token that is a name only if its text is one. -/
def Spelled (t : Token TokenKind) : Prop := t.kind = .name → IsName t.text

/-- What is open is part of a name only if its characters are. -/
def Open.Spelled : Open → Prop
  | .name _ reversed => reversed ≠ [] ∧ ∀ c ∈ reversed, isNameChar c = true
  | _ => True

theorem spelled_nameToken {start : Nat} {reversed : List Char}
    (h : (Open.name start reversed).Spelled) : Spelled (nameToken start reversed) := by
  obtain ⟨hne, hchars⟩ := h
  intro _
  refine ⟨?_, ?_⟩
  · simpa [nameToken, Token.ofChars] using hne
  · intro c hc
    simp only [nameToken, Token.ofChars, String.toList_ofList, List.mem_reverse] at hc
    exact hchars c hc

theorem separator?_ne_name (c : Char) : separator? c ≠ some .name := by
  unfold separator?
  split <;> simp

theorem spelled_begin (place : Nat) (c : Char) :
    (∀ t ∈ (begin place c).1, Spelled t) ∧ (begin place c).2.Spelled := by
  unfold begin
  rcases hseparator : separator? c with _ | kind
  · by_cases hbar : c = '|'
    · simp [hbar, Open.Spelled]
    · by_cases hspace : isSpace c = true
      · simp [hbar, hspace, Open.Spelled]
      · simp [hbar, hspace, Open.Spelled, isNameChar, hseparator]
  · refine ⟨?_, trivial⟩
    intro t ht
    simp only [List.mem_singleton] at ht
    subst ht
    intro hkind
    simp only [Token.ofChars] at hkind
    subst hkind
    exact absurd hseparator (separator?_ne_name c)

/-- One character keeps the tokens and what is open spelled. -/
theorem spelled_step (place : Nat) (c : Char) {state : Open} (h : state.Spelled) :
    (∀ t ∈ (step place c state).1, Spelled t) ∧ (step place c state).2.Spelled := by
  cases state with
  | nothing => exact spelled_begin place c
  | comment =>
    by_cases hc : c = '\n' <;> simp [step, hc, Open.Spelled]
  | name start reversed =>
    by_cases hname : isNameChar c = true
    · obtain ⟨-, hchars⟩ := h
      simp only [step, hname, if_true]
      refine ⟨by simp, by simp, ?_⟩
      intro d hd
      rcases List.mem_cons.mp hd with rfl | hmem
      · exact hname
      · exact hchars d hmem
    · obtain ⟨htokens, hopen⟩ := spelled_begin place c
      simp only [step, hname, Bool.false_eq_true, if_false]
      refine ⟨?_, hopen⟩
      intro t ht
      rcases List.mem_cons.mp ht with rfl | hmem
      · exact spelled_nameToken h
      · exact htokens t hmem

theorem spelled_close {state : Open} (h : state.Spelled) : ∀ t ∈ close state, Spelled t := by
  intro t ht
  cases state with
  | nothing => cases ht
  | comment => cases ht
  | name start reversed =>
    rw [close, List.mem_singleton] at ht
    subst ht
    exact spelled_nameToken h

/-- **Every name token of a text is a name.** -/
theorem spelled_tokens (text : List Char) : ∀ t ∈ tokens text, Spelled t := by
  have hnothing : Open.nothing.Spelled := trivial
  have hstep : ∀ (before : List Char) (c : Char) (state : Open), state.Spelled →
      (∀ t ∈ (step (0 + byteLength before) c state).1, Spelled t) ∧
        (step (0 + byteLength before) c state).2.Spelled := by
    intro before c state hstate
    exact spelled_step _ c hstate
  exact scans.forall_mem (fun _ _ _ ht => ht) hstep (fun _ _ => spelled_close) [] hnothing text

/-! ### Places -/

/-- What is open at a place is the text up to there, and starts no sooner than `start`. -/
def Open.Since (start place : Nat) : Open → Prop
  | .nothing | .comment => start ≤ place
  | .name first reversed =>
    start ≤ first ∧ reversed ≠ [] ∧ first + byteLength reversed = place

variable {start place : Nat}

theorem between_nameToken {first : Nat} {reversed : List Char} (hstart : start ≤ first)
    (hne : reversed ≠ []) (hplace : first + byteLength reversed = place) :
    Token.Between start [nameToken first reversed] place := by
  have hreverse : reversed.reverse ≠ [] := by simpa using hne
  have hname := Token.Between.ofChars TokenKind.name hreverse first
  rw [byteLength_reverse, hplace] at hname
  exact hname.weaken hstart

/-- One character, where nothing is open. -/
theorem since_begin (c : Char) (h : start ≤ place) :
    ∃ middle, Token.Between start (begin place c).1 middle ∧
      (begin place c).2.Since middle (place + c.utf8Size) := by
  unfold begin
  rcases separator? c with _ | kind
  · by_cases hbar : c = '|'
    · simp only [hbar, if_true]
      exact ⟨place, .nil h, Nat.le_add_right _ _⟩
    · by_cases hspace : isSpace c = true
      · simp only [hbar, hspace, if_true, if_false]
        exact ⟨place, .nil h, Nat.le_add_right _ _⟩
      · simp only [hbar, hspace, if_false]
        exact ⟨place, .nil h, Nat.le_refl _, by simp, by simp⟩
  · refine ⟨place + c.utf8Size, ?_, Nat.le_refl _⟩
    have hchar := Token.Between.ofChars kind (List.cons_ne_nil c []) place
    rw [byteLength_cons, byteLength_nil, Nat.add_zero] at hchar
    exact hchar.weaken h

/-- One character takes the place along. -/
theorem since_step (c : Char) {state : Open} (h : state.Since start place) :
    ∃ middle, Token.Between start (step place c state).1 middle ∧
      (step place c state).2.Since middle (place + c.utf8Size) := by
  cases state with
  | nothing => exact since_begin c h
  | comment =>
    have hle : start ≤ place := h
    refine ⟨start, .nil (Nat.le_refl _), ?_⟩
    simp only [step]
    split
    · exact Nat.le_trans hle (Nat.le_add_right _ _)
    · exact Nat.le_trans hle (Nat.le_add_right _ _)
  | name first reversed =>
    obtain ⟨hstart, hne, hplace⟩ := h
    by_cases hname : isNameChar c = true
    · simp only [step, hname, if_true]
      refine ⟨start, .nil (Nat.le_refl _), hstart, by simp, ?_⟩
      rw [byteLength_cons]
      omega
    · obtain ⟨middle, htokens, hopen⟩ := since_begin c (Nat.le_refl place)
      simp only [step, hname]
      exact ⟨middle, (between_nameToken hstart hne hplace).append htokens, hopen⟩

theorem since_close {state : Open} (h : state.Since start place) :
    Token.Between start (close state) place := by
  cases state with
  | nothing | comment => exact .nil h
  | name first reversed =>
    obtain ⟨hstart, hne, hplace⟩ := h
    exact between_nameToken hstart hne hplace

/-- **The tokens of a text stand in it**, one behind the other. -/
theorem between_tokens (text : List Char) :
    Token.Between 0 (tokens text) (byteLength text) := by
  have hnothing : Open.nothing.Since 0 0 := Nat.le_refl 0
  have hall := scans.between (fun _ _ c _ => since_step c) (fun _ _ _ => since_close) hnothing text
  rwa [Nat.zero_add] at hall

end DecisionModel.Names
