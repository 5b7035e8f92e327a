import Mathlib
import DecisionModel.Proofs.Names.Layout
import DecisionModel.Proofs.Source.Lexicon

/-!
# The lexical rules of schema text

Names and separators are words of schema text, and runs of blanks and comments are skipped.  Each
character is the first of a word of some kind and is such a word by itself, so no text has errors.
-/

namespace DecisionModel.Names

open Text

/-! ### The rules -/

/-- The characters that only separate. -/
def blanks : List Char := [' ', '\t', '\r', '\n', '\x0c']

/-- The words of each kind, of which the kind of errors has none.  Without a kind, the pieces that
    are skipped. -/
def wordsOf : Option (Option TokenKind) → Language Char
  | none => runOf (among blanks) (among blanks) + runOf (among ['|']) (outside ['\n'])
  | some none => 0
  | some (some .name) =>
    runOf (outside (blanks ++ [',', ':', '.', '|'])) (outside (blanks ++ [',', ':', '.', '|']))
  | some (some .dot) => {['.']}
  | some (some .colon) => {[':']}
  | some (some .comma) => {[',']}

theorem isSpace_iff {c : Char} : isSpace c = true ↔ c ∈ blanks := by
  simp [isSpace, blanks, or_assoc]

theorem wordsOf_none :
    wordsOf none = runOf isSpace isSpace + runOf (· == '|') (· != '\n') := by
  have hspace : among blanks = isSpace := by
    funext c
    rw [Bool.eq_iff_iff, isSpace_iff, among, List.contains_iff_mem]
  have hbar : among ['|'] = (· == '|') := by
    funext c
    rw [Bool.eq_iff_iff]
    simp [among]
  have hfeed : outside ['\n'] = (· != '\n') := by
    funext c
    rw [Bool.eq_iff_iff]
    simp [outside]
  rw [wordsOf, hspace, hbar, hfeed]

theorem wordsOf_name : wordsOf (some (some .name)) = runOf isNameChar isNameChar := by
  have hname : outside (blanks ++ [',', ':', '.', '|']) = isNameChar := by
    funext c
    unfold isNameChar separator?
    rw [Bool.eq_iff_iff]
    split
    · decide
    · decide
    · decide
    · simp_all [outside, ← isSpace_iff]
  rw [wordsOf, hname]

/-- The kind of the words that begin with the character. -/
def kindOf (c : Char) : Option (Option TokenKind) :=
  if isNameChar c then some (some .name) else (separator? c).map some

theorem exists_cons_of_mem_wordsOf {kind : Option (Option TokenKind)} {word : List Char}
    (h : word ∈ wordsOf kind) : ∃ c rest, word = c :: rest ∧ kindOf c = kind := by
  rcases kind with _ | _ | _ | _ | _ | _
  · rw [wordsOf_none] at h
    rcases (Language.mem_add _ _ _).mp h with hspaces | hcomment
    · obtain ⟨c, rest, rfl, hc, -⟩ := mem_runOf_iff.mp hspaces
      refine ⟨c, rest, rfl, ?_⟩
      simp [kindOf, isNameChar_of_isSpace hc, separator?_of_isSpace hc]
    · obtain ⟨c, rest, rfl, hc, -⟩ := mem_runOf_iff.mp hcomment
      obtain rfl := beq_iff_eq.mp hc
      exact ⟨_, rest, rfl, by decide⟩
  · cases h
  · rw [wordsOf_name] at h
    obtain ⟨c, rest, rfl, hc, -⟩ := mem_runOf_iff.mp h
    exact ⟨c, rest, rfl, by simp [kindOf, hc]⟩
  all_goals
    obtain rfl := Set.mem_singleton_iff.mp h
    exact ⟨_, [], rfl, by decide⟩

/-- Each character is a word. -/
theorem singleton_mem_wordsOf (c : Char) : [c] ∈ wordsOf (kindOf c) := by
  by_cases hname : isNameChar c = true
  · simp only [kindOf, hname, if_true, wordsOf_name]
    exact mem_runOf_iff.mpr ⟨c, [], rfl, hname, by simp⟩
  · have hkind : kindOf c = (separator? c).map some := by simp [kindOf, hname]
    rw [hkind]
    rcases hseparator : separator? c with _ | kind
    · simp only [isNameChar, hseparator, Option.isNone_none, Bool.and_true, Bool.and_eq_true,
        Bool.not_eq_true', bne_iff_ne, ne_eq, not_and, Decidable.not_not] at hname
      rw [Option.map_none, wordsOf_none]
      apply (Language.mem_add _ _ _).mpr
      by_cases hspace : isSpace c = true
      · left
        exact mem_runOf_iff.mpr ⟨c, [], rfl, hspace, by simp⟩
      · right
        exact mem_runOf_iff.mpr ⟨c, [], rfl, by simp [hname (by simpa using hspace)], by simp⟩
    · unfold separator? at hseparator
      split at hseparator
      all_goals cases hseparator
      all_goals exact Set.mem_singleton _

/-- The rules of schema text. -/
def lexicon : Lexicon (Option TokenKind) where
  words := wordsOf
  error := none
  broken := oneOf fun _ => true
  kindOf := kindOf
  begins := exists_cons_of_mem_wordsOf
  broken_ne_nil := by
    rintro _ ⟨c, -, rfl⟩
    exact List.cons_ne_nil c []
  mem_broken c := ⟨c, rfl, rfl⟩

/-! ### What the rules take -/

variable {word rest : List Char}

theorem exists_of_takes {kind : Option (Option TokenKind)}
    (h : lexicon.Takes (word ++ rest) (kind, word)) :
    word ∈ wordsOf kind ∧ IsLongest lexicon.all (word ++ rest) word := by
  cases h with
  | word hword hlongest => exact ⟨hword, hlongest⟩
  | error hnone hlongest =>
    obtain ⟨c, -, rfl⟩ := hlongest.mem
    exact absurd (List.prefix_append _ _) (hnone [c] ⟨kindOf c, singleton_mem_wordsOf c⟩)

/-- What is skipped: blanks, or a comment up to the end of its line. -/
theorem skipped_of_takes (h : lexicon.Takes (word ++ rest) (none, word)) :
    (∀ c ∈ word, isSpace c = true) ∨
      ∃ cs, word = '|' :: cs ∧ '\n' ∉ cs ∧ EndsLine rest := by
  obtain ⟨hword, hlongest⟩ := exists_of_takes h
  rw [wordsOf_none] at hword
  rcases (Language.mem_add _ _ _).mp hword with hspaces | hcomment
  · left
    obtain ⟨c, cs, rfl, hc, hcs⟩ := mem_runOf_iff.mp hspaces
    exact List.forall_mem_cons.mpr ⟨hc, hcs⟩
  · right
    have hruns : ∀ w ∈ runOf (· == '|') (· != '\n'), w ∈ wordsOf none := by
      intro w hw
      rw [wordsOf_none]
      exact (Language.mem_add _ _ _).mpr (.inr hw)
    have hends := hlongest.runOf_ends hcomment fun w hw => ⟨none, hruns w hw⟩
    obtain ⟨c, cs, rfl, hc, hcs⟩ := mem_runOf_iff.mp hcomment
    obtain rfl := beq_iff_eq.mp hc
    refine ⟨cs, rfl, fun hfeed => by simpa using hcs '\n' hfeed, ?_⟩
    intro d after hrest
    simpa using hends d after hrest

theorem endsName_of_takes (h : lexicon.Takes (word ++ rest) (some (some .name), word)) :
    (∀ c ∈ word, isNameChar c = true) ∧ EndsName rest := by
  obtain ⟨hword, hlongest⟩ := exists_of_takes h
  have hruns : ∀ w ∈ runOf isNameChar isNameChar, w ∈ wordsOf (some (some .name)) := by
    intro w hw
    rwa [wordsOf_name]
  rw [wordsOf_name] at hword
  have hends := hlongest.runOf_ends hword fun w hw => ⟨some (some .name), hruns w hw⟩
  obtain ⟨c, cs, rfl, hc, hcs⟩ := mem_runOf_iff.mp hword
  exact ⟨List.forall_mem_cons.mpr ⟨hc, hcs⟩, hends⟩

/-! ### The lexer -/

/-- A piece that is skipped has no token. -/
theorem tokensFrom_skipped (h : lexicon.Takes (word ++ rest) (none, word)) (place : Nat) :
    tokensFrom .nothing place (word ++ rest) =
      tokensFrom .nothing (place + byteLength word) rest := by
  rcases skipped_of_takes h with hspaces | ⟨cs, rfl, hcs, hrest⟩
  · exact tokensFrom_spaces hspaces place rest
  · exact tokensFrom_bar hcs hrest place

/-- A piece of each other kind has one. -/
theorem tokensFrom_kind {kind : TokenKind}
    (h : lexicon.Takes (word ++ rest) (some (some kind), word)) (place : Nat) :
    tokensFrom .nothing place (word ++ rest) =
      .ofChars kind place word :: tokensFrom .nothing (place + byteLength word) rest := by
  obtain ⟨hword, -⟩ := exists_of_takes h
  cases kind with
  | name =>
    obtain ⟨hchars, hrest⟩ := endsName_of_takes h
    obtain ⟨c, cs, rfl⟩ := List.exists_cons_of_ne_nil (Lexicon.Takes.ne_nil h)
    exact tokensFrom_nameToken hchars hrest place
  | dot | colon | comma =>
    obtain rfl := Set.mem_singleton_iff.mp hword
    rfl

/-- The token, with a kind that could be an error. -/
def withError (t : Token TokenKind) : Token (Option TokenKind) := ⟨some t.kind, t.text, t.span⟩

/-- The tokens of text at an offset. -/
def lexer (offset : Nat) (text : List Char) : List (Token (Option TokenKind)) :=
  (tokensFrom .nothing offset text).map withError

theorem lexer_eq_of_cut (offset : Nat) {text : List Char} {pieces : List (Piece (Option TokenKind))}
    (h : lexicon.Cut text pieces) : lexer offset text = Lexicon.tokensAt offset pieces := by
  induction h generalizing offset with
  | nil => rfl
  | @cons text rest piece pieces htext hpiece _ ih =>
    obtain ⟨_ | _ | kind, word⟩ := piece
    · subst htext
      rw [lexer, tokensFrom_skipped hpiece]
      exact ih _
    · subst htext
      cases (exists_of_takes hpiece).1
    · subst htext
      rw [lexer, tokensFrom_kind hpiece]
      exact congrArg _ (ih _)

/-- What stands between tokens: blanks, and comments that reach up to the end of their lines.  The
    second text is what is behind. -/
inductive Gap : List Char → List Char → Prop
  | nil (behind : List Char) : Gap [] behind
  | space {c : Char} {gap behind : List Char} : c ∈ blanks → Gap gap behind →
      Gap (c :: gap) behind
  | comment {cs gap behind : List Char} : '\n' ∉ cs → EndsLine (gap ++ behind) → Gap gap behind →
      Gap ('|' :: cs ++ gap) behind

theorem gap_spaces {gap behind : List Char} (hspaces : ∀ c ∈ word, isSpace c = true)
    (h : Gap gap behind) : Gap (word ++ gap) behind := by
  induction word with
  | nil => exact h
  | cons c word ih =>
    obtain ⟨hc, hword⟩ := List.forall_mem_cons.mp hspaces
    exact .space (isSpace_iff.mp hc) (ih hword)

/-- **The lexer of schema text** follows the rules and covers its text. -/
theorem governs_lexer : lexicon.Governs Gap lexer := by
  apply Lexicon.governs lexer_eq_of_cut Gap.nil
  intro word gap behind htakes hgap
  rcases skipped_of_takes htakes with hspaces | ⟨cs, rfl, hcs, hends⟩
  · exact gap_spaces hspaces hgap
  · exact .comment hcs hends hgap

/-! ### No errors -/

/-- No text has an error. -/
theorem kind_ne_error_of_cut {text : List Char} {pieces : List (Piece (Option TokenKind))}
    (h : lexicon.Cut text pieces) : ∀ piece ∈ pieces, piece.1 ≠ some lexicon.error := by
  rintro ⟨_, word⟩ hpiece rfl
  obtain ⟨rest, htakes⟩ := h.exists_takes _ hpiece
  cases (exists_of_takes htakes).1

/-- How reading fails at an error: what was expected, and where. -/
structure LexingFault where
  expected : Expected
  span : Span
  deriving DecidableEq, Repr

/-- A step of the parser where the next token may be an error. -/
def State.stepOrError (s : State) (t : Token (Option TokenKind)) :
    Except (LexingFault ⊕ Located Fault) State :=
  match t.kind with
  | none => .error (.inl ⟨s.expected, t.span⟩)
  | some kind => (s.step ⟨kind, t.text, t.span⟩).mapError .inr

/-- The parser, over tokens that may be errors. -/
def readOrError (stop : Span) (ts : List (Token (Option TokenKind))) :
    Except (LexingFault ⊕ Located Fault) Schema := do
  let state ← ts.foldlM State.stepOrError .initial
  (state.finish stop).mapError .inr

theorem State.foldlM_withError (ts : List (Token TokenKind)) (s : State) :
    (ts.map withError).foldlM State.stepOrError s =
      (ts.foldlM State.step s).mapError .inr := by
  induction ts generalizing s with
  | nil => rfl
  | cons t ts ih =>
    have hstep : s.stepOrError (withError t) = (s.step t).mapError .inr := rfl
    rw [List.map_cons, List.foldlM_cons, List.foldlM_cons, hstep]
    rcases s.step t with e | s'
    · rfl
    · exact ih s'

/-- The parser that looks for errors is the parser that does not. -/
theorem exists_readOrError_eq {file : SourceFile} {pieces : List (Piece (Option TokenKind))}
    (h : lexicon.Cut file.content.toList pieces) :
    ∃ result : Except (Located Fault) Schema,
      readOrError file.endSpan (Lexicon.tokensAt 0 pieces) = result.mapError .inr ∧
        parse file = result.mapError (.ofLocated .names file) := by
  refine ⟨_, ?_, rfl⟩
  have hrun : (Lexicon.tokensAt 0 pieces).foldlM State.stepOrError .initial =
      ((tokens file.content.toList).foldlM State.step .initial).mapError .inr := by
    rw [← lexer_eq_of_cut 0 h]
    exact State.foldlM_withError _ _
  rw [readOrError, hrun]
  rcases (tokens file.content.toList).foldlM State.step .initial with e | state
  · rfl
  · rfl

end DecisionModel.Names
