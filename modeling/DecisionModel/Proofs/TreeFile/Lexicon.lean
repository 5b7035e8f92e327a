import Mathlib
import DecisionModel.Proofs.Source.Lexicon
import DecisionModel.Proofs.TreeFile.Written

/-!
# The lexical rules of records

Field names, equals signs, commas and quoted texts are words of records, and runs of blanks are
skipped.  Where there is no word, one character is an error, or else a quote with all units behind
it, which is a text that is not closed.
-/

namespace DecisionModel.TreeFile

open Computability Text

/-! ### The rules -/

def blanks : List Char := [' ', '\t', '\r', '\x0c']

/-- Any number of characters that are no quotes or backslashes, or that have a backslash. -/
def units : Language Char := (oneOf (outside ['"', '\\']) + {['\\']} * oneOf (outside ['\n']))∗

/-- The words of each kind, and without a kind the pieces that are skipped. -/
def wordsOf : Option TokenKind → Language Char
  | none => runOf (among blanks) (among blanks)
  | some .error => 0
  | some .name => runOf isNameStart isNameRest
  | some .equals => {['=']}
  | some .text => {['"']} * units * {['"']}
  | some .comma => {[',']}

/-- The errors: any character, or a quote and all units behind it. -/
def broken : Language Char := oneOf (fun _ => true) + {['"']} * units

theorem isSpace_iff {c : Char} : isSpace c = true ↔ c ∈ blanks := by
  simp [isSpace, blanks, or_assoc]

theorem mem_blanks_iff {w : List Char} :
    w ∈ wordsOf none ↔ ∃ c rest, w = c :: rest ∧ ∀ d ∈ c :: rest, isSpace d = true := by
  simp only [wordsOf, mem_runOf_iff, among, List.contains_iff_mem, isSpace_iff, List.forall_mem_cons]

theorem exists_unit_iff {w : List Char} :
    w ∈ oneOf (outside ['"', '\\']) + {['\\']} * oneOf (outside ['\n']) ↔
      ∃ u : QuotedUnit, w = u.text := by
  rw [Language.mem_add, Language.mem_mul]
  constructor
  · rintro (⟨c, hc, rfl⟩ | ⟨_, rfl, _, ⟨c, hc, rfl⟩, rfl⟩)
    · exact ⟨.plain c (by simpa [outside] using hc), rfl⟩
    · exact ⟨.escaped c (by simpa [outside] using hc), rfl⟩
  · rintro ⟨⟨c, hc⟩ | ⟨c, hc⟩, rfl⟩
    · exact .inl ⟨c, by simpa [outside] using hc, rfl⟩
    · exact .inr ⟨_, rfl, _, ⟨c, by simpa [outside] using hc, rfl⟩, rfl⟩

theorem mem_units_iff {w : List Char} : w ∈ units ↔ ∃ us, w = unitsText us := by
  rw [units, Language.mem_kstar]
  constructor
  · rintro ⟨words, rfl, hwords⟩
    induction words with
    | nil => exact ⟨[], rfl⟩
    | cons word words ih =>
      obtain ⟨hword, hrest⟩ := List.forall_mem_cons.mp hwords
      obtain ⟨u, rfl⟩ := exists_unit_iff.mp hword
      obtain ⟨us, hus⟩ := ih hrest
      exact ⟨u :: us, by rw [List.flatten_cons, hus, unitsText_cons]⟩
  · rintro ⟨us, rfl⟩
    refine ⟨us.map QuotedUnit.text, rfl, ?_⟩
    intro word hword
    obtain ⟨u, -, rfl⟩ := List.mem_map.mp hword
    exact exists_unit_iff.mpr ⟨u, rfl⟩

theorem mem_text_iff {w : List Char} :
    w ∈ wordsOf (some .text) ↔ ∃ us, w = '"' :: unitsText us ++ ['"'] := by
  simp only [wordsOf, Language.mem_mul]
  constructor
  · rintro ⟨_, ⟨_, rfl, inside, hinside, rfl⟩, _, rfl, rfl⟩
    obtain ⟨us, rfl⟩ := mem_units_iff.mp hinside
    exact ⟨us, rfl⟩
  · rintro ⟨us, rfl⟩
    exact ⟨_, ⟨_, rfl, _, mem_units_iff.mpr ⟨us, rfl⟩, rfl⟩, _, rfl, rfl⟩

theorem mem_broken_iff {w : List Char} :
    w ∈ broken ↔ (∃ c, w = [c]) ∨ ∃ us, w = '"' :: unitsText us := by
  rw [broken, Language.mem_add, Language.mem_mul]
  constructor
  · rintro (⟨c, -, rfl⟩ | ⟨_, rfl, inside, hinside, rfl⟩)
    · exact .inl ⟨c, rfl⟩
    · obtain ⟨us, rfl⟩ := mem_units_iff.mp hinside
      exact .inr ⟨us, rfl⟩
  · rintro (⟨c, rfl⟩ | ⟨us, rfl⟩)
    · exact .inl ⟨c, rfl, rfl⟩
    · exact .inr ⟨_, rfl, _, mem_units_iff.mpr ⟨us, rfl⟩, rfl⟩

/-- The kind of the words that begin with the character, or that of errors if there are none. -/
def kindOf (c : Char) : Option TokenKind :=
  if isSpace c then none
  else if isNameStart c then some .name
  else if c = '"' then some .text
  else if c = '=' then some .equals
  else if c = ',' then some .comma
  else some .error

theorem exists_cons_of_mem_wordsOf {kind : Option TokenKind} {word : List Char}
    (h : word ∈ wordsOf kind) : ∃ c rest, word = c :: rest ∧ kindOf c = kind := by
  rcases kind with _ | _ | _ | _ | _ | _
  · obtain ⟨c, rest, rfl, hspaces⟩ := mem_blanks_iff.mp h
    exact ⟨c, rest, rfl, by simp [kindOf, hspaces c]⟩
  · cases h
  · obtain ⟨c, rest, rfl, hc, -⟩ := mem_runOf_iff.mp h
    exact ⟨c, rest, rfl, by simp [kindOf, hc, isSpace_of_isNameStart hc]⟩
  · obtain rfl := Set.mem_singleton_iff.mp h
    exact ⟨_, [], rfl, by decide⟩
  · obtain ⟨us, rfl⟩ := mem_text_iff.mp h
    exact ⟨_, _, rfl, by decide⟩
  · obtain rfl := Set.mem_singleton_iff.mp h
    exact ⟨_, [], rfl, by decide⟩

/-- The rules of records. -/
def lexicon : Lexicon TokenKind where
  words := wordsOf
  error := .error
  broken := broken
  kindOf := kindOf
  begins := exists_cons_of_mem_wordsOf
  broken_ne_nil h := by
    rcases mem_broken_iff.mp h with ⟨c, rfl⟩ | ⟨us, rfl⟩
    · exact List.cons_ne_nil c []
    · exact List.cons_ne_nil _ _
  mem_broken c := mem_broken_iff.mpr (.inl ⟨c, rfl⟩)

/-! ### What the rules take -/

variable {word rest : List Char}

theorem tokensFrom_spaces (h : ∀ c ∈ word, isSpace c = true) (place : Nat) :
    tokensFrom .nothing place (word ++ rest) =
      tokensFrom .nothing (place + byteLength word) rest := by
  refine scans.skip ?_ place rest
  intro c hc place
  rw [step, begin, if_pos (h c hc)]

theorem spaces_of_mem (h : word ∈ wordsOf none) : ∀ c ∈ word, isSpace c = true := by
  obtain ⟨c, cs, rfl, hspaces⟩ := mem_blanks_iff.mp h
  exact hspaces

/-- What begins with a quote is an error if it is not closed. -/
theorem unclosed_of_isLongest {us : List QuotedUnit}
    (hnone : ∀ other ∈ lexicon.all, ¬ other <+: '"' :: unitsText us ++ rest)
    (h : IsLongest broken ('"' :: unitsText us ++ rest) ('"' :: unitsText us)) :
    Stuck rest ∧ ∀ cs, rest ≠ '"' :: cs := by
  constructor
  · rintro u ⟨after, rfl⟩
    apply h.not_append_mem
    · cases u <;> exact List.cons_ne_nil _ _
    · exact mem_broken_iff.mpr (.inr ⟨us ++ [u], by simp⟩)
  · rintro cs rfl
    apply hnone _ ⟨some .text, mem_text_iff.mpr ⟨us, rfl⟩⟩
    exact ⟨cs, by simp⟩

/-! ### The lexer -/

/-- A word of a kind is a token, unless it is skipped. -/
theorem tokensFrom_of_mem {kind : TokenKind} (hword : word ∈ wordsOf (some kind))
    (hlongest : IsLongest lexicon.all (word ++ rest) word) (place : Nat) :
    tokensFrom .nothing place (word ++ rest) =
      .ofChars kind place word :: tokensFrom .nothing (place + byteLength word) rest := by
  cases kind with
  | error => cases hword
  | name =>
    have hends : EndsName rest := hlongest.runOf_ends hword fun w hw => ⟨some .name, hw⟩
    obtain ⟨c, cs, rfl, hc, hcs⟩ := mem_runOf_iff.mp hword
    exact tokensFrom_nameToken hc hcs hends place
  | text =>
    obtain ⟨us, rfl⟩ := mem_text_iff.mp hword
    exact tokensFrom_quoted us place rest
  | equals | comma =>
    obtain rfl := Set.mem_singleton_iff.mp hword
    rfl

/-- An error is a token. -/
theorem tokensFrom_of_none (hnone : ∀ other ∈ lexicon.all, ¬ other <+: word ++ rest)
    (hlongest : IsLongest broken (word ++ rest) word) (place : Nat) :
    tokensFrom .nothing place (word ++ rest) =
      .ofChars .error place word :: tokensFrom .nothing (place + byteLength word) rest := by
  have hunclosed : ∀ us, word = '"' :: unitsText us → tokensFrom .nothing place (word ++ rest) =
      .ofChars .error place word :: tokensFrom .nothing (place + byteLength word) rest := by
    rintro us rfl
    obtain ⟨hstuck, hopen⟩ := unclosed_of_isLongest hnone hlongest
    exact tokensFrom_unclosed us hstuck hopen place
  rcases mem_broken_iff.mp hlongest.mem with ⟨c, rfl⟩ | ⟨us, hus⟩
  · by_cases hquote : c = '"'
    · exact hunclosed [] (by rw [hquote]; rfl)
    · have hno : ∀ kind, [c] ∉ wordsOf kind := by
        intro kind hmem
        exact hnone [c] ⟨kind, hmem⟩ (List.prefix_append _ _)
      have hspace : isSpace c = false := by
        by_contra hc
        exact hno none (mem_blanks_iff.mpr ⟨c, [], rfl, by simpa using hc⟩)
      have hname : isNameStart c = false := by
        by_contra hc
        exact hno (some .name) (mem_runOf_iff.mpr ⟨c, [], rfl, by simpa using hc, by simp⟩)
      have hequals : c ≠ '=' := by
        rintro rfl
        exact hno (some .equals) rfl
      have hcomma : c ≠ ',' := by
        rintro rfl
        exact hno (some .comma) rfl
      simp [tokensFrom, step, begin, hspace, hname, hquote, hequals, hcomma]
  · exact hunclosed us hus

theorem tokens_eq_of_cut (offset : Nat) {text : List Char} {pieces : List (Piece TokenKind)}
    (h : lexicon.Cut text pieces) : tokens offset text = Lexicon.tokensAt offset pieces := by
  induction h generalizing offset with
  | nil => rfl
  | @cons text rest piece pieces htext hpiece _ ih =>
    subst htext
    cases hpiece with
    | @word kind word hword hlongest =>
      cases kind with
      | none => exact (tokensFrom_spaces (spaces_of_mem hword) offset).trans (ih _)
      | some kind => exact (tokensFrom_of_mem hword hlongest offset).trans (congrArg _ (ih _))
    | error hnone hlongest =>
      exact (tokensFrom_of_none hnone hlongest offset).trans (congrArg _ (ih _))

/-- What stands between tokens: blanks. -/
def Gap (gap _behind : List Char) : Prop := ∀ c ∈ gap, c ∈ blanks

/-- **The lexer of records** follows the rules and covers its text. -/
theorem governs_tokens : lexicon.Governs Gap tokens := by
  apply Lexicon.governs tokens_eq_of_cut
  · intro behind
    simp [Gap]
  · intro word gap behind htakes hgap
    cases htakes with
    | word hword _ =>
      intro c hc
      rcases List.mem_append.mp hc with hword' | hgap'
      · exact isSpace_iff.mp (spaces_of_mem hword c hword')
      · exact hgap c hgap'

/-! ### Texts -/

/-- A text has units between its quotes. -/
theorem exists_units_of_mem_tokens {offset : Nat} {record : List Char} {t : Token TokenKind}
    (ht : t ∈ tokens offset record) (hkind : t.kind = .text) :
    ∃ us, t.text.toList = '"' :: unitsText us ++ ['"'] := by
  obtain ⟨pieces, hcut, -⟩ := governs_tokens.unique record
  rw [governs_tokens.cut offset hcut] at ht
  obtain ⟨piece, hpiece, rfl⟩ := Lexicon.kind_of_mem_tokensAt ht
  obtain ⟨rest, htakes⟩ := hcut.exists_takes _ hpiece
  rw [hkind] at htakes
  cases htakes with
  | word hword _ => exact mem_text_iff.mp hword

/-- **Quoted values are read back.**  Whatever a value is, it is one token between its quotes, and
    two values with a comma between them are two.  In turn every text of a record has units between
    its quotes, and what is read is the characters that these stand for. -/
theorem quote_lexes :
    (∀ offset value,
      tokens offset (quote value).toList =
          [⟨.text, quote value, ⟨offset, offset + byteLength (quote value).toList⟩⟩] ∧
        unquote (quote value) = value) ∧
      (∀ offset first second, ∃ t comma u,
        tokens offset (quote first ++ "," ++ quote second).toList = [t, comma, u] ∧
          t.kind = .text ∧ unquote t.text = first ∧ comma.kind = .comma ∧
          u.kind = .text ∧ unquote u.text = second) ∧
      ∀ offset record, ∀ t ∈ tokens offset record, t.kind = .text →
        ∃! us, t.text.toList = '"' :: unitsText us ++ ['"'] ∧
          unquote t.text = String.ofList (us.map QuotedUnit.char) := by
  refine ⟨?_, ?_, ?_⟩
  · intro offset value
    refine ⟨?_, unquote_quote value⟩
    have hquote := tokensFrom_quote value offset []
    rwa [List.append_nil] at hquote
  · intro offset first second
    obtain ⟨t, place, ht, hfirst, htokens⟩ := exists_quoteToken first offset
      (',' :: (quote second).toList)
    obtain ⟨u, stop, hu, hsecond, hlater⟩ := exists_quoteToken second (place + ','.utf8Size) []
    have hcomma : tokensFrom .nothing place (',' :: (quote second).toList) =
        .ofChars .comma place [','] ::
          tokensFrom .nothing (place + ','.utf8Size) (quote second).toList := rfl
    rw [List.append_nil] at hlater
    refine ⟨t, .ofChars .comma place [','], u, ?_, ht, ?_, rfl, hu, ?_⟩
    · simp only [tokens, String.toList_append, List.append_assoc]
      exact htokens.trans (congrArg _ (hcomma.trans (congrArg _ hlater)))
    · rw [hfirst, unquote_quote]
    · rw [hsecond, unquote_quote]
  · intro offset record t ht hkind
    obtain ⟨us, hus⟩ := exists_units_of_mem_tokens ht hkind
    refine ⟨us, ⟨hus, unquote_unitsText hus⟩, ?_⟩
    rintro others ⟨hothers, -⟩
    rw [hus] at hothers
    simp only [List.cons_append, List.cons.injEq, true_and, List.append_cancel_right_eq] at hothers
    exact (unitsText_injective hothers).symm

/-- A field with two values, the second with a backslash that it does not need. -/
def escapedText : List Char := "a=\"\\\"é\\\\\",\"\\x\"".toList

theorem quote_lexes_escapedText :
    tokens 3 (quote "\n\"\\").toList = [⟨.text, quote "\n\"\\", ⟨3, 10⟩⟩] ∧
      unquote (quote "\n\"\\") = "\n\"\\" ∧
      ⟨.text, "\"\\\"é\\\\\"", ⟨2, 10⟩⟩ ∈ tokens 0 escapedText ∧
      ∃! us, "\"\\\"é\\\\\"".toList = '"' :: unitsText us ++ ['"'] ∧
        unquote "\"\\\"é\\\\\"" = String.ofList (us.map QuotedUnit.char) := by
  obtain ⟨hone, -, hunits⟩ := quote_lexes
  obtain ⟨htokens, hread⟩ := hone 3 "\n\"\\"
  have hmem : ⟨.text, "\"\\\"é\\\\\"", ⟨2, 10⟩⟩ ∈ tokens 0 escapedText := by decide
  exact ⟨htokens, hread, hmem, hunits 0 escapedText _ hmem rfl⟩

end DecisionModel.TreeFile
