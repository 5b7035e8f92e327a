import Mathlib
import DecisionModel.Proofs.Source.Place

/-!
# Lexical rules

The rules of a lexer say which words there are of each kind, and which it skips.  The longest word
that stands in front of a text is its next piece; if there is none, the longest error is.  So the
rules cut every text, in one way only.

The pieces that are not skipped are tokens.  They stand in the text one behind the other, up to
its end, and between them is only what the rules skip.
-/

namespace DecisionModel

open Computability Text

/-! ### Languages -/

/-- One of the characters. -/
def among (cs : List Char) (c : Char) : Bool := cs.contains c

/-- None of the characters. -/
def outside (cs : List Char) (c : Char) : Bool := !cs.contains c

/-- A character with the property. -/
def oneOf (p : Char → Bool) : Language Char := {w | ∃ c, p c = true ∧ w = [c]}

/-- A character with the one property, and then characters with the other. -/
def runOf (p q : Char → Bool) : Language Char := oneOf p * (oneOf q)∗

theorem mem_kstar_oneOf_iff {q : Char → Bool} {w : List Char} :
    w ∈ (oneOf q)∗ ↔ ∀ c ∈ w, q c = true := by
  rw [Language.mem_kstar]
  constructor
  · rintro ⟨words, rfl, hwords⟩ c hc
    obtain ⟨word, hword, hmem⟩ := List.mem_flatten.mp hc
    obtain ⟨d, hd, rfl⟩ := hwords word hword
    rwa [List.mem_singleton.mp hmem]
  · intro hw
    refine ⟨w.map fun c => [c], ?_, ?_⟩
    · exact (List.flatMap_singleton' w).symm
    · intro word hword
      obtain ⟨c, hc, rfl⟩ := List.mem_map.mp hword
      exact ⟨c, hw c hc, rfl⟩

theorem mem_runOf_iff {p q : Char → Bool} {w : List Char} :
    w ∈ runOf p q ↔ ∃ c rest, w = c :: rest ∧ p c = true ∧ ∀ d ∈ rest, q d = true := by
  rw [runOf, Language.mem_mul]
  constructor
  · rintro ⟨_, ⟨c, hc, rfl⟩, rest, hrest, rfl⟩
    exact ⟨c, rest, rfl, hc, mem_kstar_oneOf_iff.mp hrest⟩
  · rintro ⟨c, rest, rfl, hc, hrest⟩
    exact ⟨[c], ⟨c, hc, rfl⟩, rest, mem_kstar_oneOf_iff.mpr hrest, rfl⟩

/-- The word is the longest of the language that the text begins with. -/
structure IsLongest (l : Language Char) (text word : List Char) : Prop where
  mem : word ∈ l
  begins : word <+: text
  longest : ∀ other ∈ l, other <+: text → other.length ≤ word.length

section

variable {l : Language Char} {text : List Char}

theorem exists_isLongest {word : List Char} (hmem : word ∈ l) (hbegins : word <+: text) :
    ∃ longest, IsLongest l text longest := by
  have hfinite : {w | w ∈ l ∧ w <+: text}.Finite := by
    apply text.inits.finite_toSet.subset
    rintro w ⟨-, hw⟩
    exact (List.mem_inits w text).mpr hw
  obtain ⟨longest, ⟨hlongest, hbegins⟩, hmax⟩ :=
    hfinite.exists_maximalFor List.length _ ⟨word, hmem, hbegins⟩
  refine ⟨longest, hlongest, hbegins, fun other hother hprefix => ?_⟩
  rcases Nat.le_total other.length longest.length with hle | hle
  · exact hle
  · exact hmax ⟨hother, hprefix⟩ hle

theorem IsLongest.eq {word other : List Char} (h : IsLongest l text word)
    (h' : IsLongest l text other) : word = other := by
  have hlength := Nat.le_antisymm (h'.longest word h.mem h.begins) (h.longest other h'.mem h'.begins)
  exact (List.prefix_of_prefix_length_le h.begins h'.begins hlength.le).eq_of_length hlength

/-- The longest word cannot be made longer by what is behind it. -/
theorem IsLongest.not_append_mem {word more rest : List Char}
    (h : IsLongest l (word ++ (more ++ rest)) word) (hmore : more ≠ []) : word ++ more ∉ l := by
  intro hmem
  have hle := h.longest _ hmem (by simp)
  rw [List.length_append] at hle
  have hpos := List.length_pos_iff.mpr hmore
  omega

/-- A run goes on as far as it can. -/
theorem IsLongest.runOf_ends {p q : Char → Bool} {word rest : List Char}
    (h : IsLongest l (word ++ rest) word) (hword : word ∈ runOf p q) (hruns : ∀ w ∈ runOf p q, w ∈ l) :
    ∀ c after, rest = c :: after → q c = false := by
  rintro d after rfl
  obtain ⟨c, cs, rfl, hc, hcs⟩ := mem_runOf_iff.mp hword
  have hlongest : IsLongest l (c :: cs ++ ([d] ++ after)) (c :: cs) := h
  by_contra hd
  apply hlongest.not_append_mem (List.cons_ne_nil d [])
  apply hruns
  refine mem_runOf_iff.mpr ⟨c, cs ++ [d], rfl, hc, ?_⟩
  intro e he
  rcases List.mem_append.mp he with hold | hnew
  · exact hcs e hold
  · rw [List.mem_singleton.mp hnew]
    simpa using hd

end

/-! ### Rules -/

/-- The rules of a lexer with tokens of some kinds, of which one is for errors. -/
structure Lexicon (κ : Type) where
  /-- The words of each kind, and without a kind those that are skipped. -/
  words : Option κ → Language Char
  error : κ
  /-- What is an error where there is no word. -/
  broken : Language Char
  /-- The kind of the words that begin with a character. -/
  kindOf : Char → Option κ
  begins {kind : Option κ} {word : List Char} : word ∈ words kind →
    ∃ c rest, word = c :: rest ∧ kindOf c = kind
  broken_ne_nil {word : List Char} : word ∈ broken → word ≠ []
  mem_broken (c : Char) : [c] ∈ broken

/-- A piece of text, with its kind unless it is skipped. -/
abbrev Piece (κ : Type) := Option κ × List Char

namespace Lexicon

variable {κ : Type} (l : Lexicon κ)

/-- The words of any kind. -/
def all : Language Char := {word | ∃ kind, word ∈ l.words kind}

/-- The first piece of the text: its longest word, or else its longest error. -/
inductive Takes (text : List Char) : Piece κ → Prop
  | word {kind : Option κ} {word : List Char} : word ∈ l.words kind →
      IsLongest l.all text word → Takes text (kind, word)
  | error {word : List Char} : (∀ other ∈ l.all, ¬ other <+: text) →
      IsLongest l.broken text word → Takes text (some l.error, word)

/-- The pieces are what the rules cut the text into. -/
inductive Cut : List Char → List (Piece κ) → Prop
  | nil : Cut [] []
  | cons {text rest : List Char} {piece : Piece κ} {pieces : List (Piece κ)} :
      text = piece.2 ++ rest → l.Takes text piece → Cut rest pieces → Cut text (piece :: pieces)

variable {l} {text : List Char} {pieces : List (Piece κ)}

theorem ne_nil {kind : Option κ} {word : List Char} (h : word ∈ l.words kind) : word ≠ [] := by
  obtain ⟨c, rest, rfl, -⟩ := l.begins h
  exact List.cons_ne_nil c rest

theorem disjoint {kind other : Option κ} {word : List Char} (h : word ∈ l.words kind)
    (h' : word ∈ l.words other) : kind = other := by
  obtain ⟨c, rest, rfl, hkind⟩ := l.begins h
  obtain ⟨c', rest', hword, hother⟩ := l.begins h'
  cases hword
  exact hkind.symm.trans hother

theorem Takes.ne_nil {piece : Piece κ} (h : l.Takes text piece) : piece.2 ≠ [] := by
  cases h with
  | word hword _ => exact Lexicon.ne_nil hword
  | error _ hlongest => exact l.broken_ne_nil hlongest.mem

theorem Takes.begins {piece : Piece κ} (h : l.Takes text piece) : piece.2 <+: text := by
  cases h with
  | word _ hlongest => exact hlongest.begins
  | error _ hlongest => exact hlongest.begins

theorem exists_takes (l : Lexicon κ) (h : text ≠ []) : ∃ piece, l.Takes text piece := by
  obtain ⟨c, rest, rfl⟩ := List.exists_cons_of_ne_nil h
  by_cases hword : ∃ word ∈ l.all, word <+: c :: rest
  · obtain ⟨word, hmem, hbegins⟩ := hword
    obtain ⟨longest, hlongest⟩ := exists_isLongest hmem hbegins
    obtain ⟨kind, hkind⟩ := hlongest.mem
    exact ⟨_, .word hkind hlongest⟩
  · push Not at hword
    have hbegins : [c] <+: c :: rest := by simp
    obtain ⟨longest, hlongest⟩ := exists_isLongest (l.mem_broken c) hbegins
    exact ⟨_, .error hword hlongest⟩

theorem Takes.eq {piece other : Piece κ} (h : l.Takes text piece) (h' : l.Takes text other) :
    piece = other := by
  cases h with
  | word hword hlongest =>
    cases h' with
    | word hword' hlongest' =>
      obtain rfl := hlongest.eq hlongest'
      rw [disjoint hword hword']
    | error hnone _ => exact absurd hlongest.begins (hnone _ hlongest.mem)
  | error hnone hlongest =>
    cases h' with
    | word _ hlongest' => exact absurd hlongest'.begins (hnone _ hlongest'.mem)
    | error _ hlongest' => rw [hlongest.eq hlongest']

theorem exists_cut (l : Lexicon κ) (text : List Char) : ∃ pieces, l.Cut text pieces := by
  by_cases hnil : text = []
  · subst hnil
    exact ⟨[], .nil⟩
  · obtain ⟨piece, hpiece⟩ := l.exists_takes hnil
    obtain ⟨rest, hrest⟩ := hpiece.begins
    have hshorter : rest.length < text.length := by
      have hpos := List.length_pos_iff.mpr hpiece.ne_nil
      have hlength := congrArg List.length hrest
      rw [List.length_append] at hlength
      omega
    obtain ⟨pieces, hpieces⟩ := exists_cut l rest
    exact ⟨piece :: pieces, .cons hrest.symm hpiece hpieces⟩
termination_by text.length

theorem Cut.eq {others : List (Piece κ)} (h : l.Cut text pieces) (h' : l.Cut text others) :
    pieces = others := by
  induction h generalizing others with
  | nil =>
    cases h' with
    | nil => rfl
    | cons htext hpiece _ => exact absurd (List.append_eq_nil_iff.mp htext.symm).1 hpiece.ne_nil
  | cons htext hpiece _ ih =>
    cases h' with
    | nil => exact absurd (List.append_eq_nil_iff.mp htext.symm).1 hpiece.ne_nil
    | cons htext' hpiece' hrest' =>
      obtain rfl := hpiece.eq hpiece'
      obtain rfl := List.append_cancel_left (htext.symm.trans htext')
      rw [ih hrest']

theorem Cut.exists_takes (h : l.Cut text pieces) :
    ∀ piece ∈ pieces, ∃ rest, l.Takes (piece.2 ++ rest) piece := by
  induction h with
  | nil => simp
  | @cons text rest piece pieces htext hpiece _ ih =>
    subst htext
    exact List.forall_mem_cons.mpr ⟨⟨rest, hpiece⟩, ih⟩

/-- **The rules cut every text** in one way. -/
theorem existsUnique_cut (l : Lexicon κ) (text : List Char) : ∃! pieces, l.Cut text pieces := by
  obtain ⟨pieces, hpieces⟩ := l.exists_cut text
  refine ⟨pieces, hpieces, ?_⟩
  intro others hothers
  exact hothers.eq hpieces

/-! ### Pieces as tokens -/

/-- The pieces that are not skipped, as tokens of text at the place. -/
def tokensAt (place : Nat) : List (Piece κ) → List (Token κ)
  | [] => []
  | (none, word) :: pieces => tokensAt (place + byteLength word) pieces
  | (some kind, word) :: pieces =>
    .ofChars kind place word :: tokensAt (place + byteLength word) pieces

theorem tokensAt_shift (place k : Nat) (pieces : List (Piece κ)) :
    tokensAt (place + k) pieces = (tokensAt place pieces).map (·.shift k) := by
  induction pieces generalizing place with
  | nil => rfl
  | cons piece pieces ih =>
    obtain ⟨_ | kind, word⟩ := piece
    · rw [tokensAt, tokensAt, Nat.add_right_comm, ih]
    · rw [tokensAt, tokensAt, List.map_cons, Nat.add_right_comm, ih]
      simp only [Token.ofChars, Token.shift, Span.shift, Nat.add_right_comm]

theorem kind_of_mem_tokensAt {place : Nat} {t : Token κ} (h : t ∈ tokensAt place pieces) :
    ∃ piece ∈ pieces, piece = (some t.kind, t.text.toList) := by
  induction pieces generalizing place with
  | nil => cases h
  | cons piece pieces ih =>
    obtain ⟨_ | kind, word⟩ := piece
    · obtain ⟨piece, hpiece, rfl⟩ := ih h
      exact ⟨_, by simp [hpiece], rfl⟩
    · rcases List.mem_cons.mp h with rfl | hlater
      · exact ⟨_, List.mem_cons_self, by simp [Token.ofChars]⟩
      · obtain ⟨piece, hpiece, rfl⟩ := ih hlater
        exact ⟨_, by simp [hpiece], rfl⟩

end Lexicon

/-! ### Tokens and gaps -/

/-- The tokens stand in the text at the place, up to its end, with gaps between them.  The first
    argument says what can be a gap in front of what. -/
inductive Spread {κ : Type} (Gap : List Char → List Char → Prop) :
    Nat → List Char → List (Token κ) → Prop
  | last {place : Nat} {gap : List Char} : Gap gap [] → Spread Gap place gap []
  | token {place : Nat} {gap word rest : List Char} {kind : κ} {ts : List (Token κ)} :
      Gap gap (word ++ rest) → word ≠ [] →
      Spread Gap (place + byteLength (gap ++ word)) rest ts →
      Spread Gap place (gap ++ (word ++ rest))
        (.ofChars kind (place + byteLength gap) word :: ts)

namespace Spread

variable {κ : Type} {Gap : List Char → List Char → Prop} {place : Nat} {text : List Char}
  {ts : List (Token κ)}

/-- A longer gap in front. -/
theorem skip {word : List Char} (h : Spread Gap (place + byteLength word) text ts)
    (hgap : ∀ gap behind, text = gap ++ behind → Gap gap behind → Gap (word ++ gap) behind) :
    Spread Gap place (word ++ text) ts := by
  cases h with
  | last hlast => exact .last (hgap _ [] (by simp) hlast)
  | @token _ gap next rest kind ts hnext hne hts =>
    have hstart : place + byteLength word + byteLength gap =
        place + byteLength (word ++ gap) := by simp [Nat.add_assoc]
    have hstop : place + byteLength word + byteLength (gap ++ next) =
        place + byteLength (word ++ gap ++ next) := by simp [Nat.add_assoc]
    rw [hstart, ← List.append_assoc]
    rw [hstop] at hts
    exact .token (hgap gap _ rfl hnext) hne hts

theorem between (h : Spread Gap place text ts) :
    Token.Between place ts (place + byteLength text) := by
  induction h with
  | last _ => exact .nil (Nat.le_add_right _ _)
  | @token place gap word rest kind ts _ hne _ ih =>
    have hstop : place + byteLength (gap ++ (word ++ rest)) =
        place + byteLength (gap ++ word) + byteLength rest := by simp [Nat.add_assoc]
    have hword : Token.Between (place + byteLength gap)
        [Token.ofChars kind (place + byteLength gap) word] (place + byteLength (gap ++ word)) := by
      rw [byteLength_append, ← Nat.add_assoc]
      exact .ofChars kind hne _
    rw [hstop]
    exact (hword.append ih).weaken (Nat.le_add_right _ _)

theorem standsIn (h : Spread Gap place text ts) :
    ∀ t ∈ ts, t.text ≠ "" ∧ t.StandsIn place text := by
  induction h with
  | last _ => simp
  | @token place gap word rest kind ts _ hne _ ih =>
    intro t ht
    rcases List.mem_cons.mp ht with rfl | hlater
    · refine ⟨by simpa [Token.ofChars] using hne, gap, rest, ?_, rfl, ?_⟩
      · simp [Token.ofChars]
      · simp [Token.ofChars]
    · obtain ⟨hnonempty, before, after, htext, hstart, hstop⟩ := ih t hlater
      refine ⟨hnonempty, gap ++ word ++ before, after, by simp [htext], ?_, hstop⟩
      rw [hstart, byteLength_append _ before, Nat.add_assoc]

end Spread

/-- If what is skipped makes gaps, the tokens of a text are spread over it. -/
theorem Lexicon.Cut.spread {κ : Type} {l : Lexicon κ} {Gap : List Char → List Char → Prop}
    (nil : ∀ behind, Gap [] behind)
    (skip : ∀ word gap behind, l.Takes (word ++ (gap ++ behind)) (none, word) → Gap gap behind →
      Gap (word ++ gap) behind)
    {text : List Char} {pieces : List (Piece κ)} (h : l.Cut text pieces) (place : Nat) :
    Spread Gap place text (tokensAt place pieces) := by
  induction h generalizing place with
  | nil => exact .last (nil [])
  | @cons text rest piece pieces htext hpiece _ ih =>
    obtain ⟨_ | kind, word⟩ := piece
    · subst htext
      apply (ih (place + byteLength word)).skip
      rintro gap behind rfl hgap
      exact skip word gap behind hpiece hgap
    · subst htext
      -- the gap in front is empty
      exact @Spread.token κ Gap place [] word rest kind _ (nil _) hpiece.ne_nil
        (ih (place + byteLength word))

/-! ### What a lexer guarantees -/

/-- The lexer follows the rules and covers its text, wherever that stands. -/
structure Lexicon.Governs {κ : Type} (l : Lexicon κ) (Gap : List Char → List Char → Prop)
    (lexer : Nat → List Char → List (Token κ)) : Prop where
  unique (text : List Char) : ∃! pieces, l.Cut text pieces
  /-- The tokens are the pieces that the rules cut the text into. -/
  cut (offset : Nat) {text : List Char} {pieces : List (Piece κ)} : l.Cut text pieces →
    lexer offset text = tokensAt offset pieces
  /-- Between them and up to the end there are gaps only. -/
  spread (offset : Nat) (text : List Char) : Spread Gap offset text (lexer offset text)
  /-- They are pieces of the text, with borders of characters at both ends. -/
  each (offset : Nat) (text : List Char) : ∀ t ∈ lexer offset text,
    t.text ≠ "" ∧ t.StandsIn offset text ∧ t.span.Within offset text
  ordered (offset : Nat) (text : List Char) :
    (lexer offset text).Pairwise fun t u => t.span.stop ≤ u.span.start
  shifted (offset k : Nat) (text : List Char) :
    lexer (offset + k) text = (lexer offset text).map (·.shift k)

/-- **A lexer that follows rules** covers its text. -/
theorem Lexicon.governs {κ : Type} {l : Lexicon κ} {Gap : List Char → List Char → Prop}
    {lexer : Nat → List Char → List (Token κ)}
    (follows : ∀ offset {text pieces}, l.Cut text pieces →
      lexer offset text = tokensAt offset pieces)
    (nil : ∀ behind, Gap [] behind)
    (skip : ∀ word gap behind, l.Takes (word ++ (gap ++ behind)) (none, word) → Gap gap behind →
      Gap (word ++ gap) behind) :
    l.Governs Gap lexer := by
  have hspread : ∀ offset text, Spread Gap offset text (lexer offset text) := by
    intro offset text
    obtain ⟨pieces, hpieces⟩ := l.exists_cut text
    rw [follows offset hpieces]
    exact hpieces.spread nil skip offset
  refine ⟨l.existsUnique_cut, follows, hspread, ?_, ?_, ?_⟩
  · intro offset text t ht
    obtain ⟨hnonempty, hstands⟩ := (hspread offset text).standsIn t ht
    exact ⟨hnonempty, hstands, Span.Covers.within hstands⟩
  · intro offset text
    exact (hspread offset text).between.pairwise
  · intro offset k text
    obtain ⟨pieces, hpieces⟩ := l.exists_cut text
    rw [follows _ hpieces, follows _ hpieces, tokensAt_shift]

end DecisionModel
