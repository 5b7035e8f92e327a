import DecisionModel.Proofs.Names.Acceptance

/-!
# Schema text in any layout

Statements can be written with blanks and comments in front of, between and behind their words.
Whatever the layout, the text is read as the schema that the statements describe: an attribute
for each definition, in order, and the decision that is declared last.
-/

namespace DecisionModel.Names

open Text

/-! ### What is written -/

/-- A name that schema text can spell. -/
abbrev Name := { name : String // IsName name }

/-- A statement to be written. -/
inductive Entry where
  | declaration (name : Name)
  /-- A definition with its first value and the other ones. -/
  | definition (name first : Name) (more : List Name)

/-- A token to be written. -/
inductive Word where
  | name (n : Name)
  | dot
  | colon
  | comma

def Word.kind : Word → TokenKind
  | .name _ => .name
  | .dot => .dot
  | .colon => .colon
  | .comma => .comma

def Word.text : Word → String
  | .name n => n.1
  | .dot => "."
  | .colon => ":"
  | .comma => ","

/-- Names, each with a comma in front. -/
def commaNames (names : List Name) : List Word := names.flatMap fun n => [.comma, .name n]

namespace Entry

def words : Entry → List Word
  | .declaration name => [.name name, .dot]
  | .definition name first more =>
    [.name name, .colon, .name first] ++ commaNames more ++ [.dot]

def declared? : Entry → Option String
  | .declaration name => some name.1
  | .definition .. => none

def defined? : Entry → Option (String × List String)
  | .declaration _ => none
  | .definition name first more => some (name.1, first.1 :: more.map (·.1))

end Entry

/-- The names that are declared, in order. -/
def declaredBy (entries : List Entry) : List String := entries.filterMap Entry.declared?

/-- The attributes that are defined with their values, in order. -/
def definedBy (entries : List Entry) : List (String × List String) :=
  entries.filterMap Entry.defined?

/-- The attribute of a definition at a position. -/
def describe (i : Nat) : String × List String → Attribute
  | (name, values) =>
    if values = [State.continuous] then ⟨name, ⟨i⟩, .continuous, .unbound, []⟩
    else ⟨name, ⟨i⟩, .enumerated, .unbound, numbered values⟩

/-! ### How it is written -/

/-- What a comment says, on its line. -/
abbrev Comment := { text : List Char // '\n' ∉ text }

/-- A piece of text that says nothing: a blank, or a comment with its line feed. -/
inductive Filler where
  | space (c : { c : Char // isSpace c = true })
  | comment (text : Comment)

def Filler.chars : Filler → List Char
  | .space c => [c.1]
  | .comment text => '|' :: (text.1 ++ ['\n'])

/-- The end of a text: nothing, or a comment without a line feed. -/
def endingChars : Option Comment → List Char
  | none => []
  | some text => '|' :: text.1

/-- The text of words.  The filling says what stands in front of the word with each number,
    and behind the last. -/
def layOut (ending : Option Comment) : List Word → (Nat → List Filler) → List Char
  | [], filling => (filling 0).flatMap Filler.chars ++ endingChars ending
  | w :: words, filling =>
    (filling 0).flatMap Filler.chars ++
      (w.text.toList ++ layOut ending words fun i => filling (i + 1))

/-! ### The tokens of a layout -/

/-- The text cannot go on with a name that stands in front of it. -/
def EndsName (text : List Char) : Prop := ∀ c rest, text = c :: rest → isNameChar c = false

/-- The text cannot go on with a line that stands in front of it. -/
def EndsLine (text : List Char) : Prop := ∀ c rest, text = c :: rest → c = '\n'

theorem isNameChar_of_isSpace {c : Char} (h : isSpace c = true) : isNameChar c = false := by
  simp [isNameChar, h]

theorem separator?_of_isNameChar {c : Char} (h : isNameChar c = true) :
    separator? c = none ∧ c ≠ '|' ∧ isSpace c = false := by
  simp only [isNameChar, Bool.and_eq_true, Bool.not_eq_true', Option.isNone_iff_eq_none,
    bne_iff_ne] at h
  exact ⟨h.1.2, h.2, h.1.1⟩

theorem separator?_of_isSpace {c : Char} (h : isSpace c = true) : separator? c = none := by
  unfold separator?
  split
  all_goals first
    | rfl
    | revert h; decide

theorem ne_bar_of_isSpace {c : Char} (h : isSpace c = true) : c ≠ '|' := by
  rintro rfl
  revert h
  decide

/-- Inside of a comment nothing is read up to the end of the line. -/
theorem tokensFrom_comment {cs : List Char} (hcs : '\n' ∉ cs) {rest : List Char}
    (hrest : EndsLine rest) (place : Nat) :
    tokensFrom .comment place (cs ++ rest) = tokensFrom .nothing (place + byteLength cs) rest := by
  have hskip : ∀ c ∈ cs, ∀ place, step place c .comment = ([], .comment) := by
    intro c hc place
    have hfeed : c ≠ '\n' := fun h => hcs (h ▸ hc)
    rw [step, if_neg hfeed]
  rw [scans.skip hskip]
  cases rest with
  | nil => rfl
  | cons c rest =>
    obtain rfl := hrest c rest rfl
    rfl

theorem tokensFrom_bar {cs : List Char} (hcs : '\n' ∉ cs) {rest : List Char}
    (hrest : EndsLine rest) (place : Nat) :
    tokensFrom .nothing place ('|' :: cs ++ rest) =
      tokensFrom .nothing (place + byteLength ('|' :: cs)) rest := by
  have hopen : tokensFrom .nothing place ('|' :: cs ++ rest) =
      tokensFrom .comment (place + '|'.utf8Size) (cs ++ rest) := rfl
  rw [hopen, tokensFrom_comment hcs hrest, byteLength_cons, Nat.add_assoc]

theorem tokensFrom_ending (ending : Option Comment) (place : Nat) :
    tokensFrom .nothing place (endingChars ending) = [] := by
  cases ending with
  | none => rfl
  | some text =>
    have hend : EndsLine [] := nofun
    have hclose := tokensFrom_bar text.2 hend place
    rwa [List.append_nil] at hclose

theorem step_space {c : Char} (hc : isSpace c = true) (place : Nat) :
    step place c .nothing = ([], .nothing) := by
  simp only [step, begin, separator?_of_isSpace hc, if_neg (ne_bar_of_isSpace hc), hc, if_true]

theorem tokensFrom_spaces {word : List Char} (h : ∀ c ∈ word, isSpace c = true) (place : Nat)
    (rest : List Char) :
    tokensFrom .nothing place (word ++ rest) =
      tokensFrom .nothing (place + byteLength word) rest :=
  scans.skip (fun c hc => step_space (h c hc)) place rest

/-- Blanks and comments have no tokens. -/
theorem tokensFrom_fillers (fillers : List Filler) (rest : List Char) (place : Nat) :
    ∃ next, tokensFrom .nothing place (fillers.flatMap Filler.chars ++ rest) =
      tokensFrom .nothing next rest := by
  induction fillers generalizing place with
  | nil => exact ⟨place, rfl⟩
  | cons filler fillers ih =>
    rw [List.flatMap_cons, List.append_assoc]
    cases filler with
    | space c =>
      obtain ⟨next, hnext⟩ := ih (place + c.1.utf8Size)
      have hspace : ∀ d ∈ [c.1], isSpace d = true := by
        simpa using c.2
      exact ⟨next, (tokensFrom_spaces hspace place _).trans hnext⟩
    | comment text =>
      have hfeed : EndsLine ('\n' :: (fillers.flatMap Filler.chars ++ rest)) := by
        rintro c cs ⟨⟩
        rfl
      have hcomment := tokensFrom_bar text.2 hfeed place
      obtain ⟨next, hnext⟩ := ih (place + byteLength ('|' :: text.1) + '\n'.utf8Size)
      refine ⟨next, ?_⟩
      rw [Filler.chars, List.cons_append, List.append_assoc, List.singleton_append]
      exact hcomment.trans hnext

/-- A name is read as far as it goes. -/
theorem tokensFrom_name {cs : List Char} (hcs : ∀ c ∈ cs, isNameChar c = true)
    {rest : List Char} (hrest : EndsName rest) (start : Nat) (reversed : List Char) (place : Nat) :
    tokensFrom (.name start reversed) place (cs ++ rest) =
      nameToken start (cs.reverse ++ reversed) ::
        tokensFrom .nothing (place + byteLength cs) rest := by
  have hstep : ∀ c ∈ cs, ∀ place reversed,
      step place c (.name start reversed) = ([], .name start (c :: reversed)) := by
    intro c hc place reversed
    rw [step, if_pos (hcs c hc)]
  rw [scans.collect (.name start) hstep]
  cases rest with
  | nil => rfl
  | cons c rest =>
    have hc := hrest c rest rfl
    simp only [tokensFrom, step, hc, Bool.false_eq_true, if_false, List.cons_append]

/-- A name that ends is a token. -/
theorem tokensFrom_nameToken {c : Char} {cs : List Char} (h : ∀ d ∈ c :: cs, isNameChar d = true)
    {rest : List Char} (hrest : EndsName rest) (place : Nat) :
    tokensFrom .nothing place (c :: cs ++ rest) =
      .ofChars .name place (c :: cs) ::
        tokensFrom .nothing (place + byteLength (c :: cs)) rest := by
  obtain ⟨hseparator, hbar, hspace⟩ := separator?_of_isNameChar (h c List.mem_cons_self)
  have hname := tokensFrom_name (fun d hd => h d (List.mem_cons_of_mem c hd)) hrest place [c]
    (place + c.utf8Size)
  simp only [List.cons_append, tokensFrom, step, begin, hseparator, if_neg hbar, hspace,
    Bool.false_eq_true, if_false, List.nil_append]
  rw [hname, nameToken, byteLength_cons, ← Nat.add_assoc]
  simp

/-- What a token says, apart from its place. -/
def said (t : Token TokenKind) : TokenKind × String := (t.kind, t.text)

def Word.said (w : Word) : TokenKind × String := (w.kind, w.text)

/-- A word is read as a token, if it is not a name that the text goes on with. -/
theorem tokensFrom_word (w : Word) {rest : List Char}
    (hrest : w.kind = .name → EndsName rest) (place : Nat) :
    ∃ t next, tokensFrom .nothing place (w.text.toList ++ rest) =
      t :: tokensFrom .nothing next rest ∧ said t = w.said := by
  cases w with
  | name n =>
    obtain ⟨n, hne, hchars⟩ := n
    obtain ⟨c, cs, hn⟩ := List.exists_cons_of_ne_nil hne
    rw [hn] at hchars
    refine ⟨.ofChars .name place (c :: cs), place + byteLength (c :: cs), ?_, ?_⟩
    · rw [Word.text, hn]
      exact tokensFrom_nameToken hchars (hrest rfl) place
    · have htext : String.ofList (c :: cs) = n := by rw [← hn, String.ofList_toList]
      simp [said, Word.said, Word.kind, Word.text, Token.ofChars, htext]
  | dot => exact ⟨.ofChars .dot place ['.'], _, rfl, rfl⟩
  | colon => exact ⟨.ofChars .colon place [':'], _, rfl, rfl⟩
  | comma => exact ⟨.ofChars .comma place [','], _, rfl, rfl⟩

/-- Between two names there is another word. -/
def Apart : List Word → Prop
  | [] => True
  | w :: words => (w.kind = .name → ∀ next ∈ words.head?, next.kind ≠ .name) ∧ Apart words

theorem endsName_fillers (fillers : List Filler) {rest : List Char} (h : EndsName rest) :
    EndsName (fillers.flatMap Filler.chars ++ rest) := by
  cases fillers with
  | nil => exact h
  | cons filler fillers =>
    rintro c cs heq
    cases filler with
    | space d =>
      cases heq
      exact isNameChar_of_isSpace d.2
    | comment text =>
      cases heq
      decide

theorem endsName_layOut (ending : Option Comment) {words : List Word}
    (h : ∀ next ∈ words.head?, next.kind ≠ .name) (filling : Nat → List Filler) :
    EndsName (layOut ending words filling) := by
  cases words with
  | nil =>
    refine endsName_fillers _ ?_
    rintro c cs heq
    cases ending with
    | none => cases heq
    | some text =>
      cases heq
      decide
  | cons w words =>
    refine endsName_fillers _ ?_
    rintro c cs heq
    cases w with
    | name n => exact absurd rfl (h (.name n) rfl)
    | dot | colon | comma =>
      cases heq
      decide

/-- **The tokens of a layout are its words.** -/
theorem said_layOut (ending : Option Comment) {words : List Word} (h : Apart words) :
    ∀ (filling : Nat → List Filler) (place : Nat),
      (tokensFrom .nothing place (layOut ending words filling)).map said = words.map Word.said := by
  induction words with
  | nil =>
    intro filling place
    obtain ⟨next, hnext⟩ := tokensFrom_fillers (filling 0) (endingChars ending) place
    rw [layOut, hnext, tokensFrom_ending]
    rfl
  | cons w words ih =>
    obtain ⟨hw, hwords⟩ := h
    intro filling place
    have hrest : w.kind = .name → EndsName (layOut ending words fun i => filling (i + 1)) :=
      fun hname => endsName_layOut ending (hw hname) _
    obtain ⟨middle, hmiddle⟩ := tokensFrom_fillers (filling 0)
      (w.text.toList ++ layOut ending words fun i => filling (i + 1)) place
    obtain ⟨t, next, hword, hsaid⟩ := tokensFrom_word w hrest middle
    rw [layOut, hmiddle, hword, List.map_cons, List.map_cons, hsaid, ih hwords]

/-! ### The statements of a layout -/

theorem apart_values {rest : List Word} (hrest : Apart rest) (more : List Name) :
    ∀ value : Name, Apart (.name value :: (commaNames more ++ .dot :: rest)) := by
  induction more with
  | nil =>
    intro value
    simp [commaNames, Apart, Word.kind, hrest]
  | cons next more ih =>
    intro value
    refine ⟨?_, ?_, ih next⟩
    · simp [commaNames, Word.kind]
    · simp [Word.kind]

/-- In statements every name has another word behind it. -/
theorem apart_words (entries : List Entry) : Apart (entries.flatMap Entry.words) := by
  induction entries with
  | nil => trivial
  | cons entry entries ih =>
    rw [List.flatMap_cons]
    cases entry with
    | declaration name => simp [Entry.words, Apart, Word.kind, ih]
    | definition name first more =>
      have hvalues := apart_values ih more first
      simpa [Entry.words, Apart, Word.kind] using hvalues

theorem exists_tokenOf {t : Token TokenKind} {kind : TokenKind} {text : String}
    (h : said t = (kind, text)) : ∃ u : TokenOf kind, t = u.1 ∧ u.1.text = text := by
  cases h
  exact ⟨⟨t, rfl⟩, rfl, rfl⟩

/-- Tokens that say names with commas. -/
theorem exists_pairs (more : List Name) {words : List Word} :
    ∀ {ts : List (Token TokenKind)},
      ts.map said = (commaNames more ++ words).map Word.said →
      ∃ (pairs : List (TokenOf .comma × TokenOf .name)) (rest : List (Token TokenKind)),
        ts = (pairs.flatMap fun (comma, value) => [comma.1, value.1]) ++ rest ∧
          pairs.map (·.2.1.text) = more.map (·.1) ∧ rest.map said = words.map Word.said := by
  induction more with
  | nil => exact fun h => ⟨[], _, rfl, rfl, h⟩
  | cons value more ih =>
    intro ts h
    obtain ⟨t, _, rfl, ht, h₁⟩ := List.map_eq_cons_iff.mp h
    obtain ⟨u, _, rfl, hu, h₂⟩ := List.map_eq_cons_iff.mp h₁
    obtain ⟨comma, rfl, -⟩ := exists_tokenOf ht
    obtain ⟨name, rfl, hname⟩ := exists_tokenOf hu
    obtain ⟨pairs, rest, rfl, hpairs, hrest⟩ := ih h₂
    refine ⟨(comma, name) :: pairs, rest, rfl, ?_, hrest⟩
    rw [List.map_cons, List.map_cons, hpairs, hname]
    rfl

/-- Tokens that say the words of a statement are those of a statement. -/
theorem exists_statement (entry : Entry) {words : List Word} {ts : List (Token TokenKind)}
    (h : ts.map said = (entry.words ++ words).map Word.said) :
    ∃ (st : Statement) (rest : List (Token TokenKind)), ts = st.tokens ++ rest ∧
      st.defined?.map (fun (m, values) => (m.name, values)) = entry.defined? ∧
      st.declared?.map (·.1.name) = entry.declared? ∧ rest.map said = words.map Word.said := by
  cases entry with
  | declaration name =>
    obtain ⟨t, _, rfl, ht, h₁⟩ := List.map_eq_cons_iff.mp h
    obtain ⟨u, rest, rfl, hu, h₂⟩ := List.map_eq_cons_iff.mp h₁
    obtain ⟨n, rfl, hn⟩ := exists_tokenOf ht
    obtain ⟨dot, rfl, -⟩ := exists_tokenOf hu
    exact ⟨.declaration n dot, rest, rfl, rfl, congrArg some hn, h₂⟩
  | definition name first more =>
    rw [Entry.words, List.append_assoc, List.append_assoc] at h
    obtain ⟨t, _, rfl, ht, h₁⟩ := List.map_eq_cons_iff.mp h
    obtain ⟨u, _, rfl, hu, h₂⟩ := List.map_eq_cons_iff.mp h₁
    obtain ⟨v, _, rfl, hv, h₃⟩ := List.map_eq_cons_iff.mp h₂
    obtain ⟨pairs, _, rfl, hpairs, h₄⟩ := exists_pairs more h₃
    obtain ⟨w, rest, rfl, hw, h₅⟩ := List.map_eq_cons_iff.mp h₄
    obtain ⟨n, rfl, hn⟩ := exists_tokenOf ht
    obtain ⟨colon, rfl, -⟩ := exists_tokenOf hu
    obtain ⟨f, rfl, hf⟩ := exists_tokenOf hv
    obtain ⟨dot, rfl, -⟩ := exists_tokenOf hw
    have hvalues : Statement.valuesOf f pairs = first.1 :: more.map (·.1) :=
      congrArg₂ List.cons hf hpairs
    refine ⟨.definition n colon f pairs dot, rest, ?_, ?_, rfl, h₅⟩
    · simp [Statement.tokens, Statement.upToValue]
    · simp only [Statement.defined?, Option.map_some, hvalues, Mention.ofToken, hn]
      rfl

theorem exists_statements (entries : List Entry) :
    ∀ {ts : List (Token TokenKind)},
      ts.map said = (entries.flatMap Entry.words).map Word.said →
      ∃ ss, ts = ss.flatMap Statement.tokens ∧
        (definitions ss).map (fun (m, values) => (m.name, values)) = definedBy entries ∧
        (declarations ss).map (·.1.name) = declaredBy entries := by
  induction entries with
  | nil =>
    intro ts h
    rw [List.map_eq_nil_iff.mp h]
    exact ⟨[], rfl, rfl, rfl⟩
  | cons entry entries ih =>
    intro ts h
    rw [List.flatMap_cons] at h
    obtain ⟨st, rest, rfl, hdefined, hdeclared, hrest⟩ := exists_statement entry h
    obtain ⟨ss, rfl, hdefinitions, hdeclarations⟩ := ih hrest
    refine ⟨st :: ss, rfl, ?_, ?_⟩
    · unfold definitions definedBy at hdefinitions ⊢
      rw [List.map_filterMap] at hdefinitions ⊢
      rw [List.filterMap_cons, List.filterMap_cons, hdefined, hdefinitions]
    · unfold declarations declaredBy at hdeclarations ⊢
      rw [List.map_filterMap] at hdeclarations ⊢
      rw [List.filterMap_cons, List.filterMap_cons, hdeclared, hdeclarations]

/-! ### The schema of a layout -/

theorem attributesOf_eq_mapIdx_describe (ss : List Statement) :
    attributesOf (definitions ss) =
      ((definitions ss).map fun (m, values) => (m.name, values)).mapIdx describe := by
  apply List.ext_getElem?
  intro i
  simp only [attributesOf, List.getElem?_mapIdx, List.getElem?_map, Option.map_map]
  rcases hi : (definitions ss)[i]? with _ | ⟨m, values⟩
  · rfl
  · have hne := values_ne_nil (List.mem_of_getElem? hi)
    simp only [Option.map_some, Function.comp_apply, describe, attributeOf_eq m.name ⟨i⟩ hne]
    rfl

theorem map_valueType_describe (defined : List (String × List String)) :
    (defined.mapIdx describe).map (·.valueType) = defined.map fun (_, values) =>
      if values = [State.continuous] then ValueType.floating else ValueType.integer := by
  apply List.ext_getElem?
  intro i
  simp only [List.getElem?_map, List.getElem?_mapIdx, Option.map_map]
  rcases defined[i]? with _ | ⟨name, values⟩
  · rfl
  · simp only [Option.map_some, Function.comp_apply, describe]
    split <;> rfl

/-- **Schema text is read as the schema that its statements describe**, in any layout, if no
    attribute is defined twice and the decision that is declared last is defined with values. -/
theorem parse_layOut {entries : List Entry} (distinct : ((definedBy entries).map (·.1)).Nodup)
    {decision : String} (last : (declaredBy entries).getLast? = some decision)
    {values : List String} (defined : (decision, values) ∈ definedBy entries)
    (enumerated : values ≠ [State.continuous]) (filling : Nat → List Filler)
    (ending : Option Comment) (file : String) :
    ∃ schema, parse ⟨file, String.ofList
        (layOut ending (entries.flatMap Entry.words) filling)⟩ = .ok schema ∧
      schema.attributes = (definedBy entries).mapIdx describe ∧
      schema.attributes.map (·.valueType) = ((definedBy entries).map fun (_, values) =>
        if values = [State.continuous] then ValueType.floating else ValueType.integer) ∧
      schema.decisionAttribute.name = decision := by
  have hsaid := said_layOut ending (apart_words entries) filling 0
  obtain ⟨ss, htokens, hdefined, hdeclared⟩ := exists_statements entries hsaid
  have hss : ConsistsOf ⟨file, String.ofList
      (layOut ending (entries.flatMap Entry.words) filling)⟩ ss := by
    unfold ConsistsOf tokens
    rw [String.toList_ofList, htokens]
  have hdistinct : Distinct ss := by
    unfold Distinct definedNames
    rw [← hdefined, List.map_map] at distinct
    exact distinct
  have hdecides : Decides ss decision := by
    rw [← hdeclared, List.getLast?_map] at last
    obtain ⟨⟨d, stop⟩, hlast, rfl⟩ := Option.map_eq_some_iff.mp last
    rw [← hdefined] at defined
    obtain ⟨⟨m, vs⟩, hmem, heq⟩ := List.mem_map.mp defined
    obtain ⟨hname, rfl⟩ := Prod.mk.inj heq
    exact .declared hlast hmem hname enumerated
  obtain ⟨schema, hparse, hattributes, hname⟩ := parse_of_decides hss hdistinct hdecides
  rw [attributesOf_eq_mapIdx_describe, hdefined] at hattributes
  refine ⟨schema, hparse, hattributes, ?_, hname⟩
  rw [hattributes, map_valueType_describe]

/-- A comment stands in front of the declaration, and blanks and a comment between the words of
    the first definition.  A value is listed twice, and the text ends within a comment. -/
def spacedNames : SourceFile where
  name := "spaced.names"
  content := "| the mixer
state.state :stop,| and
stop,play.level:continuous.| the end"

def spacedEntries : List Entry :=
  [.declaration ⟨"state", by decide⟩,
    .definition ⟨"state", by decide⟩ ⟨"stop", by decide⟩
      [⟨"stop", by decide⟩, ⟨"play", by decide⟩],
    .definition ⟨"level", by decide⟩ ⟨"continuous", by decide⟩ []]

def spacedFilling : Nat → List Filler
  | 0 => [.comment ⟨" the mixer".toList, by decide⟩]
  | 3 => [.space ⟨' ', by decide⟩]
  | 6 => [.comment ⟨" and".toList, by decide⟩]
  | _ => []

theorem parse_spacedNames :
    ∃ schema, parse spacedNames = .ok schema ∧
      schema.attributes =
        [⟨"state", ⟨0⟩, .enumerated, .unbound, [("stop", 0), ("play", 1)]⟩,
          ⟨"level", ⟨1⟩, .continuous, .unbound, []⟩] ∧
      schema.decisionAttribute.name = "state" := by
  have hdistinct : ((definedBy spacedEntries).map (·.1)).Nodup := by decide
  have hlast : (declaredBy spacedEntries).getLast? = some "state" := by decide
  have hdefined : ("state", ["stop", "stop", "play"]) ∈ definedBy spacedEntries := by decide
  obtain ⟨schema, hparse, hattributes, -, hname⟩ := parse_layOut hdistinct hlast hdefined
    (by decide) spacedFilling (some ⟨" the end".toList, by decide⟩) "spaced.names"
  have htext : String.ofList (layOut (some ⟨" the end".toList, by decide⟩)
      (spacedEntries.flatMap Entry.words) spacedFilling) = spacedNames.content := by decide
  rw [htext] at hparse
  exact ⟨schema, hparse, hattributes.trans (by decide), hname⟩

end DecisionModel.Names
