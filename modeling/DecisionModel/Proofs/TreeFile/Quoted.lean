import DecisionModel.Proofs.Source.Token
import DecisionModel.TreeFile.Quoting
import DecisionModel.TreeFile.Token

/-!
# Quoted values

Between quotes a value is written in units: a character by itself, or a backslash with the
character that it takes along.  The lexer finds the end of a quoted value by passing over units,
and its value is what the units stand for.  So the lexer and the reading of escapes agree on every
value, whatever characters it has.
-/

namespace DecisionModel.TreeFile

open Text

/-! ### Units -/

/-- A character between quotes, as it is written. -/
inductive QuotedUnit where
  | plain (c : Char) (h : c ≠ '"' ∧ c ≠ '\\')
  | escaped (c : Char) (h : c ≠ '\n')

namespace QuotedUnit

def text : QuotedUnit → List Char
  | .plain c _ => [c]
  | .escaped c _ => ['\\', c]

/-- The character that the unit stands for. -/
def char : QuotedUnit → Char
  | .plain c _ => c
  | .escaped c _ => c

/-- The unit that is written for a character. -/
def ofChar (c : Char) : QuotedUnit :=
  if h : c = '"' ∨ c = '\\' then .escaped c (by rcases h with rfl | rfl <;> decide)
  else .plain c (not_or.mp h)

@[simp] theorem char_ofChar (c : Char) : (ofChar c).char = c := by
  unfold ofChar
  split <;> rfl

end QuotedUnit

def unitsText (units : List QuotedUnit) : List Char := units.flatMap QuotedUnit.text

@[simp] theorem unitsText_nil : unitsText [] = [] := rfl

@[simp] theorem unitsText_cons (u : QuotedUnit) (units : List QuotedUnit) :
    unitsText (u :: units) = u.text ++ unitsText units := rfl

@[simp] theorem unitsText_append (units more : List QuotedUnit) :
    unitsText (units ++ more) = unitsText units ++ unitsText more := List.flatMap_append

/-- Units are told from each other by their text. -/
theorem unitsText_injective {units others : List QuotedUnit}
    (h : unitsText units = unitsText others) : units = others := by
  induction units generalizing others with
  | nil => cases others with
    | nil => rfl
    | cons v others => cases v <;> simp [QuotedUnit.text] at h
  | cons u units ih => cases others with
    | nil => cases u <;> simp [QuotedUnit.text] at h
    | cons v others =>
      rcases u with ⟨c, hc⟩ | ⟨c, hc⟩ <;> rcases v with ⟨d, hd⟩ | ⟨d, hd⟩
      · simp only [unitsText_cons, QuotedUnit.text, List.cons_append, List.nil_append,
          List.cons.injEq] at h
        obtain ⟨rfl, hrest⟩ := h
        rw [ih hrest]
      · simp only [unitsText_cons, QuotedUnit.text, List.cons_append, List.nil_append,
          List.cons.injEq] at h
        exact absurd h.1 hc.2
      · simp only [unitsText_cons, QuotedUnit.text, List.cons_append, List.nil_append,
          List.cons.injEq] at h
        exact absurd h.1.symm hd.2
      · simp only [unitsText_cons, QuotedUnit.text, List.cons_append, List.nil_append,
          List.cons.injEq, true_and] at h
        obtain ⟨rfl, hrest⟩ := h
        rw [ih hrest]

/-! ### Values -/

theorem escape_eq_unitsText (value : List Char) :
    escape value = unitsText (value.map QuotedUnit.ofChar) := by
  induction value with
  | nil => rfl
  | cons c rest ih =>
    rw [List.map_cons, unitsText_cons, ← ih, escape, QuotedUnit.ofChar]
    split <;> rfl

/-- **Each unit is read as its character.** -/
theorem unescape_unitsText (units : List QuotedUnit) :
    unescape (unitsText units) = units.map QuotedUnit.char := by
  induction units with
  | nil => rfl
  | cons u units ih =>
    rcases u with ⟨c, hquote, hbackslash⟩ | ⟨c, hfeed⟩
    · have hplain : unescape (c :: unitsText units) = c :: unescape (unitsText units) := by
        rw [unescape]
        · intro hc
          exact absurd hc hbackslash
        · intro d after hc
          exact absurd hc hbackslash
      exact hplain.trans (congrArg (c :: ·) ih)
    · exact congrArg (c :: ·) ih

theorem unquote_unitsText {text : String} {units : List QuotedUnit}
    (h : text.toList = '"' :: unitsText units ++ ['"']) :
    unquote text = String.ofList (units.map QuotedUnit.char) := by
  have hstrip : stripQuotes text.toList = unitsText units := by
    rw [h]
    simp [stripQuotes]
  rw [unquote, hstrip, unescape_unitsText]

theorem toList_quote (value : String) :
    (quote value).toList = '"' :: unitsText (value.toList.map QuotedUnit.ofChar) ++ ['"'] := by
  rw [quote, String.toList_ofList, escape_eq_unitsText]

theorem unquote_quote (value : String) : unquote (quote value) = value := by
  have hchars : (value.toList.map QuotedUnit.ofChar).map QuotedUnit.char = value.toList := by
    rw [List.map_map]
    exact List.map_id'' QuotedUnit.char_ofChar _
  rw [unquote_unitsText (toList_quote value), hchars, String.ofList_toList]

/-! ### Tokens -/

/-- Within quotes the lexer passes over units. -/
theorem tokensFrom_unitsText (units : List QuotedUnit) (start : Nat) (reversed : List Char)
    (place : Nat) (rest : List Char) :
    tokensFrom (.text start reversed) place (unitsText units ++ rest) =
      tokensFrom (.text start ((unitsText units).reverse ++ reversed))
        (place + byteLength (unitsText units)) rest := by
  induction units generalizing reversed place with
  | nil => rfl
  | cons u units ih =>
    rcases u with ⟨c, hquote, hbackslash⟩ | ⟨c, hfeed⟩
    · have hunit := ih (c :: reversed) (place + c.utf8Size)
      simp only [unitsText_cons, QuotedUnit.text, List.cons_append, List.nil_append, tokensFrom,
        step, hquote, hbackslash, if_false, hunit, List.reverse_cons, List.append_assoc,
        byteLength_cons, Nat.add_assoc]
    · have hunit := ih (c :: '\\' :: reversed) (place + ('\\'.utf8Size + c.utf8Size))
      simp only [unitsText_cons, QuotedUnit.text, List.cons_append, List.nil_append, tokensFrom,
        step, hfeed, if_false, if_true, hunit, List.reverse_cons, List.append_assoc,
        byteLength_cons, Nat.add_assoc, show ('\\' : Char) ≠ '"' by decide]

theorem tokensFrom_openQuote (units : List QuotedUnit) (place : Nat) (rest : List Char) :
    tokensFrom .nothing place ('"' :: unitsText units ++ rest) =
      tokensFrom (.text place ('"' :: unitsText units).reverse)
        (place + byteLength ('"' :: unitsText units)) rest := by
  have hopen : tokensFrom .nothing place ('"' :: unitsText units ++ rest) =
      tokensFrom (.text place ['"']) (place + '"'.utf8Size) (unitsText units ++ rest) := rfl
  rw [hopen, tokensFrom_unitsText, List.reverse_cons, byteLength_cons, Nat.add_assoc]

/-- Units between quotes are one token. -/
theorem tokensFrom_quoted (units : List QuotedUnit) (place : Nat) (rest : List Char) :
    tokensFrom .nothing place ('"' :: unitsText units ++ ['"'] ++ rest) =
      .ofChars .text place ('"' :: unitsText units ++ ['"']) ::
        tokensFrom .nothing (place + byteLength ('"' :: unitsText units ++ ['"'])) rest := by
  have hclose : tokensFrom (.text place ('"' :: unitsText units).reverse)
      (place + byteLength ('"' :: unitsText units)) ('"' :: rest) =
      closed .text place ('"' :: ('"' :: unitsText units).reverse) ::
        tokensFrom .nothing (place + byteLength ('"' :: unitsText units) + '"'.utf8Size) rest := rfl
  rw [List.append_assoc, List.singleton_append, tokensFrom_openQuote, hclose, byteLength_append,
    ← Nat.add_assoc]
  simp [closed]

/-- A quoted value is one token. -/
theorem tokensFrom_quote (value : String) (place : Nat) (rest : List Char) :
    tokensFrom .nothing place ((quote value).toList ++ rest) =
      ⟨.text, quote value, ⟨place, place + byteLength (quote value).toList⟩⟩ ::
        tokensFrom .nothing (place + byteLength (quote value).toList) rest := by
  have hquoted := tokensFrom_quoted (value.toList.map QuotedUnit.ofChar) place rest
  rw [← toList_quote] at hquoted
  rw [hquoted, Token.ofChars, String.ofList_toList]

/-! ### Missing quotes -/

/-- The text does not go on with a unit. -/
def Stuck (text : List Char) : Prop := ∀ u : QuotedUnit, ¬ u.text <+: text

theorem stuck_cases {text : List Char} (h : Stuck text) :
    text = [] ∨ (∃ rest, text = '"' :: rest) ∨ text = ['\\'] ∨ ∃ rest, text = '\\' :: '\n' :: rest := by
  rcases text with _ | ⟨c, rest⟩
  · exact .inl rfl
  · by_cases hquote : c = '"'
    · exact .inr (.inl ⟨rest, by rw [hquote]⟩)
    · by_cases hbackslash : c = '\\'
      · subst hbackslash
        rcases rest with _ | ⟨d, rest⟩
        · exact .inr (.inr (.inl rfl))
        · by_cases hfeed : d = '\n'
          · exact .inr (.inr (.inr ⟨rest, by rw [hfeed]⟩))
          · exact absurd ⟨rest, rfl⟩ (h (.escaped d hfeed))
      · exact absurd ⟨rest, rfl⟩ (h (.plain c ⟨hquote, hbackslash⟩))

/-- Units without a closing quote are an error as far as they go. -/
theorem tokensFrom_unclosed (units : List QuotedUnit) {rest : List Char} (hrest : Stuck rest)
    (hquote : ∀ cs, rest ≠ '"' :: cs) (place : Nat) :
    tokensFrom .nothing place ('"' :: unitsText units ++ rest) =
      .ofChars .error place ('"' :: unitsText units) ::
        tokensFrom .nothing (place + byteLength ('"' :: unitsText units)) rest := by
  have herror : closed .error place ('"' :: unitsText units).reverse =
      .ofChars .error place ('"' :: unitsText units) := by
    rw [closed, List.reverse_reverse]
  rw [tokensFrom_openQuote, ← herror]
  rcases stuck_cases hrest with rfl | ⟨cs, rfl⟩ | rfl | ⟨cs, rfl⟩
  · rfl
  · exact absurd rfl (hquote cs)
  · -- the backslash is an error of its own
    have hbackslash : tokensFrom (.text place ('"' :: unitsText units).reverse)
        (place + byteLength ('"' :: unitsText units)) ['\\'] =
        brokenText place ('"' :: unitsText units).reverse := rfl
    rw [hbackslash, brokenText, byteLength_reverse]
    rfl
  · have hbackslash : tokensFrom (.text place ('"' :: unitsText units).reverse)
        (place + byteLength ('"' :: unitsText units)) ('\\' :: '\n' :: cs) =
        brokenText place ('"' :: unitsText units).reverse ++
          tokensFrom .nothing
            (place + byteLength ('"' :: unitsText units) + '\\'.utf8Size) ('\n' :: cs) := by
      simp [tokensFrom, step]
    rw [hbackslash, brokenText, byteLength_reverse]
    rfl

end DecisionModel.TreeFile
