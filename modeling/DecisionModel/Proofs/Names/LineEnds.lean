import DecisionModel.Proofs.Names.Moved
import DecisionModel.Proofs.Names.Place
import DecisionModel.Proofs.Source.LineEnds

/-!
# Line ends of schema text

In schema text a carriage return is a blank outside of comments and part of them inside, so
before a line feed it neither makes a token nor opens or closes anything that the line feed would
not.
-/

namespace DecisionModel.Names

open Text

def Open.move (f : Nat → Nat) : Open → Open
  | .nothing => .nothing
  | .name start reversed => .name (f start) reversed
  | .comment => .comment

variable {file : SourceFile} {before after : List Char}

/-- A token without a line feed moves with its start. -/
theorem ofChars_crlfPlace (kind : TokenKind) {start : Nat} {reversed : List Char}
    (h : file.content.toList = before ++ after) (hends : EndsWith 0 before start reversed)
    (hline : '\n' ∉ reversed) :
    Token.ofChars kind (file.crlfPlace start) reversed.reverse =
      (Token.ofChars kind start reversed.reverse).move file.crlfPlace := by
  obtain ⟨front, rfl, hstart⟩ := hends
  rw [Nat.zero_add] at hstart
  have hstop := SourceFile.crlfPlace_add h (by simpa using hline)
  rw [← hstart] at hstop
  simp only [Token.ofChars, Token.move, Span.move, hstop]

theorem begin_crlfPlace {c : Char} (hc : c ≠ '\n')
    (h : file.content.toList = before ++ [c] ++ after) :
    begin (byteLength (crlf before)) c =
      ((begin (byteLength before) c).1.map (Token.move file.crlfPlace),
        (begin (byteLength before) c).2.move file.crlfPlace) := by
  have hplace : file.crlfPlace (byteLength before) = byteLength (crlf before) :=
    SourceFile.crlfPlace_of_border (by rw [h, List.append_assoc])
  have hends := endsWith_singleton 0 before c
  rw [Nat.zero_add] at hends
  have htoken := fun kind => ofChars_crlfPlace kind h hends (by simpa using Ne.symm hc)
  rw [List.reverse_singleton] at htoken
  rw [← hplace]
  unfold begin
  rcases separator? c with _ | kind
  · dsimp only
    split
    · rfl
    · split
      · rfl
      · rfl
  · exact congrArg (fun t => ([t], Open.nothing)) (htoken kind)

theorem step_crlfPlace {c : Char} (hc : c ≠ '\n')
    (h : file.content.toList = before ++ [c] ++ after) {state : Open}
    (hopen : state.EndsText 0 before) :
    step (byteLength (crlf before)) c (state.move file.crlfPlace) =
      ((step (byteLength before) c state).1.map (Token.move file.crlfPlace),
        (step (byteLength before) c state).2.move file.crlfPlace) := by
  cases state with
  | nothing => exact begin_crlfPlace hc h
  | comment =>
    simp only [step, Open.move, if_neg hc]
    rfl
  | name start reversed =>
    have hname : nameToken (file.crlfPlace start) reversed =
        (nameToken start reversed).move file.crlfPlace :=
      ofChars_crlfPlace .name (by rw [h, List.append_assoc]) hopen.1 hopen.2
    simp only [step, Open.move, begin_crlfPlace hc h, hname]
    split
    · rfl
    · rfl

/-- Whatever is open, a line feed does the same with a carriage return before it. -/
theorem tokensFrom_return {state : Open} (hopen : state.EndsText 0 before)
    (h : file.content.toList = before ++ after) (place place' : Nat) (rest : List Char) :
    tokensFrom (state.move file.crlfPlace) place ('\r' :: '\n' :: rest) =
      (step place' '\n' state).1.map (Token.move file.crlfPlace) ++
        tokensFrom ((step place' '\n' state).2.move file.crlfPlace)
          (place + '\r'.utf8Size + '\n'.utf8Size) rest := by
  cases state with
  | nothing => rfl
  | comment => rfl
  | name start reversed =>
    have hname : nameToken (file.crlfPlace start) reversed =
        (nameToken start reversed).move file.crlfPlace :=
      ofChars_crlfPlace .name h hopen.1 hopen.2
    exact congrArg (· :: tokensFrom .nothing _ rest) hname

theorem tokensFrom_crlf (rest : List Char) :
    ∀ (before : List Char) (state : Open), file.content.toList = before ++ rest →
      state.EndsText 0 before →
      tokensFrom (state.move file.crlfPlace) (byteLength (crlf before)) (crlf rest) =
        (tokensFrom state (byteLength before) rest).map (Token.move file.crlfPlace) := by
  induction rest with
  | nil =>
    intro before state h hopen
    cases state with
    | nothing => rfl
    | comment => rfl
    | name start reversed =>
      exact congrArg (fun t => [t]) (ofChars_crlfPlace .name h hopen.1 hopen.2)
  | cons c rest ih =>
    intro before state h hopen
    have hnext : file.content.toList = before ++ [c] ++ rest := by rw [h]; simp
    have hstop : byteLength before + c.utf8Size = byteLength (before ++ [c]) := by simp
    have hopen' := (covering_step 0 before c state hopen).2
    rw [Nat.zero_add] at hopen'
    have hrest := ih (before ++ [c]) _ hnext hopen'
    rw [tokensFrom, List.map_append, hstop, ← hrest]
    by_cases hc : c = '\n'
    · subst hc
      rw [crlf_cons_lineFeed, tokensFrom_return hopen h _ (byteLength before),
        byteLength_crlf_concat_lineFeed]
    · rw [crlf_cons_of_ne hc, tokensFrom, step_crlfPlace hc hnext hopen,
        byteLength_crlf_concat_of_ne hc]

/-- **The tokens of schema text** move, each as it is. -/
theorem tokens_crlf (file : SourceFile) :
    tokens (crlf file.content.toList) =
      (tokens file.content.toList).map (Token.move file.crlfPlace) :=
  tokensFrom_crlf file.content.toList [] .nothing (List.nil_append _).symm trivial

/-- **Schema text is read alike** with carriage returns before its line feeds: only places of
    errors move. -/
theorem parse_crlf (file : SourceFile) :
    parse file.crlf = (parse file).mapError (ParseError.move file.crlfPlace) := by
  have hread := read_move file.crlfPlace_strictMono.injective (tokens file.content.toList)
    file.endSpan
  unfold parse
  rw [SourceFile.toList_content_crlf, tokens_crlf, SourceFile.endSpan_crlf]
  simp only [hread]
  rcases (tokens file.content.toList).foldlM State.step State.initial >>= (·.finish file.endSpan)
    with e | schema
  · exact congrArg Except.error (SourceFile.ofLocated_move .names file e)
  · rfl

end DecisionModel.Names
