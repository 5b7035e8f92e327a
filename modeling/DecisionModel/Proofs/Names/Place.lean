import DecisionModel.Names.Parser
import DecisionModel.Proofs.Lists
import DecisionModel.Proofs.Names.Token
import DecisionModel.Proofs.Source.Place

/-!
# Places of faults in schema text

The tokens of schema text cover their texts.  Reading keeps some of its names for later, with
their places, so a fault is at a token, at a name that was read before, or at the end of the
text.
-/

namespace DecisionModel.Names

open Text

/-! ### Tokens -/

/-- The token covers its text, which has no line feed. -/
structure Covering (offset : Nat) (text : List Char) (t : Token TokenKind) : Prop where
  standsIn : t.StandsIn offset text
  no_lineFeed : '\n' ∉ t.text.toList

/-- The text ends with what is open. -/
def Open.EndsText (offset : Nat) (text : List Char) : Open → Prop
  | .nothing | .comment => True
  | .name start reversed => EndsWith offset text start reversed ∧ '\n' ∉ reversed

theorem Covering.append_right {offset : Nat} {text : List Char} {t : Token TokenKind}
    (h : Covering offset text t) (more : List Char) : Covering offset (text ++ more) t :=
  ⟨h.standsIn.append_right more, h.no_lineFeed⟩

theorem covering_ofChars (kind : TokenKind) {offset : Nat} {text : List Char} {start : Nat}
    {reversed : List Char} (hends : EndsWith offset text start reversed)
    (hfeed : '\n' ∉ reversed) : Covering offset text (.ofChars kind start reversed.reverse) := by
  constructor
  · exact hends.standsIn kind
  · simpa [Token.ofChars] using hfeed

/-- One character, where nothing is open. -/
theorem covering_begin (offset : Nat) (before : List Char) (c : Char) :
    (∀ t ∈ (begin (offset + byteLength before) c).1, Covering offset (before ++ [c]) t) ∧
      (begin (offset + byteLength before) c).2.EndsText offset (before ++ [c]) := by
  have hends := endsWith_singleton offset before c
  unfold begin
  rcases hseparator : separator? c with _ | kind
  · by_cases hbar : c = '|'
    · simp [hbar, Open.EndsText]
    · by_cases hspace : isSpace c = true
      · simp [hbar, hspace, Open.EndsText]
      · have hc : c ≠ '\n' := by
          rintro rfl
          exact hspace (by decide)
        simp only [hbar, hspace, if_false]
        exact ⟨by simp, hends, by simpa using Ne.symm hc⟩
  · have hc : c ≠ '\n' := by
      rintro rfl
      cases hseparator
    refine ⟨?_, trivial⟩
    intro t ht
    rw [List.mem_singleton] at ht
    subst ht
    exact covering_ofChars kind hends (by simpa using Ne.symm hc)

/-- One character keeps the tokens covering, and the text ending with what is open. -/
theorem covering_step (offset : Nat) (before : List Char) (c : Char) (state : Open)
    (h : state.EndsText offset before) :
    (∀ t ∈ (step (offset + byteLength before) c state).1, Covering offset (before ++ [c]) t) ∧
      (step (offset + byteLength before) c state).2.EndsText offset (before ++ [c]) := by
  cases state with
  | nothing => exact covering_begin offset before c
  | comment => by_cases hc : c = '\n' <;> simp [step, hc, Open.EndsText]
  | name start reversed =>
    obtain ⟨hends, hfeed⟩ := h
    by_cases hname : isNameChar c = true
    · have hc : c ≠ '\n' := by
        rintro rfl
        revert hname
        decide
      simp only [step, hname, if_true]
      exact ⟨by simp, hends.concat c, by simpa [Ne.symm hc] using hfeed⟩
    · obtain ⟨htokens, hopen⟩ := covering_begin offset before c
      simp only [step, hname]
      refine ⟨?_, hopen⟩
      intro t ht
      rcases List.mem_cons.mp ht with rfl | hmem
      · exact (covering_ofChars .name hends hfeed).append_right [c]
      · exact htokens t hmem

theorem covering_close (offset : Nat) (before : List Char) (state : Open)
    (h : state.EndsText offset before) : ∀ t ∈ close state, Covering offset before t := by
  intro t ht
  cases state with
  | nothing => cases ht
  | comment => cases ht
  | name start reversed =>
    rw [close, List.mem_singleton] at ht
    subst ht
    exact covering_ofChars .name h.1 h.2

/-- **Every token of a text covers its text** there. -/
theorem covering_tokens (text : List Char) : ∀ t ∈ tokens text, Covering 0 text t := by
  have hnothing : Open.nothing.EndsText 0 [] := trivial
  exact scans.forall_mem (fun _ more _ h => h.append_right more) (covering_step 0)
    (covering_close 0) [] hnothing text

/-! ### Names that are kept -/

/-- The name covers its place. -/
structure Mention.StandsIn (m : Mention) (text : List Char) : Prop where
  covers : m.span.Covers 0 text m.name.toList
  isName : IsName m.name

theorem Mention.StandsIn.onOneLine {m : Mention} {text : List Char} (h : m.StandsIn text) :
    m.span.OnOneLine text :=
  ⟨_, h.covers, h.isName.no_lineFeed⟩

def Phase.mentions : Phase → List Mention
  | .start => []
  | .named name | .value name _ | .separator name _ => [name]

def Declaration.mentions (d : Declaration) : List Mention := d.target :: d.follower.toList

/-- All names that are kept with their places. -/
def State.mentions (s : State) : List Mention :=
  s.phase.mentions ++ s.definitions ++ (s.declaration.map Declaration.mentions).getD []

theorem Declaration.mem_mentions_follow {d : Declaration} {name m : Mention}
    (h : m ∈ (d.follow name).mentions) : m ∈ d.mentions ∨ m = name := by
  unfold Declaration.follow at h
  split at h
  · rcases List.mem_cons.mp h with rfl | hfollower
    · exact .inl (List.mem_cons_self)
    · exact .inr (by simpa using hfollower)
  · exact .inl h

/-- The statement `name: values.` keeps no names but those of the state and its own. -/
theorem State.mem_mentions_complete {s : State} {name m : Mention} {values : List String}
    (h : m ∈ (s.complete name values).mentions) : m ∈ s.mentions ∨ m = name := by
  unfold State.mentions State.complete at h
  simp only [Phase.mentions, List.nil_append, List.mem_append, List.mem_singleton] at h
  rcases h with (hdefined | rfl) | hdeclared
  · exact .inl (by simp [State.mentions, hdefined])
  · exact .inr rfl
  · rcases hd : s.declaration with _ | d
    · simp [hd] at hdeclared
    · simp only [hd, Option.map_some, Option.getD_some] at hdeclared
      rcases Declaration.mem_mentions_follow hdeclared with hold | rfl
      · exact .inl (by simp [State.mentions, hd, hold])
      · exact .inr rfl

/-- A token leaves no new name to keep but its own. -/
theorem State.mem_mentions_of_step {s s' : State} {t : Token TokenKind} (h : s.step t = .ok s')
    {m : Mention} (hm : m ∈ s'.mentions) : m ∈ s.mentions ∨ (t.kind = .name ∧ m = .ofToken t) := by
  obtain ⟨b, definitions, declaration, phase⟩ := s
  obtain ⟨kind, text, span⟩ := t
  cases phase with
  | start =>
    cases kind <;> simp only [State.step, Except.ok.injEq, reduceCtorEq] at h
    subst h
    rcases List.mem_cons.mp hm with rfl | hold
    · exact .inr ⟨rfl, rfl⟩
    · exact .inl hold
  | named name =>
    cases kind <;> simp only [State.step, Except.ok.injEq, reduceCtorEq] at h
    · subst h
      simp only [State.declare, State.mentions, Declaration.mentions, Phase.mentions,
        List.nil_append, Option.map_some, Option.getD_some, Option.toList_none, List.mem_append,
        List.mem_singleton] at hm
      rcases hm with hdefined | rfl
      · exact .inl (by simp [State.mentions, hdefined])
      · exact .inl (by simp [State.mentions, Phase.mentions])
    · split at h
      · cases h
      · cases h
        exact .inl hm
  | value name values =>
    cases kind <;> simp only [State.step, Except.ok.injEq, reduceCtorEq] at h
    subst h
    exact .inl hm
  | separator name values =>
    cases kind <;> simp only [State.step, Except.ok.injEq, reduceCtorEq] at h
    · subst h
      rcases State.mem_mentions_complete hm with hold | rfl
      · exact .inl hold
      · exact .inl (by simp [State.mentions, Phase.mentions])
    · subst h
      exact .inl hm

/-! ### Faults -/

/-- A token that is refused is at fault itself, or the name whose definition it begins. -/
theorem State.place_of_step_error {s : State} {t : Token TokenKind} {e : Located Fault}
    (h : s.step t = .error e) :
    e.related = none ∧ (e.span = t.span ∨ ∃ m ∈ s.mentions, e.span = m.span) := by
  unfold State.step at h
  split at h
  case h_3 name hphase _ =>
    split at h
    · cases h
      exact ⟨rfl, .inr ⟨name, by simp [State.mentions, hphase, Phase.mentions], rfl⟩⟩
    · cases h
  all_goals
    cases h
  exact ⟨rfl, .inl rfl⟩

theorem State.resolve_mem_mentions {s : State} {d : Declaration} (hd : s.declaration = some d) :
    s.resolve d ∈ s.mentions := by
  have hmem : ∀ m ∈ d.mentions, m ∈ s.mentions := by
    intro m hm
    simp [State.mentions, hd, hm]
  apply hmem
  unfold State.resolve
  split
  · rename_i follower hfollower
    split
    · exact List.mem_cons_self
    · simp [Declaration.mentions, hfollower]
  · exact List.mem_cons_self

/-- A text that is refused at its end is at fault there, or at the name it takes as its decision,
    which another definition may have to do with. -/
theorem State.place_of_finish_error {s : State} {stop : Span} {e : Located Fault}
    (h : s.finish stop = .error e) :
    (e.span = stop ∧ e.related = none) ∨
      ∃ m ∈ s.mentions, e.span = m.span ∧
        ∀ r, e.related = some r → ∃ n ∈ s.mentions, r = n.span ∧ n.name = m.name := by
  unfold State.finish at h
  split at h
  · cases h
    exact .inl ⟨rfl, rfl⟩
  · rename_i d _ hd
    dsimp only at h
    split at h
    · cases h
    · cases h
      refine .inr ⟨s.resolve d, State.resolve_mem_mentions hd, rfl, ?_⟩
      intro r hr
      obtain ⟨n, hfind, rfl⟩ := Option.map_eq_some_iff.mp hr
      have hdefined : n ∈ s.definitions := List.mem_of_find?_eq_some hfind
      have hsame := List.find?_some hfind
      simp only [Bool.and_eq_true, beq_iff_eq] at hsame
      exact ⟨n, by simp [State.mentions, hdefined], rfl, hsame.1⟩
  · cases h
    exact .inl ⟨rfl, rfl⟩

/-! ### Whole texts -/

/-- The fault is on one line of the text.  What it has to do with is another place of a name
    that it is at. -/
structure Fault.StandsIn (e : Located Fault) (text : List Char) : Prop where
  span : e.span.OnOneLine text
  related : ∀ r, e.related = some r → ∃ name : String, IsName name ∧
    e.span.Covers 0 text name.toList ∧ r.Covers 0 text name.toList

theorem mentions_standIn_of_step {text : List Char} {s s' : State} {t : Token TokenKind}
    (ht : t ∈ tokens text) (h : ∀ m ∈ s.mentions, m.StandsIn text) (hstep : s.step t = .ok s') :
    ∀ m ∈ s'.mentions, m.StandsIn text := by
  intro m hm
  rcases State.mem_mentions_of_step hstep hm with hold | ⟨hkind, rfl⟩
  · exact h m hold
  · exact ⟨(covering_tokens text t ht).standsIn, spelled_tokens text t ht hkind⟩

/-- **A fault of schema text stands in it.** -/
theorem standsIn_of_parse_error {file : SourceFile} {e : ParseError}
    (h : parse file = .error e) :
    ∃ fault, e = .ofLocated .names file fault ∧ Fault.StandsIn fault file.content.toList := by
  obtain ⟨fault, hread, rfl⟩ := mapError_eq_error_iff.mp h
  refine ⟨fault, rfl, ?_⟩
  have hstart : ∀ m ∈ State.initial.mentions, m.StandsIn file.content.toList := by
    intro m hm
    cases hm
  rcases bind_eq_error_iff.mp hread with hrun | ⟨s, hrun, hfinish⟩
  · obtain ⟨s, t, ht, hs, hstep⟩ := exists_state_of_foldlM_error
      (fun s => ∀ m ∈ s.mentions, m.StandsIn file.content.toList)
      (fun _ _ _ ht hs => mentions_standIn_of_step ht hs) hstart hrun
    obtain ⟨hnone, hspan⟩ := State.place_of_step_error hstep
    constructor
    · rcases hspan with hspan | ⟨m, hm, hspan⟩
      · obtain ⟨hcovers, hfeed⟩ := covering_tokens _ t ht
        rw [hspan]
        exact ⟨_, hcovers, hfeed⟩
      · rw [hspan]
        exact (hs m hm).onOneLine
    · intro r hr
      rw [hnone] at hr
      cases hr
  · have hs : ∀ m ∈ s.mentions, m.StandsIn file.content.toList :=
      foldlM_invariant (fun _ _ _ ht hs => mentions_standIn_of_step ht hs) hstart hrun
    rcases State.place_of_finish_error hfinish with ⟨hspan, hnone⟩ | ⟨m, hm, hspan, hrelated⟩
    · constructor
      · rw [hspan]
        exact file.onOneLine_endSpan
      · intro r hr
        rw [hnone] at hr
        cases hr
    · constructor
      · rw [hspan]
        exact (hs m hm).onOneLine
      · intro r hr
        obtain ⟨n, hn, rfl, hname⟩ := hrelated r hr
        refine ⟨m.name, (hs m hm).isName, ?_, ?_⟩
        · rw [hspan]
          exact (hs m hm).covers
        · rw [← hname]
          exact (hs n hn).covers

end DecisionModel.Names
