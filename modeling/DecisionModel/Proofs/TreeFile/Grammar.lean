import Mathlib.Computability.RegularExpressions
import DecisionModel.Proofs.TreeFile.Place
import DecisionModel.Proofs.TreeFile.PrefixFree
import DecisionModel.Proofs.TreeFile.Token
import DecisionModel.Proofs.TreeFile.Written

/-!
# The grammar of records

A record is a sequence of groups of tokens: a name, an equals sign, and texts with commas
between them.  Reading token by token takes such groups, one after the other, and each becomes a
field.  At any point the tokens read so far can go on to a record, so the first token that is
refused is the first one that no record has there.
-/

namespace DecisionModel.TreeFile

open Text

/-! ### Groups -/

/-- A token of the given kind. -/
abbrev TokenOf (kind : TokenKind) := { t : Token TokenKind // t.kind = kind }

/-- Some token of the kind. -/
def TokenOf.some (kind : TokenKind) : TokenOf kind := ⟨⟨kind, "", .origin⟩, rfl⟩

/-- The tokens of a field. -/
structure Group where
  name : TokenOf .name
  equals : TokenOf .equals
  first : TokenOf .text
  /-- After the first value, each has a comma in front. -/
  more : List (TokenOf .comma × TokenOf .text)

namespace Group

def tokens (g : Group) : List (Token TokenKind) :=
  [g.name.1, g.equals.1, g.first.1] ++ g.more.flatMap fun (comma, value) => [comma.1, value.1]

/-- The quoted values. -/
def values (g : Group) : List (Token TokenKind) := g.first.1 :: g.more.map (·.2.1)

def last (g : Group) : Token TokenKind := g.values.getLast (List.cons_ne_nil _ _)

/-- The field that the tokens make up: from the first place of its name to the end of its last
    value. -/
def field (g : Group) : Field where
  name := g.name.1.text
  span := ⟨g.name.1.span.start, g.last.span.stop⟩
  values := g.values.map fun t => (unquote t.text, t.span)

/-- The field that is read from the tokens. -/
def read (g : Group) : Field :=
  g.values.foldl FieldState.addValue ⟨g.name.1.text, g.name.1.span, []⟩

/-- The group with one more value. -/
def add (g : Group) (comma : TokenOf .comma) (value : TokenOf .text) : Group :=
  { g with more := g.more ++ [(comma, value)] }

theorem tokens_add (g : Group) (comma : TokenOf .comma) (value : TokenOf .text) :
    (g.add comma value).tokens = g.tokens ++ [comma.1, value.1] := by
  simp [tokens, add]

theorem read_add (g : Group) (comma : TokenOf .comma) (value : TokenOf .text) :
    (g.add comma value).read = FieldState.addValue g.read value.1 := by
  simp [read, values, add]

theorem values_sublist (g : Group) : g.values.Sublist (g.equals.1 :: g.first.1 ::
    g.more.flatMap fun (comma, value) => [comma.1, value.1]) := by
  have hmore : ∀ more : List (TokenOf .comma × TokenOf .text),
      (more.map (·.2.1)).Sublist (more.flatMap fun (comma, value) => [comma.1, value.1]) := by
    intro more
    induction more with
    | nil => exact .slnil
    | cons pair rest ih => exact .cons _ (.cons_cons _ ih)
  exact .cons _ (.cons_cons _ (hmore g.more))

end Group

/-- Values that stand behind a field and one behind the other take its span to the last one. -/
theorem foldl_addValue_of_between {ts : List (Token TokenKind)} {f : Field} {stop : Nat}
    (hf : f.span.start ≤ f.span.stop) (h : Token.Between f.span.stop ts stop) :
    ts.foldl FieldState.addValue f =
      { f with
        span := ⟨f.span.start, (f.span.stop :: ts.map (·.span.stop)).getLast (by simp)⟩
        values := f.values ++ ts.map fun t => (unquote t.text, t.span) } := by
  induction ts generalizing f with
  | nil => simp
  | cons t rest ih =>
    obtain _ | ⟨hstart, hspan, hrest⟩ := h
    have hcover : f.span.cover t.span = ⟨f.span.start, t.span.stop⟩ := by
      simp only [Span.cover, Span.mk.injEq]
      omega
    have hle : f.span.start ≤ t.span.stop := by omega
    have hadd : FieldState.addValue f t =
        ⟨f.name, ⟨f.span.start, t.span.stop⟩, f.values ++ [(unquote t.text, t.span)]⟩ := by
      rw [FieldState.addValue, hcover]
    rw [List.foldl_cons, hadd, ih hle hrest]
    simp

/-- **What is read from a group** that stands in a line is its field. -/
theorem Group.read_eq_field {g : Group} {start stop : Nat}
    (h : Token.Between start g.tokens stop) : g.read = g.field := by
  obtain _ | ⟨-, hname, hrest⟩ := h
  have hlast : (g.values.map (·.span.stop)).getLast (by simp [values]) = g.last.span.stop :=
    List.getLast_map ..
  rw [read, foldl_addValue_of_between (Nat.le_of_lt hname) (hrest.sublist g.values_sublist)]
  simp only [field, ← hlast, List.nil_append]
  rfl

/-! ### The grammar -/

/-- The kinds of the tokens of a field: `name = text (, text)*`. -/
def fieldPattern : RegularExpression TokenKind :=
  .char .name * .char .equals * .char .text * .star (.char .comma * .char .text)

/-- The kinds of the tokens of a record: `(name = text (, text)*)*`. -/
def recordPattern : RegularExpression TokenKind := .star fieldPattern

/-- Some record starts with tokens of these kinds. -/
def Viable (kinds : List TokenKind) : Prop := ∃ more, kinds ++ more ∈ recordPattern.matches'

section

open scoped Computability

/-- What maps into a repeated language consists of what maps into the language. -/
theorem exists_flatMap_of_map_mem_kstar {κ τ β : Type} {l : Language κ} {f : τ → κ}
    {piece : β → List τ} (h : ∀ ts : List τ, ts.map f ∈ l → ∃ b, ts = piece b) {ts : List τ}
    (hts : ts.map f ∈ l∗) : ∃ bs : List β, ts = bs.flatMap piece := by
  obtain ⟨words, hwords, hmem⟩ := Language.mem_kstar.mp hts
  clear hts
  induction words generalizing ts with
  | nil =>
    rw [List.flatten_nil, List.map_eq_nil_iff] at hwords
    exact ⟨[], hwords⟩
  | cons word rest ih =>
    obtain ⟨us, vs, rfl, rfl, hrest⟩ := List.map_eq_append_iff.mp hwords
    obtain ⟨b, rfl⟩ := h us (hmem _ (by simp))
    obtain ⟨bs, rfl⟩ := ih hrest fun w hw => hmem w (by simp [hw])
    exact ⟨b :: bs, rfl⟩

/-- What has the kinds of a group is one. -/
theorem exists_tokens_of_map_mem {ts : List (Token TokenKind)}
    (h : ts.map (·.kind) ∈ fieldPattern.matches') : ∃ g : Group, ts = g.tokens := by
  simp only [fieldPattern, RegularExpression.matches'_mul, RegularExpression.matches'_char,
    RegularExpression.matches'_star] at h
  obtain ⟨front, ⟨_, ⟨_, rfl, _, rfl, rfl⟩, _, rfl, rfl⟩, rest, hrest, hts⟩ := h
  obtain ⟨us, vs, rfl, hus, rfl⟩ := List.map_eq_append_iff.mp hts.symm
  have hpair : ∀ ps : List (Token TokenKind),
      ps.map (·.kind) ∈ ({[.comma]} * {[.text]} : Language TokenKind) →
        ∃ pair : TokenOf .comma × TokenOf .text, ps = [pair.1.1, pair.2.1] := by
    rintro ps ⟨_, rfl, _, rfl, hps⟩
    obtain ⟨comma, more, rfl, hcomma, hmore⟩ := List.map_eq_cons_iff.mp hps.symm
    obtain ⟨value, rfl, hvalue⟩ := List.map_eq_singleton_iff.mp hmore
    exact ⟨⟨⟨comma, hcomma⟩, ⟨value, hvalue⟩⟩, rfl⟩
  obtain ⟨pairs, rfl⟩ := exists_flatMap_of_map_mem_kstar hpair hrest
  obtain ⟨name, us, rfl, hname, hus⟩ := List.map_eq_cons_iff.mp hus
  obtain ⟨equals, us, rfl, hequals, hus⟩ := List.map_eq_cons_iff.mp hus
  obtain ⟨first, rfl, hfirst⟩ := List.map_eq_singleton_iff.mp hus
  exact ⟨⟨⟨name, hname⟩, ⟨equals, hequals⟩, ⟨first, hfirst⟩, pairs⟩, rfl⟩

theorem Group.map_kind_mem (g : Group) : g.tokens.map (·.kind) ∈ fieldPattern.matches' := by
  obtain ⟨⟨name, hname⟩, ⟨equals, hequals⟩, ⟨first, hfirst⟩, pairs⟩ := g
  simp only [fieldPattern, RegularExpression.matches'_mul, RegularExpression.matches'_char,
    RegularExpression.matches'_star, Group.tokens, List.map_append, List.map_cons, List.map_nil,
    hname, hequals, hfirst, List.map_flatMap]
  refine Language.append_mem_mul ⟨[.name, .equals], ⟨_, rfl, _, rfl, rfl⟩, _, rfl, rfl⟩ ?_
  rw [List.flatMap_def]
  refine Language.join_mem_kstar ?_
  intro word hword
  obtain ⟨⟨⟨comma, hcomma⟩, ⟨value, hvalue⟩⟩, -, rfl⟩ := List.mem_map.mp hword
  exact ⟨_, rfl, _, rfl, by simp [hcomma, hvalue]⟩

/-- **Tokens have the kinds of a record** exactly if they are groups. -/
theorem map_kind_mem_recordPattern_iff {ts : List (Token TokenKind)} :
    ts.map (·.kind) ∈ recordPattern.matches' ↔ ∃ gs : List Group, ts = gs.flatMap Group.tokens := by
  rw [recordPattern, RegularExpression.matches'_star]
  constructor
  · exact exists_flatMap_of_map_mem_kstar fun us hus => exists_tokens_of_map_mem hus
  · rintro ⟨gs, rfl⟩
    rw [List.map_flatMap, List.flatMap_def]
    refine Language.join_mem_kstar ?_
    intro word hword
    obtain ⟨g, -, rfl⟩ := List.mem_map.mp hword
    exact g.map_kind_mem

end

/-! ### Reading groups -/

namespace FieldState

/-- Further values with their commas are read behind a value. -/
theorem run_more (done : List Field) (more : List (TokenOf .comma × TokenOf .text)) (f : Field) :
    (more.flatMap fun (comma, value) => [comma.1, value.1]).foldlM step ⟨done, .valued f⟩ =
      .ok ⟨done, .valued ((more.map (·.2.1)).foldl addValue f)⟩ := by
  induction more generalizing f with
  | nil => rfl
  | cons pair rest ih =>
    obtain ⟨⟨comma, hcomma⟩, ⟨value, hvalue⟩⟩ := pair
    have hnext : (⟨done, .valued f⟩ : FieldState).step comma = .ok ⟨done, .next f⟩ := by
      simp only [step, hcomma]
    have hvalued : (⟨done, .next f⟩ : FieldState).step value =
        .ok ⟨done, .valued (addValue f value)⟩ := by simp only [step, hvalue]
    rw [List.flatMap_cons, List.cons_append, foldlM_cons_ok hnext, List.singleton_append,
      foldlM_cons_ok hvalued, ih]
    rfl

/-- A group is read behind complete fields. -/
theorem run_group {s : FieldState} {done : List Field} (h : ∀ stop, s.finish stop = .ok done)
    (g : Group) : g.tokens.foldlM step s = .ok ⟨done, .valued g.read⟩ := by
  obtain ⟨⟨name, hname⟩, ⟨equals, hequals⟩, ⟨first, hfirst⟩, more⟩ := g
  have hequal : (⟨done, .named name.text name.span⟩ : FieldState).step equals =
      .ok ⟨done, .first name.text name.span⟩ := by simp only [step, hequals]
  have hvalued : (⟨done, .first name.text name.span⟩ : FieldState).step first =
      .ok ⟨done, .valued (addValue ⟨name.text, name.span, []⟩ first)⟩ := by
    simp only [step, hfirst]
  rw [Group.tokens, List.cons_append, foldlM_cons_ok (step_name h hname), List.cons_append,
    foldlM_cons_ok hequal, List.singleton_append, foldlM_cons_ok hvalued, run_more]
  rfl

/-- **Groups are read**, one after the other. -/
theorem run_groups (gs : List Group) :
    ∃ s, (gs.flatMap Group.tokens).foldlM step initial = .ok s ∧
      ∀ stop, s.finish stop = .ok (gs.map Group.read) := by
  induction gs using List.reverseRecOn with
  | nil => exact ⟨initial, rfl, fun _ => rfl⟩
  | append_singleton gs g ih =>
    obtain ⟨s, hrun, hfinish⟩ := ih
    refine ⟨⟨gs.map Group.read, .valued g.read⟩, ?_, fun _ => by simp [finish]⟩
    rw [List.flatMap_append, foldlM_append_ok hrun, List.flatMap_singleton, run_group hfinish]

end FieldState

/-! ### What has been read -/

/-- The tokens of the field that is not complete yet. -/
inductive FieldPhase.Opened : FieldPhase → List (Token TokenKind) → Prop
  | start : Opened .start []
  | named (name : TokenOf .name) : Opened (.named name.1.text name.1.span) [name.1]
  | first (name : TokenOf .name) (equals : TokenOf .equals) :
      Opened (.first name.1.text name.1.span) [name.1, equals.1]
  | valued (g : Group) : Opened (.valued g.read) g.tokens
  | next (g : Group) (comma : TokenOf .comma) : Opened (.next g.read) (g.tokens ++ [comma.1])

namespace FieldState

/-- The state behind tokens: complete groups, and those of the field that is not complete. -/
def Behind (s : FieldState) (ts : List (Token TokenKind)) : Prop :=
  ∃ (gs : List Group) (opened : List (Token TokenKind)),
    ts = gs.flatMap Group.tokens ++ opened ∧ s.fields = gs.map Group.read ∧ s.phase.Opened opened

/-- One token keeps what has been read. -/
theorem Behind.step {s s' : FieldState} {ts : List (Token TokenKind)} (h : s.Behind ts)
    {t : Token TokenKind} (hstep : s.step t = .ok s') : s'.Behind (ts ++ [t]) := by
  obtain ⟨fields, phase⟩ := s
  obtain ⟨gs, opened, rfl, hfields, hopened⟩ := h
  dsimp only at hfields hopened
  subst hfields
  obtain ⟨kind, text, span⟩ := t
  rw [List.append_assoc]
  cases hopened with
  | start =>
    cases kind <;> cases hstep
    exact ⟨gs, _, rfl, rfl, .named ⟨_, rfl⟩⟩
  | named name =>
    cases kind <;> cases hstep
    exact ⟨gs, _, rfl, rfl, .first name ⟨_, rfl⟩⟩
  | first name equals =>
    cases kind <;> cases hstep
    exact ⟨gs, _, rfl, rfl, .valued ⟨name, equals, ⟨_, rfl⟩, []⟩⟩
  | valued g =>
    cases kind <;> cases hstep
    · exact ⟨gs ++ [g], [_], by simp, by simp, .named ⟨_, rfl⟩⟩
    · exact ⟨gs, _, rfl, rfl, .next g ⟨_, rfl⟩⟩
  | next g comma =>
    cases kind <;> cases hstep
    refine ⟨gs, (g.add comma ⟨_, rfl⟩).tokens, by rw [Group.tokens_add, List.append_assoc]; rfl,
      rfl, ?_⟩
    rw [← Group.read_add g comma ⟨_, rfl⟩]
    exact .valued _

theorem behind_of_run {ts : List (Token TokenKind)} {s : FieldState}
    (h : ts.foldlM FieldState.step initial = .ok s) : s.Behind ts :=
  foldlM_history ⟨[], [], rfl, rfl, .start⟩ (fun _ _ _ _ hread => hread.step) h

/-- At the end of a field there are complete groups. -/
theorem Behind.finish {s : FieldState} {ts : List (Token TokenKind)} (h : s.Behind ts) {stop : Nat}
    {fields : List Field} (hfinish : s.finish stop = .ok fields) :
    ∃ gs : List Group, ts = gs.flatMap Group.tokens ∧ fields = gs.map Group.read := by
  obtain ⟨done, phase⟩ := s
  obtain ⟨gs, opened, rfl, hfields, hopened⟩ := h
  dsimp only at hfields hopened
  subst hfields
  cases hopened with
  | start =>
    cases hfinish
    exact ⟨gs, by simp, rfl⟩
  | valued g =>
    cases hfinish
    exact ⟨gs ++ [g], by simp, by simp⟩
  | named | first | next => cases hfinish

/-- **What has been read can go on to a record** with a token of the kind that is expected. -/
theorem Behind.exists_groups {s : FieldState} {ts : List (Token TokenKind)} (h : s.Behind ts) :
    ∃ t more, ∃ gs : List Group, t.kind = s.expected ∧
      ts ++ t :: more = gs.flatMap Group.tokens := by
  obtain ⟨done, phase⟩ := s
  obtain ⟨gs, opened, rfl, -, hopened⟩ := h
  dsimp only at hopened
  have hmore : ∃ t more, ∃ later : List Group, t.kind = (⟨done, phase⟩ : FieldState).expected ∧
      opened ++ t :: more = later.flatMap Group.tokens := by
    cases hopened with
    | start => exact ⟨_, _, [⟨.some .name, .some .equals, .some .text, []⟩], rfl, rfl⟩
    | named name => exact ⟨_, _, [⟨name, .some .equals, .some .text, []⟩], rfl, rfl⟩
    | first name equals => exact ⟨_, _, [⟨name, equals, .some .text, []⟩], rfl, rfl⟩
    | valued g => exact ⟨_, _, [g, ⟨.some .name, .some .equals, .some .text, []⟩], rfl, rfl⟩
    | next g comma =>
      exact ⟨(TokenOf.some .text).1, [], [g.add comma (.some .text)], rfl,
        by simp [Group.tokens_add]⟩
  obtain ⟨t, more, later, hkind, hlater⟩ := hmore
  exact ⟨t, more, gs ++ later, hkind, by rw [List.append_assoc, hlater, List.flatMap_append]⟩

end FieldState

/-! ### What is refused -/

theorem Viable.of_append {kinds more : List TokenKind} (h : Viable (kinds ++ more)) :
    Viable kinds := by
  obtain ⟨rest, hrest⟩ := h
  exact ⟨more ++ rest, by rw [← List.append_assoc]; exact hrest⟩

theorem FieldState.Behind.viable {s : FieldState} {ts : List (Token TokenKind)} (h : s.Behind ts) :
    Viable (ts.map (·.kind) ++ [s.expected]) := by
  obtain ⟨t, more, gs, hkind, hgroups⟩ := h.exists_groups
  refine ⟨more.map (·.kind), ?_⟩
  have hmem := map_kind_mem_recordPattern_iff.mpr ⟨gs, hgroups⟩
  simpa [hkind] using hmem

/-- No record goes on with a token that is refused. -/
theorem FieldState.not_viable_of_step {before : List (Token TokenKind)} {s : FieldState}
    (run : before.foldlM step initial = .ok s) {t : Token TokenKind} {e : Located Fault}
    (h : s.step t = .error e) : ¬ Viable ((before ++ [t]).map (·.kind)) := by
  rintro ⟨more, hmore⟩
  -- tokens of the kinds that follow would make a record, which would be read
  have hmap : (before ++ [t] ++ more.map fun kind => (TokenOf.some kind).1).map (·.kind) =
      (before ++ [t]).map (·.kind) ++ more := by simp [Function.comp_def, TokenOf.some]
  rw [← hmap] at hmore
  obtain ⟨gs, hgroups⟩ := map_kind_mem_recordPattern_iff.mp hmore
  obtain ⟨last, hrun, -⟩ := run_groups gs
  rw [← hgroups, List.append_assoc, foldlM_append_ok run] at hrun
  obtain ⟨next, hstep, -⟩ := bind_eq_ok_iff.mp hrun
  rw [h] at hstep
  cases hstep

/-- The fault of tokens that are no record: the first token that no record has behind those
    before it, or the end of the line, where the tokens only begin a record. -/
inductive RefusedAt (ts : List (Token TokenKind)) (stop : Nat) : Located Fault → Prop
  | token {before after : List (Token TokenKind)} {t : Token TokenKind} {expected : TokenKind} :
      ts = before ++ t :: after → Viable (before.map (·.kind)) →
      ¬ Viable ((before ++ [t]).map (·.kind)) → Viable (before.map (·.kind) ++ [expected]) →
      RefusedAt ts stop ⟨.unexpected expected t.text, t.span, none⟩
  | lineEnd {expected : TokenKind} : Viable (ts.map (·.kind)) →
      ts.map (·.kind) ∉ recordPattern.matches' → Viable (ts.map (·.kind) ++ [expected]) →
      RefusedAt ts stop ⟨.unexpectedLineEnd expected, .point stop, none⟩

theorem RefusedAt.isUnresolved {ts : List (Token TokenKind)} {stop : Nat} {e : Located Fault}
    (h : RefusedAt ts stop e) : e.fault.isUnresolved = false := by
  cases h <;> rfl

/-! ### Records -/

namespace Record

variable {l : Line} {r : Record} {e : Located Fault}

/-- The groups of a line are read as their fields. -/
theorem map_read_of_tokens {gs : List Group}
    (h : tokens l.offset l.text = gs.flatMap Group.tokens) :
    gs.map Group.read = gs.map Group.field := by
  refine List.map_congr_left fun g hg => ?_
  have hline := between_tokens l.offset l.text
  rw [h, List.flatMap_def] at hline
  exact Group.read_eq_field (hline.sublist (List.sublist_flatten_of_mem (List.mem_map_of_mem hg)))

theorem parse_eq_ok_iff : Record.parse l = .ok r ↔
    ∃ gs : List Group, tokens l.offset l.text = gs.flatMap Group.tokens ∧
      r = ⟨l.span, gs.map Group.field⟩ := by
  constructor
  · intro h
    obtain ⟨s, hrun, h⟩ := bind_eq_ok_iff.mp h
    obtain ⟨fields, hfinish, h⟩ := bind_eq_ok_iff.mp h
    obtain ⟨gs, hgroups, rfl⟩ := (FieldState.behind_of_run hrun).finish hfinish
    cases h
    exact ⟨gs, hgroups, by rw [map_read_of_tokens hgroups]⟩
  · rintro ⟨gs, hgroups, rfl⟩
    obtain ⟨s, hrun, hfinish⟩ := FieldState.run_groups gs
    rw [Record.parse, hgroups, hrun, ok_bind, hfinish, ok_bind, map_read_of_tokens hgroups]

theorem exists_parse_iff : (∃ r, Record.parse l = .ok r) ↔
    (tokens l.offset l.text).map (·.kind) ∈ recordPattern.matches' := by
  rw [map_kind_mem_recordPattern_iff]
  constructor
  · rintro ⟨r, hr⟩
    obtain ⟨gs, hgroups, -⟩ := parse_eq_ok_iff.mp hr
    exact ⟨gs, hgroups⟩
  · rintro ⟨gs, hgroups⟩
    exact ⟨_, parse_eq_ok_iff.mpr ⟨gs, hgroups, rfl⟩⟩

theorem refusedAt_of_parse (h : Record.parse l = .error e) :
    RefusedAt (tokens l.offset l.text) l.span.stop e := by
  rcases bind_eq_error_iff.mp h with hfails | ⟨s, hrun, hfails⟩
  · obtain ⟨before, t, after, s, hsplit, hrun, hstep⟩ := exists_run_of_foldlM_error hfails
    have hviable := (FieldState.behind_of_run hrun).viable
    obtain rfl := FieldState.error_of_step hstep
    exact .token hsplit hviable.of_append (FieldState.not_viable_of_step hrun hstep) hviable
  · have hfinish : s.finish l.span.stop = .error e := by
      rcases bind_eq_error_iff.mp hfails with hfinish | ⟨fields, -, hok⟩
      · exact hfinish
      · cases hok
    have hviable := (FieldState.behind_of_run hrun).viable
    obtain rfl := FieldState.error_of_finish hfinish
    refine .lineEnd hviable.of_append ?_ hviable
    intro hmem
    obtain ⟨r, hr⟩ := exists_parse_iff.mpr hmem
    rw [h] at hr
    cases hr

end Record

/-- The file has the token at its span, and a text between quotes. -/
structure ShownIn (file : SourceFile) (t : Token TokenKind) : Prop where
  slice : file.slice t.span = t.text.toList
  quoted : t.kind = .text → ∃ inside, t.text.toList = '"' :: inside ++ ['"'] ∧
    unquote t.text = String.ofList (unescape inside)

theorem unquote_of_quoted {text : String} {inside : List Char}
    (h : text.toList = '"' :: inside ++ ['"']) :
    unquote text = String.ofList (unescape inside) := by
  simp [unquote, h, stripQuotes]

theorem shownIn_of_covers {file : SourceFile} {l : Line}
    (h : l.span.Covers 0 file.content.toList l.text) :
    ∀ t ∈ tokens l.offset l.text, ShownIn file t := by
  intro t ht
  refine ⟨SourceFile.slice_of_covers (h.trans (standsIn_tokens l.offset l.text t ht)), ?_⟩
  intro hkind
  obtain ⟨inside, hinside⟩ := quoted_tokens l.offset l.text t ht hkind
  exact ⟨inside, hinside, unquote_of_quoted hinside⟩

/-- **Records are read by their grammar.**  A line is a record exactly if its tokens are groups,
    and then it has a field for each.  If not, the fault is at the first token that no record
    has behind those before it, or at the end of the line.  Spans are those of the tokens in
    every file that has the line at its place. -/
theorem parse_by_grammar (l : Line) :
    (∀ r, Record.parse l = .ok r ↔ ∃ gs : List Group,
      tokens l.offset l.text = gs.flatMap Group.tokens ∧ r = ⟨l.span, gs.map Group.field⟩) ∧
    ((∃ r, Record.parse l = .ok r) ↔
      (tokens l.offset l.text).map (·.kind) ∈ recordPattern.matches') ∧
    (∀ e, Record.parse l = .error e → RefusedAt (tokens l.offset l.text) l.span.stop e ∧
      ∀ file, (ParseError.ofLocated .tree file e).kind = .malformed) ∧
    ∀ file : SourceFile, l.span.Covers 0 file.content.toList l.text →
      ∀ t ∈ tokens l.offset l.text, ShownIn file t := by
  refine ⟨fun r => Record.parse_eq_ok_iff, Record.exists_parse_iff, ?_, ?_⟩
  · intro e h
    have hrefused := Record.refusedAt_of_parse h
    exact ⟨hrefused, fun file => kind_ofLocated_tree file hrefused.isUnresolved⟩
  · intro file hcovers
    exact shownIn_of_covers hcovers

/-- A file whose second line is a record with an escaped quote. -/
def quotesFile : SourceFile where
  name := "quotes.tree"
  content := "id=\"p\"\ntype=\"3\" elts=\"a\",\"b\\\"c\"\n"

def quotesLine : Line := ⟨"type=\"3\" elts=\"a\",\"b\\\"c\"".toList, 7⟩

def quotesRecord : Record where
  span := ⟨7, 31⟩
  fields := [⟨"type", ⟨7, 15⟩, [("3", ⟨12, 15⟩)]⟩,
    ⟨"elts", ⟨16, 31⟩, [("a", ⟨21, 24⟩), ("b\"c", ⟨25, 31⟩)]⟩]

/-- A name that lacks its equals sign. -/
def signlessLine : Line := ⟨"type \"3\"".toList, 0⟩

theorem parse_quotesLine_and_signlessLine :
    quotesLine ∈ Line.ofText quotesFile.content.toList ∧
      Record.parse quotesLine = .ok quotesRecord ∧
      (∃ gs : List Group, tokens quotesLine.offset quotesLine.text = gs.flatMap Group.tokens ∧
        quotesRecord = ⟨quotesLine.span, gs.map Group.field⟩) ∧
      (∀ t ∈ tokens quotesLine.offset quotesLine.text, ShownIn quotesFile t) ∧
      Record.parse signlessLine = .error ⟨.unexpected .equals "\"3\"", ⟨5, 8⟩, none⟩ ∧
      RefusedAt (tokens signlessLine.offset signlessLine.text) signlessLine.span.stop
        ⟨.unexpected .equals "\"3\"", ⟨5, 8⟩, none⟩ := by
  have hline : quotesLine ∈ Line.ofText quotesFile.content.toList := by decide
  have hrecord : Record.parse quotesLine = .ok quotesRecord := by decide
  have hrefused : Record.parse signlessLine =
      .error ⟨.unexpected .equals "\"3\"", ⟨5, 8⟩, none⟩ := by decide
  obtain ⟨hgroups, -, -, hshown⟩ := parse_by_grammar quotesLine
  obtain ⟨-, -, herror, -⟩ := parse_by_grammar signlessLine
  exact ⟨hline, hrecord, (hgroups _).mp hrecord,
    hshown quotesFile (Line.standsIn_ofText _ _ hline).covers, hrefused, (herror _ hrefused).1⟩

end DecisionModel.TreeFile
