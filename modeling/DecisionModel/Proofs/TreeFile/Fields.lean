import DecisionModel.Proofs.TreeFile.Moved
import DecisionModel.Proofs.TreeFile.Written

/-!
# What records say

What a line says as a record are the names and values of its fields, wherever it stands.  A line
that goes on with the fields of another record says what both say.

A record is read through the fields of a few names.  What it is taken for does not depend on
fields of other names.
-/

namespace DecisionModel.TreeFile

open Text

/-! ### Tokens of text that goes on -/

/-- What the tokens of a text are depends on what follows only through what is open behind it. -/
theorem exists_tokensFrom_append (text : List Char) (state : Open) (place : Nat) :
    ∃ front next, ∀ more, tokensFrom state place (text ++ more) =
      front ++ tokensFrom next (place + byteLength text) more := by
  induction text generalizing state place with
  | nil => exact ⟨[], state, fun _ => rfl⟩
  | cons c rest ih =>
    obtain ⟨front, next, hrest⟩ := ih (step place c state).2 (place + c.utf8Size)
    refine ⟨(step place c state).1 ++ front, next, ?_⟩
    intro more
    simp only [List.cons_append, tokensFrom, hrest, List.append_assoc, byteLength_cons,
      Nat.add_assoc]

namespace FieldState

theorem step_of_error (s : FieldState) {t : Token TokenKind} (ht : t.kind = .error) :
    ∃ e, s.step t = .error e := by
  obtain ⟨fields, phase⟩ := s
  cases phase <;> exact ⟨_, by simp only [step, ht]; rfl⟩

/-- A name at the end of a line lacks its value. -/
theorem finish_of_step_name {s s' : FieldState} {t : Token TokenKind} (ht : t.kind = .name)
    (h : s.step t = .ok s') (stop : Nat) : ∃ e, s'.finish stop = .error e := by
  obtain ⟨fields, phase⟩ := s
  cases phase with
  | start | valued f =>
    simp only [step, ht, Except.ok.injEq] at h
    subst h
    exact ⟨_, rfl⟩
  | named | first | next => simp [step, ht] at h

/-- Nothing is open behind the tokens of complete fields. -/
theorem eq_nothing_of_finish {front : List (Token TokenKind)} {state : Open} {s s' : FieldState}
    (run : (front ++ close state).foldlM step s = .ok s') {stop : Nat} {fields : List Field}
    (h : s'.finish stop = .ok fields) : state = .nothing := by
  obtain ⟨middle, -, run⟩ := exists_of_foldlM_append_ok run
  cases state with
  | nothing => rfl
  | name start reversed =>
    obtain ⟨last, hlast, hrun⟩ := bind_eq_ok_iff.mp run
    cases hrun
    obtain ⟨e, he⟩ := finish_of_step_name rfl hlast stop
    rw [h] at he
    cases he
  | text start reversed | escape start reversed =>
    obtain ⟨e, he⟩ := step_of_error middle (t := closed .error start reversed) rfl
    obtain ⟨last, hlast, -⟩ := bind_eq_ok_iff.mp run
    rw [he] at hlast
    cases hlast

/-! ### Fields behind complete ones -/

/-- The state with complete fields in front of its own. -/
def behind (done : List Field) (s : FieldState) : FieldState := ⟨done ++ s.fields, s.phase⟩

theorem step_behind (done : List Field) (s : FieldState) (t : Token TokenKind) :
    (s.behind done).step t = (s.step t).map (behind done) := by
  obtain ⟨fields, phase⟩ := s
  obtain ⟨kind, text, span⟩ := t
  cases phase <;> cases kind <;> simp [step, behind, expected, Except.map]

theorem finish_behind (done : List Field) (s : FieldState) (stop : Nat) :
    (s.behind done).finish stop = (s.finish stop).map (done ++ ·) := by
  obtain ⟨fields, phase⟩ := s
  cases phase <;> simp [finish, behind, expected, Except.map]

/-- Complete fields are followed by others as nothing is. -/
theorem run_of_finish {s : FieldState} {done : List Field}
    (h : ∀ stop, s.finish stop = .ok done) {ts : List (Token TokenKind)} {s' : FieldState}
    (run : ts.foldlM step initial = .ok s') {stop : Nat} {fields : List Field}
    (hfields : s'.finish stop = .ok fields) :
    ∃ last, ts.foldlM step s = .ok last ∧ last.finish stop = .ok (done ++ fields) := by
  cases ts with
  | nil =>
    cases run
    cases hfields
    exact ⟨s, rfl, by rw [h, initial, List.append_nil]⟩
  | cons t rest =>
    obtain ⟨first, hfirst, run⟩ := bind_eq_ok_iff.mp run
    have hname : t.kind = .name ∧ first = ⟨[], .named t.text t.span⟩ := by
      obtain ⟨kind, text, span⟩ := t
      cases kind <;> simp_all [step, initial]
    obtain ⟨hkind, rfl⟩ := hname
    refine ⟨s'.behind done, ?_, by rw [finish_behind, hfields]; rfl⟩
    have hnamed : (⟨done, .named t.text t.span⟩ : FieldState) =
        behind done ⟨[], .named t.text t.span⟩ := by simp [behind]
    rw [foldlM_cons_ok (step_name h hkind), hnamed, foldlM_map_state (step_behind done), run]
    rfl

theorem finish_congr {s : FieldState} {stop : Nat} {fields : List Field}
    (h : s.finish stop = .ok fields) (stop' : Nat) : s.finish stop' = .ok fields := by
  obtain ⟨done, phase⟩ := s
  cases phase with
  | start | valued => exact h
  | named | first | next => cases h

end FieldState

/-- **A record that goes on with another** has the fields of both. -/
theorem Record.parse_append {text more : List Char} {offset : Nat} {r q : Record}
    (hr : Record.parse ⟨text, offset⟩ = .ok r)
    (hq : Record.parse ⟨more, offset + byteLength text⟩ = .ok q) :
    ∃ joined, Record.parse ⟨text ++ more, offset⟩ = .ok joined ∧
      joined.fields = r.fields ++ q.fields := by
  unfold Record.parse at hr hq ⊢
  obtain ⟨s, hs, hr⟩ := bind_eq_ok_iff.mp hr
  obtain ⟨done, hdone, hr⟩ := bind_eq_ok_iff.mp hr
  obtain ⟨t, ht, hq⟩ := bind_eq_ok_iff.mp hq
  obtain ⟨fields, hfields, hq⟩ := bind_eq_ok_iff.mp hq
  cases hr
  cases hq
  obtain ⟨front, next, hnext⟩ := exists_tokensFrom_append text .nothing offset
  have hfront : tokens offset text = front ++ close next := by
    simpa [tokens, tokensFrom] using hnext []
  obtain rfl := FieldState.eq_nothing_of_finish (hfront ▸ hs) hdone
  have hjoined : tokens offset (text ++ more) =
      tokens offset text ++ tokens (offset + byteLength text) more := by
    rw [hfront, tokens, hnext, close, List.append_nil, tokens]
  obtain ⟨last, hrun, hlast⟩ :=
    FieldState.run_of_finish (FieldState.finish_congr hdone) ht hfields
  have hstop := FieldState.finish_congr hlast (Line.span ⟨text ++ more, offset⟩).stop
  refine ⟨⟨Line.span ⟨text ++ more, offset⟩, done ++ fields⟩, ?_, rfl⟩
  simp only [hjoined, foldlM_append_ok hs, hrun, ok_bind, hstop]

/-! ### Contents of a line -/

/-- The text is a record with these names and values. -/
def IsRecord (text : List Char) (fields : List Content) : Prop :=
  ∃ r, Record.parse ⟨text, 0⟩ = .ok r ∧ r.fields.map Field.content = fields

theorem content_move (f : Nat → Nat) (x : Field) : (x.move f).content = x.content := by
  simp [Field.move, Field.content, Function.comp_def]

theorem Record.parse_at (text : List Char) (offset : Nat) :
    Record.parse ⟨text, offset⟩ =
      moveResult (· + offset) (Record.move (· + offset)) (Record.parse ⟨text, 0⟩) := by
  have hmono : Monotone (· + offset) := fun _ _ h => Nat.add_le_add_right h offset
  have hmoves : MovesBy (· + offset) ⟨text, 0⟩ offset := fun _ _ => rfl
  have hparse := Record.parse_move hmono hmoves
  simp only [Line.move, Nat.zero_add] at hparse
  exact hparse

/-- **What a record says** does not depend on the place of its line. -/
theorem isRecord_iff (offset : Nat) {text : List Char} {fields : List Content} :
    IsRecord text fields ↔
      ∃ r, Record.parse ⟨text, offset⟩ = .ok r ∧ r.fields.map Field.content = fields := by
  have hcontent : ∀ r : Record, (r.move (· + offset)).fields.map Field.content =
      r.fields.map Field.content := by
    intro r
    simp [Record.move, Function.comp_def, content_move]
  rw [Record.parse_at]
  constructor
  · rintro ⟨r, hr, hfields⟩
    exact ⟨r.move (· + offset), by rw [hr]; rfl, by rw [hcontent, hfields]⟩
  · rintro ⟨r, hr, hfields⟩
    rcases hparse : Record.parse ⟨text, 0⟩ with e | origin
    · rw [hparse] at hr
      cases hr
    · rw [hparse] at hr
      cases hr
      exact ⟨origin, hparse, by rw [← hfields, hcontent]⟩

theorem IsRecord.append {text more : List Char} {fields others : List Content}
    (h : IsRecord text fields) (hmore : IsRecord more others) :
    IsRecord (text ++ more) (fields ++ others) := by
  obtain ⟨r, hr, rfl⟩ := h
  obtain ⟨q, hq, rfl⟩ := (isRecord_iff (0 + byteLength text)).mp hmore
  obtain ⟨joined, hjoined, hfields⟩ := Record.parse_append hr hq
  exact ⟨joined, hjoined, by rw [hfields, List.map_append]⟩

/-! ### Fields that are looked up -/

/-- The names of all fields that a record is read through. -/
def readNames : List String := ["type", "class", "att", "forks", "elts", "entries", "id"]

/-- The records say the same under the names they are read through. -/
def Record.Agrees (r q : Record) : Prop :=
  ∀ name ∈ readNames,
    (q.fieldsNamed name).map Field.content = (r.fieldsNamed name).map Field.content

/-- Further fields are not read if they have other names. -/
theorem Record.agrees_of_further {r q : Record} {further : List Content}
    (h : q.fields.map Field.content = r.fields.map Field.content ++ further)
    (hnames : ∀ f ∈ further, f.1 ∉ readNames) : r.Agrees q := by
  intro name hname
  have hnone : further.filter (·.1 == name) = [] := by
    rw [List.filter_eq_nil_iff]
    intro f hf hsame
    rw [beq_iff_eq] at hsame
    exact hnames f hf (hsame ▸ hname)
  rw [map_content_fieldsNamed h, List.filter_append, hnone, List.append_nil,
    ← map_content_fieldsNamed rfl]

theorem Field.single_of_content {f g : Field} (h : g.content = f.content) {value : String}
    {span : Span} (hf : f.single = .ok (value, span)) : ∃ span', g.single = .ok (value, span') := by
  unfold Field.single at hf
  split at hf
  · rename_i only hvalues
    cases hf
    refine Field.single_eq_ok ?_
    rw [h, Field.content, hvalues]
    rfl
  · cases hf

theorem Field.codes_of_content {f g : Field} (h : g.content = f.content) {a : Attribute}
    {codes : List Int} (hf : f.codes a = .ok codes) : g.codes a = .ok codes := by
  have hsame : g.values.map (·.1) = f.values.map (·.1) := congrArg Prod.snd h
  unfold Field.codes at hf ⊢
  generalize g.values = given at hsame ⊢
  generalize f.values = known at hsame hf
  induction known generalizing given codes with
  | nil =>
    rw [List.map_nil, List.map_eq_nil_iff] at hsame
    rw [hsame]
    exact hf
  | cons entry rest ih =>
    obtain ⟨⟨value, span⟩, given, rfl, hvalue, hrest⟩ := List.map_eq_cons_iff.mp hsame
    rw [List.mapM_cons] at hf ⊢
    obtain ⟨code, hcode, hf⟩ := bind_eq_ok_iff.mp hf
    obtain ⟨more, hmore, hf⟩ := bind_eq_ok_iff.mp hf
    cases hf
    dsimp only at hvalue hcode ⊢
    subst hvalue
    rcases hfound : a.codeOf? entry.1 with _ | found
    · simp only [hfound, reduceCtorEq] at hcode
    · simp only [hfound] at hcode ⊢
      cases hcode
      rw [ih given hrest hmore]
      rfl

theorem mapM_codes_of_content {fs gs : List Field}
    (h : gs.map Field.content = fs.map Field.content) {a : Attribute} {sets : List (List Int)}
    (hfs : fs.mapM (·.codes a) = .ok sets) : gs.mapM (·.codes a) = .ok sets := by
  induction fs generalizing gs sets with
  | nil =>
    rw [List.map_nil, List.map_eq_nil_iff] at h
    rw [h]
    exact hfs
  | cons f rest ih =>
    obtain ⟨g, gs, rfl, hg, hrest⟩ := List.map_eq_cons_iff.mp h
    rw [List.mapM_cons] at hfs ⊢
    obtain ⟨codes, hcodes, hfs⟩ := bind_eq_ok_iff.mp hfs
    obtain ⟨more, hmore, hfs⟩ := bind_eq_ok_iff.mp hfs
    cases hfs
    rw [Field.codes_of_content hg hcodes, ih hrest hmore]
    rfl

namespace Record.Agrees

variable {r q : Record} (h : r.Agrees q)

include h

theorem map_field? {name : String} (hname : name ∈ readNames) :
    (q.field? name).map Field.content = (r.field? name).map Field.content := by
  have hhead := congrArg List.head? (h name hname)
  simpa only [List.head?_map, fieldsNamed, List.head?_filter, field?] using hhead

theorem isSome_field? {name : String} (hname : name ∈ readNames) :
    (q.field? name).isSome = (r.field? name).isSome := by
  simpa using congrArg Option.isSome (h.map_field? hname)

theorem field? {name : String} (hname : name ∈ readNames) {f : Field}
    (hf : r.field? name = some f) : ∃ g, q.field? name = some g ∧ g.content = f.content := by
  have hmap := h.map_field? hname
  rw [hf, Option.map_some, Option.map_eq_some_iff] at hmap
  exact hmap

theorem required {name : String} (hname : name ∈ readNames) {f : Field}
    (hf : r.required name = .ok f) : ∃ g, q.required name = .ok g ∧ g.content = f.content := by
  unfold Record.required at hf
  split at hf
  · rename_i found hfound
    cases hf
    obtain ⟨g, hg, hcontent⟩ := h.field? hname hfound
    exact ⟨g, by rw [Record.required, hg], hcontent⟩
  · cases hf

theorem value {name : String} (hname : name ∈ readNames) {text : String} {span : Span}
    (hvalue : r.value name = .ok (text, span)) : ∃ span', q.value name = .ok (text, span') := by
  obtain ⟨f, hf, hsingle⟩ := bind_eq_ok_iff.mp hvalue
  obtain ⟨g, hg, hcontent⟩ := h.required hname hf
  obtain ⟨span', hspan⟩ := Field.single_of_content hcontent hsingle
  exact ⟨span', by rw [Record.value, hg]; exact hspan⟩

/-- A reader of a value that does not depend on its place reads the same of both. -/
theorem bind_value {name : String} (hname : name ∈ readNames) {α : Type}
    {read : String × Span → Except (Located Fault) α}
    (hread : ∀ text span span' x, read (text, span) = .ok x → read (text, span') = .ok x) {x : α}
    (hx : (r.value name >>= read) = .ok x) : (q.value name >>= read) = .ok x := by
  obtain ⟨⟨text, span⟩, hvalue, hx⟩ := bind_eq_ok_iff.mp hx
  obtain ⟨span', hvalue'⟩ := h.value hname hvalue
  rw [hvalue', ok_bind]
  exact hread text span span' x hx

theorem nodeType {type : NodeType} (htype : r.nodeType = .ok type) : q.nodeType = .ok type := by
  refine h.bind_value (by decide) ?_ htype
  intro text span span' x hx
  dsimp only at hx ⊢
  split at hx
  · exact hx
  · exact hx
  · exact hx
  · exact hx
  · cases hx

theorem forks {forks : Nat} (hforks : r.forks = .ok forks) : q.forks = .ok forks := by
  refine h.bind_value (by decide) ?_ hforks
  intro text span span' x hx
  dsimp only at hx ⊢
  split at hx
  · split at hx
    · rename_i n hn hbounds
      rw [if_pos hbounds]
      exact hx
    · cases hx
  · cases hx

theorem tested {schema : Schema} {a : Attribute} (ha : r.tested schema = .ok a) :
    q.tested schema = .ok a := by
  refine h.bind_value (by decide) ?_ ha
  intro text span span' x hx
  dsimp only at hx ⊢
  split at hx
  · exact hx
  · cases hx

theorem terminal {schema : Schema} {n : Node} (hn : r.terminal schema = .ok n) :
    q.terminal schema = .ok n := by
  refine h.bind_value (by decide) ?_ hn
  intro text span span' x hx
  dsimp only at hx ⊢
  split at hx
  · exact hx
  · cases hx

theorem mapM_codes {a : Attribute} {sets : List (List Int)}
    (hsets : (r.fieldsNamed "elts").mapM (·.codes a) = .ok sets) :
    (q.fieldsNamed "elts").mapM (·.codes a) = .ok sets :=
  mapM_codes_of_content (h "elts" (by decide)) hsets

theorem isHeader (hheader : State.isHeader r = .ok true) : State.isHeader q = .ok true := by
  unfold State.isHeader at hheader ⊢
  rw [h.isSome_field? (by decide)]
  split at hheader
  · cases hheader
  · rename_i htype
    rw [if_neg htype]
    split at hheader
    · rename_i entries hentries
      obtain ⟨⟨count, span⟩, hsingle, hcount⟩ := bind_eq_ok_iff.mp hheader
      obtain ⟨given, hgiven, hcontent⟩ := h.field? (by decide) hentries
      obtain ⟨span', hsingle'⟩ := Field.single_of_content hcontent hsingle
      simp only [hgiven, hsingle', ok_bind]
      dsimp only at hcount
      split at hcount
      · rename_i hone
        rw [if_pos hone]
      · cases hcount
    · rename_i hentries
      have hnone : q.field? "entries" = none := by
        have hmap := h.map_field? (show "entries" ∈ readNames by decide)
        rw [hentries, Option.map_none, Option.map_eq_none_iff] at hmap
        exact hmap
      simp only [hnone, h.isSome_field? (show "id" ∈ readNames by decide)]
      exact hheader

end Record.Agrees

end DecisionModel.TreeFile
