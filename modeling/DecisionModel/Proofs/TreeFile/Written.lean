import DecisionModel.Proofs.Lists
import DecisionModel.Proofs.TreeFile.Quoted
import DecisionModel.Proofs.TreeFile.Token
import DecisionModel.TreeFile.Record

/-!
# Records that are written

A record is written as its fields, with a space between two of them and a comma between two
values.  Whatever the values are, as long as they stay on one line, reading gives back the
names and the values.
-/

namespace DecisionModel.TreeFile

open Text

theorem lineFeed_notMem_escape {value : List Char} (h : '\n' ∉ value) : '\n' ∉ escape value := by
  induction value with
  | nil => exact h
  | cons c rest ih =>
    simp only [List.mem_cons, not_or] at h
    obtain ⟨hc, hrest⟩ := h
    unfold escape
    split <;> simp [hc, ih hrest]

/-! ### The text of a record -/

/-- A name with values, as a field has them. -/
abbrev Content := String × List String

def valuesText (values : List String) : List Char :=
  [','].intercalate (values.map fun value => (quote value).toList)

def fieldText (f : Content) : List Char := f.1.toList ++ '=' :: valuesText f.2

def recordText (fields : List Content) : List Char := [' '].intercalate (fields.map fieldText)

/-- The text of the values behind the first. -/
def moreValuesText (values : List String) : List Char :=
  values.flatMap fun value => [','] ++ (quote value).toList

/-- The text of the fields behind the first. -/
def moreFieldsText (fields : List Content) : List Char :=
  fields.flatMap fun f => [' '] ++ fieldText f

theorem valuesText_cons (value : String) (more : List String) :
    valuesText (value :: more) = (quote value).toList ++ moreValuesText more := by
  rw [valuesText, List.map_cons, intercalate_cons, List.flatMap_map, moreValuesText]

theorem recordText_cons (f : Content) (more : List Content) :
    recordText (f :: more) = fieldText f ++ moreFieldsText more := by
  rw [recordText, List.map_cons, intercalate_cons, List.flatMap_map, moreFieldsText]

/-- Whether a text can be the name of a field. -/
def isFieldName (name : String) : Bool :=
  match name.toList with
  | [] => false
  | c :: rest => isNameStart c && rest.all isNameRest

/-- A field that can be written. -/
structure Writable (f : Content) : Prop where
  name : isFieldName f.1 = true
  nonempty : f.2 ≠ []
  no_lineFeed : ∀ value ∈ f.2, '\n' ∉ value.toList

theorem lineFeed_notMem_name {name : String} (h : isFieldName name = true) : '\n' ∉ name.toList := by
  intro hmem
  unfold isFieldName at h
  rcases hname : name.toList with _ | ⟨c, rest⟩
  · simp [hname] at hmem
  · rw [hname] at h hmem
    simp only [Bool.and_eq_true, List.all_eq_true] at h
    obtain ⟨hstart, hrest⟩ := h
    rcases List.mem_cons.mp hmem with rfl | hlater
    · revert hstart
      decide
    · have hfeed := hrest '\n' hlater
      revert hfeed
      decide

theorem Writable.lineFeed_notMem_fieldText {f : Content} (h : Writable f) :
    '\n' ∉ fieldText f := by
  obtain ⟨name, values⟩ := f
  obtain ⟨value, more, rfl⟩ := List.exists_cons_of_ne_nil h.nonempty
  have hquote : ∀ v ∈ value :: more, '\n' ∉ (quote v).toList := by
    intro v hv
    have hescape := lineFeed_notMem_escape (h.no_lineFeed v hv)
    simpa [quote] using hescape
  simp only [fieldText, valuesText_cons, moreValuesText, List.mem_append, List.mem_cons,
    List.mem_flatMap, not_or, not_exists, not_and]
  refine ⟨lineFeed_notMem_name h.name, by decide, hquote value (by simp), ?_⟩
  intro v hv
  exact ⟨by simp, hquote v (by simp [hv])⟩

/-- A record that is written stays on its line. -/
theorem lineFeed_notMem_recordText {fields : List Content} (h : ∀ f ∈ fields, Writable f) :
    '\n' ∉ recordText fields := by
  cases fields with
  | nil => simp [recordText]
  | cons f more =>
    simp only [recordText_cons, moreFieldsText, List.mem_append, List.mem_flatMap, not_or,
      not_exists, not_and]
    refine ⟨(h f (by simp)).lineFeed_notMem_fieldText, ?_⟩
    intro g hg
    exact ⟨by simp, (h g (by simp [hg])).lineFeed_notMem_fieldText⟩

theorem getLast?_append_right {α : Type} {xs ys : List α} {last : α}
    (h : ys.getLast? = some last) : (xs ++ ys).getLast? = some last := by
  rw [List.getLast?_append, h]
  rfl

theorem getLast?_append_flatMap {α β : Type} {first : List β} {last : β} {xs : List α}
    {f : α → List β} (hfirst : first.getLast? = some last)
    (hf : ∀ x ∈ xs, (f x).getLast? = some last) :
    (first ++ xs.flatMap f).getLast? = some last := by
  induction xs generalizing first with
  | nil => simpa using hfirst
  | cons x xs ih =>
    rw [List.flatMap_cons, ← List.append_assoc]
    exact ih (getLast?_append_right (hf x (by simp))) fun y hy => hf y (by simp [hy])

/-- A record that is written ends with a quote. -/
theorem getLast?_recordText {fields : List Content} (h : ∀ f ∈ fields, Writable f)
    (hne : fields ≠ []) : (recordText fields).getLast? = some '"' := by
  have hquote : ∀ v : String, (quote v).toList.getLast? = some '"' := by
    intro v
    rw [quote, String.toList_ofList]
    exact getLast?_append_right rfl
  have hfield : ∀ f ∈ fields, (fieldText f).getLast? = some '"' := by
    rintro ⟨name, values⟩ hf
    obtain ⟨value, more, rfl⟩ := List.exists_cons_of_ne_nil (h _ hf).nonempty
    have hvalues : (valuesText (value :: more)).getLast? = some '"' := by
      rw [valuesText_cons]
      exact getLast?_append_flatMap (hquote value) fun v _ => getLast?_append_right (hquote v)
    simp [fieldText, List.getLast?_append, List.getLast?_cons, hvalues]
  obtain ⟨f, more, rfl⟩ := List.exists_cons_of_ne_nil hne
  rw [recordText_cons]
  refine getLast?_append_flatMap (hfield f (by simp)) ?_
  intro g hg
  exact getLast?_append_right (hfield g (by simp [hg]))

/-! ### Tokens -/

/-- The text cannot go on with a name that stands in front of it. -/
def EndsName (text : List Char) : Prop := ∀ c rest, text = c :: rest → isNameRest c = false

theorem isSpace_of_isNameStart {c : Char} (h : isNameStart c = true) : isSpace c = false := by
  by_contra hspace
  revert h
  simp only [Bool.not_eq_false, isSpace, Bool.or_eq_true, beq_iff_eq] at hspace
  rcases hspace with ((rfl | rfl) | rfl) | rfl <;> decide

theorem tokensFrom_name {cs : List Char} (hcs : ∀ c ∈ cs, isNameRest c = true)
    {rest : List Char} (hrest : EndsName rest) (start : Nat) (reversed : List Char) (place : Nat) :
    tokensFrom (.name start reversed) place (cs ++ rest) =
      closed .name start (cs.reverse ++ reversed) ::
        tokensFrom .nothing (place + byteLength cs) rest := by
  have hstep : ∀ c ∈ cs, ∀ place reversed,
      step place c (.name start reversed) = ([], .name start (c :: reversed)) := by
    intro c hc place reversed
    rw [step, if_pos (hcs c hc)]
  rw [scans.collect (.name start) hstep]
  cases rest with
  | nil => rfl
  | cons c rest =>
    have hc := hrest c rest rfl
    simp only [tokensFrom, step, hc, Bool.false_eq_true, if_false, List.cons_append]

/-- A name that ends is a token. -/
theorem tokensFrom_nameToken {c : Char} {cs : List Char} (hc : isNameStart c = true)
    (hcs : ∀ d ∈ cs, isNameRest d = true) {rest : List Char} (hrest : EndsName rest)
    (place : Nat) :
    tokensFrom .nothing place (c :: cs ++ rest) =
      .ofChars .name place (c :: cs) ::
        tokensFrom .nothing (place + byteLength (c :: cs)) rest := by
  have hname := tokensFrom_name hcs hrest place [c] (place + c.utf8Size)
  simp only [List.cons_append, tokensFrom, step, begin, isSpace_of_isNameStart hc, hc, if_true,
    Bool.false_eq_true, if_false, List.nil_append]
  rw [hname, closed, byteLength_cons, ← Nat.add_assoc]
  simp

/-- The name of a field and its equals sign are two tokens. -/
theorem tokensFrom_fieldName {name : String} (h : isFieldName name = true) (place : Nat)
    (rest : List Char) :
    ∃ t u place', t.kind = .name ∧ t.text = name ∧ u.kind = .equals ∧
      tokensFrom .nothing place (name.toList ++ '=' :: rest) =
        t :: u :: tokensFrom .nothing place' rest := by
  unfold isFieldName at h
  rcases hname : name.toList with _ | ⟨c, cs⟩
  · rw [hname] at h
    cases h
  · rw [hname] at h
    simp only [Bool.and_eq_true, List.all_eq_true] at h
    obtain ⟨hstart, hcs⟩ := h
    have hends : EndsName ('=' :: rest) := by
      rintro d after ⟨⟩
      decide
    refine ⟨.ofChars .name place (c :: cs), .ofChars .equals _ ['='], _, rfl, ?_, rfl,
      tokensFrom_nameToken hstart hcs hends place⟩
    rw [Token.ofChars, ← hname, String.ofList_toList]

theorem exists_quoteToken (value : String) (place : Nat) (rest : List Char) :
    ∃ t place', t.kind = .text ∧ t.text = quote value ∧
      tokensFrom .nothing place ((quote value).toList ++ rest) =
        t :: tokensFrom .nothing place' rest :=
  ⟨_, _, rfl, rfl, tokensFrom_quote value place rest⟩

/-! ### Fields -/

def Field.content (f : Field) : Content := (f.name, f.values.map (·.1))

/-- A state between two fields that has read the given ones. -/
def FieldState.HasRead (s : FieldState) (fields : List Content) : Prop :=
  ∃ done, (∀ stop, s.finish stop = .ok done) ∧ done.map Field.content = fields

theorem FieldState.step_name {s : FieldState} {done : List Field}
    (h : ∀ stop, s.finish stop = .ok done) {t : Token TokenKind} (ht : t.kind = .name) :
    s.step t = .ok ⟨done, .named t.text t.span⟩ := by
  obtain ⟨fields, phase⟩ := s
  have hfinish := h 0
  cases phase with
  | start =>
    cases hfinish
    simp [FieldState.step, ht]
  | valued f =>
    cases hfinish
    simp [FieldState.step, ht]
  | _ => cases hfinish

theorem content_addValue (f : Field) {t : Token TokenKind} {value : String}
    (ht : t.text = quote value) :
    (FieldState.addValue f t).content = (f.name, f.content.2 ++ [value]) := by
  simp [FieldState.addValue, Field.content, ht, unquote_quote]

/-- Further values are added to a field that has one. -/
theorem foldlM_moreValues (values : List String) (done : List Field) (f : Field) (place : Nat)
    (rest : List Char) :
    ∃ f' place', f'.content = (f.name, f.content.2 ++ values) ∧
      (tokensFrom .nothing place (moreValuesText values ++ rest)).foldlM FieldState.step
          ⟨done, .valued f⟩ =
        (tokensFrom .nothing place' rest).foldlM FieldState.step ⟨done, .valued f'⟩ := by
  induction values generalizing f place with
  | nil => exact ⟨f, place, by simp [Field.content], rfl⟩
  | cons value values ih =>
    obtain ⟨t, place₁, hkind, htext, htokens⟩ := exists_quoteToken value
      (place + ','.utf8Size) (moreValuesText values ++ rest)
    obtain ⟨f', place', hcontent, hfold⟩ := ih (FieldState.addValue f t) place₁
    refine ⟨f', place', ?_, ?_⟩
    · rw [hcontent, content_addValue f htext]
      simp [FieldState.addValue]
    · have hcomma : tokensFrom .nothing place (moreValuesText (value :: values) ++ rest) =
          .ofChars .comma place [','] :: t :: tokensFrom .nothing place₁
            (moreValuesText values ++ rest) := by
        rw [← htokens]
        simp [moreValuesText, tokensFrom, TreeFile.step, begin, isSpace, isNameStart]
      rw [hcomma, foldlM_cons_ok (t := ⟨done, .next f⟩) rfl,
        foldlM_cons_ok (t := ⟨done, .valued (FieldState.addValue f t)⟩)
          (by simp [FieldState.step, hkind]), hfold]

/-- A field is read behind complete ones. -/
theorem foldlM_field {f : Content} (hf : Writable f) {s : FieldState} {fields : List Content}
    (hs : s.HasRead fields) (place : Nat) (rest : List Char) :
    ∃ s' place', s'.HasRead (fields ++ [f]) ∧
      (tokensFrom .nothing place (fieldText f ++ rest)).foldlM FieldState.step s =
        (tokensFrom .nothing place' rest).foldlM FieldState.step s' := by
  obtain ⟨done, hfinish, hdone⟩ := hs
  obtain ⟨name, values⟩ := f
  obtain ⟨hname, hnonempty, -⟩ := hf
  obtain ⟨value, more, rfl⟩ := List.exists_cons_of_ne_nil hnonempty
  have htext : fieldText (name, value :: more) ++ rest =
      name.toList ++ '=' :: ((quote value).toList ++ (moreValuesText more ++ rest)) := by
    simp only [fieldText, valuesText_cons, List.append_assoc, List.cons_append]
  obtain ⟨t, u, place₁, ht, hnamed, hu, hnameTokens⟩ := tokensFrom_fieldName hname place
    ((quote value).toList ++ (moreValuesText more ++ rest))
  obtain ⟨w, place₂, hw, hquoted, hvalueTokens⟩ := exists_quoteToken value place₁
    (moreValuesText more ++ rest)
  obtain ⟨f', place', hcontent, hfold⟩ := foldlM_moreValues more done
    (FieldState.addValue ⟨t.text, t.span, []⟩ w) place₂ rest
  refine ⟨⟨done, .valued f'⟩, place', ⟨done ++ [f'], fun _ => rfl, ?_⟩, ?_⟩
  · rw [content_addValue _ hquoted] at hcontent
    rw [List.map_append, hdone, List.map_singleton, hcontent]
    simp [FieldState.addValue, Field.content, hnamed]
  · -- name, equals sign and first value, then the further values
    rw [htext, hnameTokens, hvalueTokens, foldlM_cons_ok (FieldState.step_name hfinish ht),
      foldlM_cons_ok (t := ⟨done, .first t.text t.span⟩) (by simp [FieldState.step, hu]),
      foldlM_cons_ok (t := ⟨done, .valued (FieldState.addValue ⟨t.text, t.span, []⟩ w)⟩)
        (by simp [FieldState.step, hw]), hfold]

theorem foldlM_moreFields {more : List Content} (h : ∀ f ∈ more, Writable f) {s : FieldState}
    {fields : List Content} (hs : s.HasRead fields) (place : Nat) :
    ∃ s', s'.HasRead (fields ++ more) ∧
      (tokensFrom .nothing place (moreFieldsText more)).foldlM FieldState.step s = .ok s' := by
  induction more generalizing s fields place with
  | nil => exact ⟨s, by simpa using hs, rfl⟩
  | cons f more ih =>
    obtain ⟨s₁, place₁, hs₁, hfold₁⟩ :=
      foldlM_field (h f (by simp)) hs (place + ' '.utf8Size) (moreFieldsText more)
    obtain ⟨s', hs', hfold⟩ := ih (fun g hg => h g (by simp [hg])) hs₁ place₁
    refine ⟨s', by simpa using hs', ?_⟩
    rw [← hfold, ← hfold₁]
    simp [moreFieldsText, tokensFrom, TreeFile.step, begin, isSpace]

/-- **A record that is written is read back**, wherever its line stands. -/
theorem parse_recordText {fields : List Content} (h : ∀ f ∈ fields, Writable f) {l : Line}
    (hl : l.text = recordText fields) :
    ∃ r, Record.parse l = .ok r ∧ r.fields.map Field.content = fields := by
  have hread : ∃ s : FieldState, s.HasRead fields ∧
      (tokens l.offset l.text).foldlM FieldState.step FieldState.initial = .ok s := by
    have hinitial : FieldState.initial.HasRead [] := ⟨[], fun _ => rfl, rfl⟩
    rw [hl, tokens]
    cases fields with
    | nil => exact ⟨_, hinitial, rfl⟩
    | cons f more =>
      obtain ⟨s₁, place₁, hs₁, hfold₁⟩ :=
        foldlM_field (h f (by simp)) hinitial l.offset (moreFieldsText more)
      have hmore : ∀ g ∈ more, Writable g := fun g hg => h g (by simp [hg])
      obtain ⟨s, hs, hfold⟩ := foldlM_moreFields hmore hs₁ place₁
      refine ⟨s, hs, ?_⟩
      rw [recordText_cons, hfold₁, hfold]
  obtain ⟨s, ⟨done, hfinish, hdone⟩, hfold⟩ := hread
  refine ⟨⟨l.span, done⟩, ?_, hdone⟩
  rw [Record.parse, hfold]
  simp only [bind, Except.bind, hfinish]

/-! ### Fields by name -/

theorem Field.single_eq_ok {f : Field} {value : String} (h : f.content.2 = [value]) :
    ∃ span, f.single = .ok (value, span) := by
  obtain ⟨⟨value', span⟩, hvalues, rfl⟩ := List.map_eq_singleton_iff.mp h
  exact ⟨span, by rw [Field.single, hvalues]⟩

namespace Record

variable {r : Record} {fields : List Content}

theorem map_content_field? (h : r.fields.map Field.content = fields) (name : String) :
    (r.field? name).map Field.content = fields.find? (·.1 == name) := by
  rw [← h, List.find?_map]
  rfl

theorem isSome_field? (h : r.fields.map Field.content = fields) (name : String) :
    (r.field? name).isSome = (fields.find? (·.1 == name)).isSome := by
  rw [← map_content_field? h, Option.isSome_map]

theorem exists_field (h : r.fields.map Field.content = fields) (name : String) {f : Content}
    (hf : fields.find? (·.1 == name) = some f) :
    ∃ field, r.field? name = some field ∧ field.content = f := by
  rw [← map_content_field? h name] at hf
  exact Option.map_eq_some_iff.mp hf

theorem map_content_fieldsNamed (h : r.fields.map Field.content = fields) (name : String) :
    (r.fieldsNamed name).map Field.content = fields.filter (·.1 == name) := by
  rw [← h, List.filter_map]
  rfl

theorem required_eq_ok (h : r.fields.map Field.content = fields) (name : String) {f : Content}
    (hf : fields.find? (·.1 == name) = some f) :
    ∃ field, r.required name = .ok field ∧ field.content = f := by
  obtain ⟨field, hfield, hcontent⟩ := exists_field h name hf
  exact ⟨field, by rw [required, hfield], hcontent⟩

theorem value_eq_ok (h : r.fields.map Field.content = fields) (name : String) {f : Content}
    {value : String} (hf : fields.find? (·.1 == name) = some f) (hvalue : f.2 = [value]) :
    ∃ span, r.value name = .ok (value, span) := by
  obtain ⟨field, hrequired, rfl⟩ := required_eq_ok h name hf
  obtain ⟨span, hsingle⟩ := Field.single_eq_ok hvalue
  refine ⟨span, ?_⟩
  rw [Record.value, hrequired]
  exact hsingle

end Record

end DecisionModel.TreeFile
