import DecisionModel.Proofs.TreeFile.Assembly
import DecisionModel.Proofs.TreeFile.Fields

/-!
# What the text of a line is for

What a line may be used for is a matter of its text alone, wherever it stands, and fields of names
that no record is read through make no difference to it.  The texts that may stand on a
placeholder, or say something about the whole file, are described through their fields.
-/

namespace DecisionModel.TreeFile

open Text

/-! ### Fields by name -/

theorem Field.exists_single_iff {f : Field} {value : String} :
    (∃ span, f.single = .ok (value, span)) ↔ f.content.2 = [value] := by
  constructor
  · rintro ⟨span, hsingle⟩
    unfold Field.single at hsingle
    split at hsingle
    · rename_i only hvalues
      cases hsingle
      simp [Field.content, hvalues]
    · cases hsingle
  · exact Field.single_eq_ok

/-- A line with these fields says something about the whole file. -/
def AboutFile (fields : List Content) : Prop :=
  fields.lookup "type" = none ∧
    (fields.lookup "entries" = some ["1"] ∨
      fields.lookup "entries" = none ∧ (fields.lookup "id").isSome = true)

namespace Record

variable {r : Record} {fields : List Content} (h : r.fields.map Field.content = fields)

include h

theorem lookup_eq (name : String) :
    fields.lookup name = (r.field? name).map fun f => f.content.2 := by
  rw [← h, field?]
  induction r.fields with
  | nil => rfl
  | cons f rest ih =>
    by_cases hname : name = f.name
    · simp [Field.content, hname]
    · have hother : (name == f.name) = false := by simpa using hname
      have hskip : (f.name == name) = false := by simpa using Ne.symm hname
      simp only [List.map_cons, List.find?_cons, List.lookup_cons, Field.content, hother, hskip]
      exact ih

theorem nodeType_eq_leaf_iff : r.nodeType = .ok .leaf ↔ fields.lookup "type" = some ["0"] := by
  rw [lookup_eq h]
  constructor
  · intro htype
    obtain ⟨⟨type, span⟩, hvalue, htype⟩ := bind_eq_ok_iff.mp htype
    obtain ⟨f, hf, hsingle⟩ := bind_eq_ok_iff.mp hvalue
    have hzero : type = "0" := by
      dsimp only at htype
      split at htype
      · rfl
      all_goals cases htype
    unfold required at hf
    split at hf
    · rename_i found hfound
      cases hf
      rw [hfound, Option.map_some, Field.exists_single_iff.mp ⟨span, hsingle⟩, hzero]
    · cases hf
  · intro hlookup
    obtain ⟨f, hf, hvalues⟩ := Option.map_eq_some_iff.mp hlookup
    obtain ⟨span, hsingle⟩ := Field.exists_single_iff.mpr hvalues
    simp only [nodeType, value, required, hf, ok_bind, hsingle]

theorem isHeader_eq_true_iff : State.isHeader r = .ok true ↔ AboutFile fields := by
  simp only [AboutFile, lookup_eq h, Option.isSome_map, Option.map_eq_none_iff,
    Option.map_eq_some_iff]
  unfold State.isHeader
  rcases htype : r.field? "type" with _ | type
  · rcases hentries : r.field? "entries" with _ | entries
    · simp
    · rcases hsingle : entries.single with e | ⟨count, span⟩
      · have hnone : entries.content.2 ≠ ["1"] := by
          intro hone
          obtain ⟨span, hok⟩ := Field.exists_single_iff.mpr hone
          rw [hsingle] at hok
          cases hok
        simp [hsingle, hnone, error_bind]
      · have hcount : entries.content.2 = [count] := Field.exists_single_iff.mp ⟨span, hsingle⟩
        by_cases hone : count = "1" <;> simp [hsingle, hcount, hone, ok_bind]
  · simp

end Record

/-! ### Blank text -/

/-- A blank character is no token, or an error by itself. -/
theorem begin_of_isBlank {c : Char} (hblank : Text.isBlank c = true) (place : Nat) :
    begin place c = ([], .nothing) ∨ begin place c = ([.ofChars .error place [c]], .nothing) := by
  have houtside : c.toNat ≤ 0x20 ∨ 0x85 ≤ c.toNat := by
    simp [Text.isBlank, CodePointTable.holds, blankTable] at hblank
    omega
  have hname : isNameStart c = false := by
    rw [Bool.eq_false_iff]
    intro hstart
    simp only [isNameStart, Char.isAlpha, Char.isUpper, Char.isLower, Bool.or_eq_true,
      Bool.and_eq_true, decide_eq_true_eq, beq_iff_eq, ge_iff_le, UInt32.le_iff_toNat_le] at hstart
    have hword : 65 ≤ c.toNat ∧ c.toNat ≤ 122 := by
      rcases hstart with (⟨hlow, hhigh⟩ | ⟨hlow, hhigh⟩) | rfl
      · exact ⟨hlow, Nat.le_trans hhigh (by decide)⟩
      · exact ⟨Nat.le_trans (by decide) hlow, hhigh⟩
      · decide
    omega
  have hne : ∀ d : Char, 0x20 < d.toNat → d.toNat < 0x85 → c ≠ d := by
    rintro d hlow hhigh rfl
    omega
  have hquote := hne '"' (by decide) (by decide)
  have hequals := hne '=' (by decide) (by decide)
  have hcomma := hne ',' (by decide) (by decide)
  by_cases hspace : isSpace c = true
  · exact .inl (by simp [begin, hspace])
  · exact .inr (by simp [begin, hspace, hname, hquote, hequals, hcomma])

/-- Blank text that is a record has no fields. -/
theorem eq_initial_of_isBlank {text : List Char} (hblank : ∀ c ∈ text, Text.isBlank c = true)
    {place : Nat} {s : FieldState}
    (run : (tokens place text).foldlM FieldState.step .initial = .ok s) : s = .initial := by
  induction text generalizing place with
  | nil =>
    cases run
    rfl
  | cons c rest ih =>
    obtain ⟨hc, hrest⟩ := List.forall_mem_cons.mp hblank
    have htokens : tokens place (c :: rest) =
        (begin place c).1 ++ tokensFrom (begin place c).2 (place + c.utf8Size) rest := rfl
    rw [htokens] at run
    rcases begin_of_isBlank hc place with hbegin | hbegin
    · rw [hbegin] at run
      exact ih hrest run
    · rw [hbegin] at run
      obtain ⟨next, hnext, -⟩ := bind_eq_ok_iff.mp run
      obtain ⟨e, he⟩ := FieldState.step_of_error .initial
        (t := .ofChars .error place [c]) rfl
      rw [he] at hnext
      cases hnext

theorem IsRecord.isBlank_eq_false {text : List Char} {fields : List Content}
    (h : IsRecord text fields) (hne : fields ≠ []) {l : Line} (hl : l.text = text) :
    l.isBlank = false := by
  rw [Bool.eq_false_iff]
  intro hblank
  rw [Line.isBlank, hl, List.all_eq_true] at hblank
  obtain ⟨r, hr, rfl⟩ := h
  obtain ⟨s, hs, hr⟩ := bind_eq_ok_iff.mp hr
  obtain rfl := eq_initial_of_isBlank hblank hs
  cases hr
  exact hne rfl

/-! ### Lines at other places -/

section

variable {schema : Schema} {l l' : Line} {use : Use}

theorem Record.Agrees.usedAs {r q : Record} (h : r.Agrees q) (hused : r.UsedAs schema use) :
    q.UsedAs schema use := by
  have helts := h "elts" (by decide)
  cases hused with
  | header hheader => exact .header (h.isHeader hheader)
  | leafPlaceholder htype => exact .leafPlaceholder (h.nodeType htype)
  | set hfield hcodes =>
    obtain ⟨g, hg, hcontent⟩ := h.required (by decide) hfield
    exact .set hg (Field.codes_of_content hcontent hcodes)
  | node hdescribed =>
    refine .node ?_
    cases hdescribed with
    | leaf htype hterminal => exact .leaf (h.nodeType htype) (h.terminal hterminal)
    | values htype ha hforks => exact .values (h.nodeType htype) (h.tested ha) (h.forks hforks)
    | threshold htype ha hforks =>
      exact .threshold (h.nodeType htype) (h.tested ha) (h.forks hforks)
    | inlineSets htype ha hforks hne hsets =>
      refine .inlineSets (h.nodeType htype) (h.tested ha) (h.forks hforks) ?_ (h.mapM_codes hsets)
      rintro hnone
      rw [hnone, List.map_nil, eq_comm, List.map_eq_nil_iff] at helts
      exact hne helts
    | followingSets htype ha hforks hnone =>
      refine .followingSets (h.nodeType htype) (h.tested ha) (h.forks hforks) ?_
      rw [hnone, List.map_nil, List.map_eq_nil_iff] at helts
      exact helts

/-- Further fields of names that are not read leave a line with its use. -/
theorem LineUsedAs.of_further (h : LineUsedAs schema l use) (huse : use.isBlank = false)
    {more : List Char} {further : List Content} (hmore : IsRecord more further)
    (hnames : ∀ f ∈ further, f.1 ∉ readNames) (hl' : l'.text = l.text ++ more) :
    LineUsedAs schema l' use := by
  obtain ⟨r, hl, hr, hused⟩ := h.exists_record huse
  have hrecord : IsRecord l.text (r.fields.map Field.content) :=
    (isRecord_iff l.offset).mpr ⟨r, hr, rfl⟩
  obtain ⟨q, hq, hfields⟩ := (isRecord_iff l'.offset).mp (hrecord.append hmore)
  rw [← hl'] at hq
  have hblank : l'.isBlank = false := by
    rw [Line.isBlank] at hl ⊢
    rw [hl', List.all_append, hl, Bool.false_and]
  exact .record hblank hq ((Record.agrees_of_further hfields hnames).usedAs hused)

/-- What a line may be used for is a matter of its text. -/
theorem LineUsedAs.of_text (h : LineUsedAs schema l use) (hl' : l'.text = l.text) :
    LineUsedAs schema l' use := by
  have hblank : l'.isBlank = l.isBlank := by rw [Line.isBlank, hl', Line.isBlank]
  cases h with
  | blank hl => exact .blank (hblank.trans hl)
  | blankPlaceholder hl => exact .blankPlaceholder (hblank.trans hl)
  | record hl hr hused =>
    have hkind : use.isBlank = false := by cases hused <;> rfl
    have hnothing : IsRecord [] [] := ⟨_, rfl, rfl⟩
    exact (LineUsedAs.record hl hr hused).of_further hkind hnothing (by simp) (by simpa using hl')

end

/-! ### Texts for a use -/

/-- The text may stand on the line of a placeholder. -/
def IsPlaceholder (text : List Char) : Prop :=
  text.all Text.isBlank = true ∨
    ∃ fields, IsRecord text fields ∧ fields.lookup "type" = some ["0"]

/-- The text is a line about the whole file. -/
def IsHeaderLine (text : List Char) : Prop := ∃ fields, IsRecord text fields ∧ AboutFile fields

/-- The line is used as a placeholder. -/
def Use.IsPlaceholder (use : Use) : Prop := use = .blankPlaceholder ∨ use = .leafPlaceholder

section

variable {schema : Schema} {l : Line}

theorem IsPlaceholder.exists_use (h : IsPlaceholder l.text) :
    ∃ use, use.IsPlaceholder ∧ LineUsedAs schema l use := by
  rcases h with hblank | ⟨fields, hrecord, htype⟩
  · exact ⟨_, .inl rfl, .blankPlaceholder hblank⟩
  · have hne : fields ≠ [] := by
      rintro rfl
      cases htype
    have hblank := hrecord.isBlank_eq_false hne (l := l) rfl
    obtain ⟨r, hr, hfields⟩ := (isRecord_iff l.offset).mp hrecord
    have hleaf := (Record.nodeType_eq_leaf_iff hfields).mpr htype
    exact ⟨_, .inr rfl, .record hblank hr (.leafPlaceholder hleaf)⟩

theorem IsHeaderLine.isBlank_eq_false (h : IsHeaderLine l.text) : l.isBlank = false := by
  obtain ⟨fields, hrecord, -, hnames⟩ := h
  refine hrecord.isBlank_eq_false ?_ rfl
  rintro rfl
  rcases hnames with hentries | ⟨-, hid⟩
  · cases hentries
  · cases hid

theorem IsHeaderLine.lineUsedAs (h : IsHeaderLine l.text) : LineUsedAs schema l .header := by
  have hblank := h.isBlank_eq_false
  obtain ⟨fields, hrecord, habout⟩ := h
  obtain ⟨r, hr, hfields⟩ := (isRecord_iff l.offset).mp hrecord
  exact .record hblank hr (.header ((Record.isHeader_eq_true_iff hfields).mpr habout))

/-- A line about the whole file is no record of a node. -/
theorem IsHeaderLine.not_node (h : IsHeaderLine l.text) (head : Head) :
    ¬ LineUsedAs schema l (.node head) := by
  intro hused
  obtain ⟨fields, hrecord, htype, -⟩ := h
  obtain ⟨r, -, hr, hnode⟩ := hused.exists_record rfl
  cases hnode with
  | node hdescribed =>
    obtain ⟨type, hnodeType⟩ := nodeType_of_says hdescribed
    obtain ⟨q, hq, hfields⟩ := (isRecord_iff l.offset).mp hrecord
    have hsame : q = r := Except.ok.inj (hq.symm.trans hr)
    have hnone := Record.lookup_eq hfields "type"
    rw [htype, hsame, eq_comm, Option.map_eq_none_iff] at hnone
    have hsome := isSome_type_of_nodeType hnodeType
    rw [hnone] at hsome
    cases hsome

end

end DecisionModel.TreeFile
