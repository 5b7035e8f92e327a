import Mathlib
import DecisionModel.Proofs.Names.Schema
import DecisionModel.Proofs.Text.Pieces
import DecisionModel.Proofs.Value.Line
import DecisionModel.Schema.Display

/-!
# What a listing tells

The listing of a schema has a line for each attribute.  Names that schema text can spell have
none of the characters that stand between the parts of a line, so the parts can be told apart,
and the listing of a schema that was read tells all of it.
-/

namespace DecisionModel

open Text TreeFile

/-! ### Characters of a line -/

theorem AttrId.isDigit_of_mem {id : AttrId} {c : Char} (h : c ∈ (toString id.index).toList) :
    c.isDigit = true := by
  rw [Nat.toString_eq_repr, Nat.toList_repr] at h
  exact Nat.isDigit_of_mem_toDigits (by decide) (by decide) h

theorem Names.IsName.notMem {name : String} (h : IsName name) {c : Char}
    (hc : isNameChar c = false) : c ∉ name.toList := by
  intro hmem
  rw [h.chars c hmem] at hc
  cases hc

namespace Attribute

/-! ### Values -/

/-- A value in a listing, with its code. -/
def entryText (entry : String × Int) : String := s!"{entry.1}={entry.2}"

theorem toList_entryText (entry : String × Int) :
    (entryText entry).toList = entry.1.toList ++ '=' :: (toString entry.2).toList := by
  show (entry.1 ++ "=" ++ toString entry.2).toList = _
  simp

/-- A value and its code are told apart at the last equals sign. -/
theorem entryText_injective : Function.Injective entryText := by
  rintro ⟨value, code⟩ ⟨value', code'⟩ h
  have hsign : ∀ code : Int, '=' ∉ (toString code).toList.reverse := by
    intro code hmem
    rcases isDigit_or_minus_of_mem (List.mem_reverse.mp hmem) with hdigit | hminus
    · exact absurd hdigit (by decide)
    · exact absurd hminus (by decide)
  have hlist := congrArg (List.reverse ∘ String.toList) h
  simp only [Function.comp_apply, toList_entryText, List.reverse_append, List.reverse_cons,
    List.append_assoc, List.singleton_append] at hlist
  obtain ⟨hcode, hvalue⟩ := (append_cons_inj (hsign code) (hsign code')).mp hlist
  rw [List.reverse_inj, String.toList_inj] at hcode hvalue
  rw [hvalue, Int.repr_inj.mp hcode]

theorem mem_entryText {entry : String × Int} {c : Char} (h : c ∈ (entryText entry).toList) :
    c ∈ entry.1.toList ∨ c = '=' ∨ c.isDigit = true ∨ c = '-' := by
  rw [toList_entryText, List.mem_append, List.mem_cons] at h
  rcases h with hvalue | hsign | hcode
  · exact .inl hvalue
  · exact .inr (.inl hsign)
  · exact .inr (.inr (isDigit_or_minus_of_mem hcode))

/-! ### Tags -/

theorem mem_slot_text {slot : Slot} (h : slot.isBound = true) {c : Char}
    (hc : c ∈ slot.text.toList) : c = '@' ∨ c.isDigit = true := by
  cases slot with
  | unbound => cases h
  | index n =>
    have hmem : c ∈ ("@" ++ n.repr).toList := hc
    rw [String.toList_append, Nat.toList_repr, List.mem_append] at hmem
    rcases hmem with hsign | hdigit
    · exact .inl (by simpa using hsign)
    · exact .inr (Nat.isDigit_of_mem_toDigits (by decide) (by decide) hdigit)

/-- Tags are words of letters, and slots. -/
theorem mem_tag {a : Attribute} {isDecision : Bool} {tag : String} (htag : tag ∈ a.tags isDecision)
    {c : Char} (hc : c ∈ tag.toList) : c.isAlphanum = true ∨ c = '@' := by
  have hkind : ∀ k : AttributeKind, (k.name.toList ++ k.valueType.name.toList).all
      Char.isAlphanum = true := by
    intro k
    cases k <;> decide
  have hword := List.all_eq_true.mp (hkind a.kind) c
  simp only [tags, List.mem_append, List.mem_cons, List.not_mem_nil, or_false] at htag
  rcases htag with (hdecision | rfl | rfl) | hslot
  · have hdecide : ("decision".toList).all Char.isAlphanum = true := by decide
    split at hdecision
    · rw [List.mem_singleton] at hdecision
      subst hdecision
      exact .inl (List.all_eq_true.mp hdecide c hc)
    · cases hdecision
  · exact .inl (hword (by simp [hc]))
  · exact .inl (hword (by simp [valueType] at hc; simp [hc]))
  · split at hslot
    · rename_i hbound
      rw [List.mem_singleton] at hslot
      subst hslot
      rcases mem_slot_text hbound hc with hsign | hdigit
      · exact .inr hsign
      · exact .inl (by simp [Char.isAlphanum, hdigit])
    · cases hslot

/-- The tags tell the kind, the slot and whether the attribute is the decision. -/
theorem eq_of_tags_eq {a b : Attribute} {d e : Bool} (h : a.tags d = b.tags e) :
    a.kind = b.kind ∧ a.slot = b.slot ∧ d = e := by
  have hnames : ∀ k : AttributeKind, k.name ≠ "decision" := by
    intro k
    cases k <;> decide
  have hde : d = e := by
    simp only [tags, List.append_assoc, List.cons_append, List.nil_append] at h
    cases d <;> cases e
    · rfl
    · exact absurd (List.cons.inj h).1 (hnames a.kind)
    · exact absurd (List.cons.inj h).1.symm (hnames b.kind)
    · rfl
  subst hde
  simp only [tags, List.append_assoc, List.append_cancel_left_eq, List.cons_append,
    List.nil_append, List.cons.injEq] at h
  obtain ⟨hkind, -, hslot⟩ := h
  refine ⟨?_, ?_, rfl⟩
  · cases hka : a.kind <;> cases hkb : b.kind <;> simp [hka, hkb, AttributeKind.name] at hkind ⊢
  · cases hsa : a.slot <;> cases hsb : b.slot <;> simp [hsa, hsb, Slot.isBound] at hslot ⊢
    simpa [Slot.text] using hslot

/-! ### Rows -/

/-- The line of the attribute, without the line feed that ends it. -/
def row (a : Attribute) (isDecision : Bool) : String :=
  a.id.text ++ " " ++ a.name ++ " (" ++ ", ".intercalate (a.tags isDecision) ++ ")" ++ a.valueList

theorem line_eq (a : Attribute) (isDecision : Bool) :
    a.line isDecision = a.row isDecision ++ "\n" := rfl

theorem toList_row (a : Attribute) (isDecision : Bool) :
    (a.row isDecision).toList = ('#' :: (toString a.id.index).toList) ++ ' ' ::
      (a.name.toList ++ ' ' :: '(' ::
        ((", ".intercalate (a.tags isDecision)).toList ++ ')' :: a.valueList.toList)) := by
  have hid : a.id.text = "#" ++ toString a.id.index := rfl
  simp [row, hid]

theorem valueList_eq (a : Attribute) : a.valueList =
    if a.sortedValues = [] then ""
    else ": " ++ ", ".intercalate (a.sortedValues.map entryText) := by
  unfold valueList
  split
  · rename_i hnone
    rw [if_pos hnone]
  · rename_i hsome
    rw [if_neg hsome]
    rfl

/-- The values of an attribute whose names have no comma are told by their list. -/
theorem sortedValues_eq_of_valueList {a b : Attribute}
    (ha : ∀ entry ∈ a.sortedValues, ',' ∉ entry.1.toList)
    (hb : ∀ entry ∈ b.sortedValues, ',' ∉ entry.1.toList) (h : a.valueList = b.valueList) :
    a.sortedValues = b.sortedValues := by
  have hcomma : ∀ entries : List (String × Int), (∀ entry ∈ entries, ',' ∉ entry.1.toList) →
      ∀ text ∈ entries.map entryText, ',' ∉ text.toList := by
    intro entries hentries text htext hmem
    obtain ⟨entry, hentry, rfl⟩ := List.mem_map.mp htext
    rcases mem_entryText hmem with hname | hsign | hdigit | hminus
    · exact hentries entry hentry hname
    all_goals simp_all
  rw [valueList_eq, valueList_eq] at h
  split at h <;> split at h
  · rename_i hnone hnone'
    rw [hnone, hnone']
  · simp [← String.toList_inj] at h
  · simp [← String.toList_inj] at h
  · rename_i hsome hsome'
    rw [String.append_right_inj] at h
    have hmap := eq_of_string_intercalate_eq rfl (hcomma _ ha) (hcomma _ hb) (by simpa using hsome)
      (by simpa using hsome') h
    exact List.map_injective_iff.mpr entryText_injective hmap

theorem AllNames.of_mem_sortedValues {p : String → Prop} {a : Attribute} (h : a.AllNames p) :
    ∀ entry ∈ a.sortedValues, p entry.1 := by
  intro entry hentry
  exact h.2 entry (by simpa [sortedValues] using hentry)

theorem space_notMem_id (id : AttrId) : ' ' ∉ '#' :: (toString id.index).toList := by
  intro hmem
  rcases List.mem_cons.mp hmem with hsign | hdigit
  · exact absurd hsign (by decide)
  · exact absurd (AttrId.isDigit_of_mem hdigit) (by decide)

theorem mem_tags_text {a : Attribute} {isDecision : Bool} {c : Char}
    (h : c ∈ (", ".intercalate (a.tags isDecision)).toList) :
    c = ',' ∨ c = ' ' ∨ c.isAlphanum = true ∨ c = '@' := by
  rw [String.toList_intercalate] at h
  rcases mem_of_mem_intercalate h with hsep | ⟨piece, hpiece, hmem⟩
  · have hsep : c = ',' ∨ c = ' ' := by simpa using hsep
    exact hsep.imp_right .inl
  · obtain ⟨tag, htag, rfl⟩ := List.mem_map.mp hpiece
    exact .inr (.inr (mem_tag htag hmem))

theorem paren_notMem_tags (a : Attribute) (isDecision : Bool) :
    ')' ∉ (", ".intercalate (a.tags isDecision)).toList := by
  intro hmem
  have hchar := mem_tags_text hmem
  revert hchar
  decide

theorem tags_eq_of_text {a b : Attribute} {d e : Bool}
    (h : ", ".intercalate (a.tags d) = ", ".intercalate (b.tags e)) : a.tags d = b.tags e := by
  have hcomma : ∀ (a : Attribute) (d : Bool), ∀ tag ∈ a.tags d, ',' ∉ tag.toList := by
    intro a d tag htag hmem
    have hchar := mem_tag htag hmem
    revert hchar
    decide
  have hne : ∀ (a : Attribute) (d : Bool), a.tags d ≠ [] := by simp [tags]
  exact eq_of_string_intercalate_eq rfl (hcomma a d) (hcomma b e) (hne a d) (hne b e) h

/-- **A row tells all about its attribute** if its names can be spelled in schema text. -/
theorem eq_of_row_eq {a b : Attribute} (ha : a.AllNames Names.IsName)
    (hb : b.AllNames Names.IsName) {d e : Bool} (h : a.row d = b.row e) :
    a.id = b.id ∧ a.name = b.name ∧ a.kind = b.kind ∧ a.slot = b.slot ∧
      a.sortedValues = b.sortedValues ∧ d = e := by
  have hspace : ∀ {name : String}, Names.IsName name → ' ' ∉ name.toList :=
    fun hname => hname.notMem rfl
  have hlist := congrArg String.toList h
  rw [toList_row, toList_row, append_cons_inj (space_notMem_id a.id) (space_notMem_id b.id),
    append_cons_inj (hspace ha.1) (hspace hb.1)] at hlist
  obtain ⟨hid, hname, hrest⟩ := hlist
  obtain ⟨htags, hvalues⟩ :=
    (append_cons_inj (paren_notMem_tags a d) (paren_notMem_tags b e)).mp (List.cons.inj hrest).2
  have hindex : a.id.index = b.id.index :=
    Nat.repr_inj.mp (String.toList_inj.mp (List.cons.inj hid).2)
  obtain ⟨hkind, hslot, hdecision⟩ := eq_of_tags_eq (tags_eq_of_text (String.toList_inj.mp htags))
  have hsorted := sortedValues_eq_of_valueList
    (fun entry hentry => (ha.of_mem_sortedValues entry hentry).notMem rfl)
    (fun entry hentry => (hb.of_mem_sortedValues entry hentry).notMem rfl)
    (String.toList_inj.mp hvalues)
  exact ⟨congrArg AttrId.mk hindex, String.toList_inj.mp hname, hkind, hslot, hsorted, hdecision⟩

/-! ### Line feeds -/

theorem onOneLine_valueList {a : Attribute} (ha : a.AllNames Names.IsName) :
    OnOneLine a.valueList := by
  rw [valueList_eq]
  split
  · decide
  · refine .append (by decide) (.intercalate (by decide) ?_)
    intro piece hpiece
    obtain ⟨entry, hentry, rfl⟩ := List.mem_map.mp hpiece
    have hvalue : OnOneLine entry.1 := (ha.of_mem_sortedValues entry hentry).no_lineFeed
    exact (hvalue.append (by decide)).append (onOneLine_toString entry.2)

theorem onOneLine_row {a : Attribute} (ha : a.AllNames Names.IsName) (isDecision : Bool) :
    OnOneLine (a.row isDecision) := by
  have hid : OnOneLine a.id.text :=
    .append (by decide) fun hmem => absurd (AttrId.isDigit_of_mem hmem) (by decide)
  have hname : OnOneLine a.name := ha.1.no_lineFeed
  have htags : OnOneLine (", ".intercalate (a.tags isDecision)) := by
    intro hmem
    have hchar := mem_tags_text hmem
    revert hchar
    decide
  exact (((((hid.append (by decide)).append hname).append (by decide)).append htags).append
    (by decide)).append (onOneLine_valueList ha)

end Attribute

/-! ### Schemas -/

namespace Schema

/-- The lines of a listing. -/
def rows (s : Schema) : List String :=
  s.attributes.map fun a => a.row (a.id == s.decisionAttribute.id)

theorem display_eq_join (s : Schema) : s.display = String.join (s.rows.map (· ++ "\n")) := by
  simp only [display, rows, List.map_map]
  rfl

/-- A listing has a line for each attribute. -/
theorem hasLines_display {s : Schema} (h : s.AllNames Names.IsName) :
    HasLines s.display s.rows := by
  rw [display_eq_join]
  refine hasLines_join ?_
  intro line hline
  obtain ⟨a, ha, rfl⟩ := List.mem_map.mp hline
  exact Attribute.onOneLine_row (h a ha) _

/-- Schemas with the same attributes and the same decision are the same. -/
theorem WellFormed.ext {s t : Schema} (hs : s.WellFormed) (ht : t.WellFormed)
    (hattributes : s.attributes = t.attributes) (hdecision : s.decision = t.decision) : s = t := by
  have hattribute : s.decisionAttribute = t.decisionAttribute := by
    simp only [decisionAttribute, List.get_eq_getElem, hattributes, hdecision]
  have hnames : s.decisionNames = t.decisionNames := by
    apply List.ext_getElem?
    intro i
    apply Option.ext
    intro value
    rw [← decisionName?_natCast, ← decisionName?_natCast, ← hs.decision_table, ← ht.decision_table,
      hattribute]
  cases s
  cases t
  simp_all

/-- What every schema satisfies that was read, and then bound in any way. -/
structure AsRead (s : Schema) : Prop where
  wellFormed : s.WellFormed
  dense : s.Dense
  names : s.AllNames Names.IsName

theorem asRead_of_parse {file : SourceFile} {s s' : Schema} (h : Names.parse file = .ok s)
    (bound : s.Rebound s') : s'.AsRead where
  wellFormed := bound.wellFormed (Names.built_of_parse h).wellFormed
  dense := bound.dense (Names.dense_of_parse h)
  names := bound.allNames (Names.allNames_of_parse h)

/-- Attributes with the same row are the same. -/
theorem AsRead.eq_of_row_eq {s t : Schema} (hs : s.AsRead) (ht : t.AsRead) {a b : Attribute}
    (ha : a ∈ s.attributes) (hb : b ∈ t.attributes) {d e : Bool} (h : a.row d = b.row e) :
    a = b ∧ d = e := by
  obtain ⟨hid, hname, hkind, hslot, hvalues, hdecision⟩ :=
    Attribute.eq_of_row_eq (hs.names a ha) (ht.names b hb) h
  rw [(hs.dense a ha).sortedValues_eq, (ht.dense b hb).sortedValues_eq] at hvalues
  cases a
  cases b
  simp_all

theorem WellFormed.id_decisionAttribute {s : Schema} (h : s.WellFormed) :
    s.decisionAttribute.id = s.decision := by
  have hat : s.attributes[s.decision.index]? = some s.decisionAttribute := by
    rw [decisionAttribute, List.get_eq_getElem, List.getElem?_eq_getElem]
  rw [h.attributes.id_eq _ _ hat]

/-- **A listing tells all about its schema.** -/
theorem AsRead.eq_of_display_eq {s t : Schema} (hs : s.AsRead) (ht : t.AsRead)
    (h : s.display = t.display) : s = t := by
  have hlines : HasLines s.display t.rows := h ▸ hasLines_display ht.names
  have hrows : s.rows = t.rows := (hasLines_display hs.names).unique hlines
  have hat : ∀ i : Nat, (s.attributes[i]?).map (fun a => a.row (a.id == s.decisionAttribute.id)) =
      (t.attributes[i]?).map fun a => a.row (a.id == t.decisionAttribute.id) := by
    intro i
    rw [← List.getElem?_map, ← List.getElem?_map]
    exact congrArg (·[i]?) hrows
  have hattributes : s.attributes = t.attributes := by
    apply List.ext_getElem?
    intro i
    have hrow := hat i
    rcases ha : s.attributes[i]? with _ | a <;> rcases hb : t.attributes[i]? with _ | b <;>
      rw [ha, hb] at hrow
    · cases hrow
    · cases hrow
    · rw [(hs.eq_of_row_eq ht (List.mem_of_getElem? ha) (List.mem_of_getElem? hb)
        (Option.some.inj hrow)).1]
  have hdecision : s.decision = t.decision := by
    -- the row of the decision says so
    have hmem := s.decisionAttribute_mem
    obtain ⟨i, hi⟩ := List.mem_iff_getElem?.mp hmem
    have hrow := hat i
    rw [← hattributes, hi, Option.map_some, Option.map_some, Option.some.injEq] at hrow
    have hflag := (hs.eq_of_row_eq ht hmem (hattributes ▸ hmem) hrow).2
    rw [BEq.rfl, eq_comm, beq_iff_eq] at hflag
    rw [← hs.wellFormed.id_decisionAttribute, hflag, ht.wellFormed.id_decisionAttribute]
  exact hs.wellFormed.ext ht.wellFormed hattributes hdecision

/-- **The listing of a schema loses nothing.**  Schemas that were read, and then bound in any way,
    are the same if their listings are, and each has a line for each of its attributes. -/
theorem listing_loses_nothing :
    (∀ (file file' : SourceFile) (origin origin' s t : Schema), Names.parse file = .ok origin →
      Names.parse file' = .ok origin' → origin.Rebound s → origin'.Rebound t →
      s.display = t.display → s = t) ∧
    ∀ (file : SourceFile) (origin s : Schema), Names.parse file = .ok origin → origin.Rebound s →
      HasLines s.display s.rows ∧ s.rows.length = s.size := by
  constructor
  · intro file file' origin origin' s t hread hread' hbound hbound' h
    exact (asRead_of_parse hread hbound).eq_of_display_eq (asRead_of_parse hread' hbound') h
  · intro file origin s hread hbound
    exact ⟨hasLines_display (asRead_of_parse hread hbound).names, by simp [rows, size]⟩

/-- Names with characters that a listing uses itself. -/
def signNames : SourceFile where
  name := "signs.names"
  content := "a=0.\na=0: #1=1, (x), @2.\n#1(: continuous.\n"

def signSchema : Schema where
  attributes :=
    [⟨"a=0", ⟨0⟩, .enumerated, .unbound, [("#1=1", 0), ("(x)", 1), ("@2", 2)]⟩,
      ⟨"#1(", ⟨1⟩, .continuous, .unbound, []⟩]
  decision := ⟨0⟩
  decisionNames := ["#1=1", "(x)", "@2"]
  decision_defined := by decide

theorem parse_signNames : Names.parse signNames = .ok signSchema := by cbv

theorem listing_of_signSchema :
    Names.parse signNames = .ok signSchema ∧ signSchema.Rebound signSchema.bindById ∧
      signSchema.Rebound ((signSchema.bindSlot "#1(" (.index 1)).bindSlot "a=0" (.index 0)) ∧
      signSchema.bindById = (signSchema.bindSlot "#1(" (.index 1)).bindSlot "a=0" (.index 0) ∧
      HasLines signSchema.bindById.display
        ["#0 a=0 (decision, enumerated, integer, @0): #1=1=0, (x)=1, @2=2",
          "#1 #1( (continuous, floating, @1)"] := by
  have hbyId : signSchema.Rebound signSchema.bindById := .bindById .refl
  have hbound : signSchema.Rebound
      ((signSchema.bindSlot "#1(" (.index 1)).bindSlot "a=0" (.index 0)) :=
    .bindSlot _ _ (.bindSlot _ _ .refl)
  obtain ⟨hsame, hlines⟩ := listing_loses_nothing
  refine ⟨parse_signNames, hbyId, hbound, ?_, ?_⟩
  · exact hsame _ _ _ _ _ _ parse_signNames parse_signNames hbyId hbound (by cbv)
  · have hrows : signSchema.bindById.rows =
        ["#0 a=0 (decision, enumerated, integer, @0): #1=1=0, (x)=1, @2=2",
          "#1 #1( (continuous, floating, @1)"] := by cbv
    rw [← hrows]
    exact (hlines _ _ _ parse_signNames hbyId).1

end Schema

end DecisionModel
