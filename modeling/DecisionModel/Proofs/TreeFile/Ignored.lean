import DecisionModel.Proofs.TreeFile.LineText
import DecisionModel.Proofs.TreeFile.PrefixFree
import Mathlib.Logic.Relation

/-!
# What tree text may say besides the tree

A tree text may have more in it than its tree: blank lines, lines about the whole file, whatever
stands on a placeholder, and fields of names that no record is read through.  None of it makes a
difference to the tree.

An edit of this kind is stated through the uses that the lines of the text have.  It leaves the
uses of all other lines as they are, and the uses of the edited text are those of the same tree.
-/

namespace DecisionModel.TreeFile

/-! ### Uses with a blank line more -/

/-- The uses do not end with the record of a test on values, whose placeholder comes next. -/
def AllowsBlank (before : List Use) : Prop := ∀ a forks, ¬ [.node (.values a forks)] <:+ before

section

variable {before after : List Use}

theorem AllowsBlank.of_append (h : AllowsBlank (before ++ after)) : AllowsBlank after :=
  fun a forks hsuffix => h a forks (hsuffix.trans (List.suffix_append before after))

theorem AllowsBlank.of_cons {use : Use} (h : AllowsBlank (use :: after)) : AllowsBlank after :=
  fun a forks hsuffix => h a forks (hsuffix.trans (List.suffix_cons use after))

theorem allowsBlank_nil : AllowsBlank [] := by
  simp [AllowsBlank]

theorem ListsSets.insert_blank {a : Attribute} {sets : List (List Int)}
    (h : ListsSets a (before ++ after) sets) : ListsSets a (before ++ .blank :: after) sets := by
  induction before generalizing sets with
  | nil => exact h.blank
  | cons use before ih =>
    cases h with
    | blank h => exact (ih h).blank
    | set codes h => exact (ih h).set codes

theorem Opens.insert_blank {head : Head} {branches : List (Branch Unit)}
    (h : Opens head (before ++ after) branches) (hafter : after ≠ [])
    (hblank : AllowsBlank (.node head :: before)) :
    Opens head (before ++ .blank :: after) branches := by
  generalize hopening : before ++ after = opening at h
  cases h with
  | @values a forks placeholder _ _ =>
    rcases List.append_eq_singleton_iff.mp hopening with ⟨rfl, -⟩ | ⟨-, hnone⟩
    · exact absurd (List.suffix_refl _) (hblank a forks)
    · exact absurd hnone hafter
  | threshold | inlineSets => exact absurd (List.append_eq_nil_iff.mp hopening).2 hafter
  | followingSets hsets =>
    subst hopening
    exact .followingSets hsets.insert_blank

theorem Lists.insert_blank {uses : List Use} {nodes : List Node} (h : Lists uses nodes) :
    ∀ {before after : List Use}, uses = before ++ after → AllowsBlank before →
      Lists (before ++ .blank :: after) nodes := by
  induction h with
  | nil =>
    intro before after huses _
    obtain ⟨rfl, rfl⟩ := List.append_eq_nil_iff.mp huses.symm
    exact Lists.nil.blank
  | blank h ih =>
    intro before after huses hblank
    rcases List.cons_eq_append_iff.mp huses with ⟨rfl, rfl⟩ | ⟨before, rfl, rfl⟩
    · exact h.blank.blank
    · exact (ih rfl hblank.of_cons).blank
  | leaf code h ih =>
    intro before after huses hblank
    rcases List.cons_eq_append_iff.mp huses with ⟨rfl, rfl⟩ | ⟨before, rfl, rfl⟩
    · exact (h.leaf code).blank
    · exact (ih rfl hblank.of_cons).leaf code
  | @test head opening uses branches kids nodes hopens hkids h ih =>
    intro before after huses hblank
    rcases List.cons_eq_append_iff.mp huses with ⟨rfl, rfl⟩ | ⟨before, rfl, hsplit⟩
    · exact (Lists.test hopens hkids h).blank
    rcases List.append_eq_append_iff.mp hsplit with ⟨behind, rfl, rfl⟩ | ⟨rest, rfl, rfl⟩
    · have hrest := ih rfl (hblank.of_cons.of_append)
      have htest := Lists.test hopens hkids hrest
      rwa [← List.append_assoc] at htest
    · rcases rest with _ | ⟨use, rest⟩
      · have hrest := ih rfl allowsBlank_nil
        have htest := Lists.test hopens hkids hrest
        simpa using htest
      · have htest := Lists.test (hopens.insert_blank (by simp) hblank) hkids h
        simpa using htest

end

/-! ### Uses with another placeholder -/

/-- The uses are the same, except that both may be placeholders. -/
inductive Use.Alike : Use → Use → Prop
  | refl (use : Use) : Alike use use
  | placeholder {use other : Use} : use.IsPlaceholder → other.IsPlaceholder → Alike use other

theorem Use.Alike.eq_of_not_placeholder {use other : Use} (h : use.Alike other)
    (huse : ¬ use.IsPlaceholder) : use = other := by
  cases h with
  | refl => rfl
  | placeholder hplaceholder => exact absurd hplaceholder huse

theorem eq_of_forall₂_alike {uses others : List Use} (h : List.Forall₂ Use.Alike uses others)
    (huses : ∀ use ∈ uses, ¬ use.IsPlaceholder) : uses = others := by
  induction h with
  | nil => rfl
  | cons hfirst _ ih =>
    obtain ⟨huse, hrest⟩ := List.forall_mem_cons.mp huses
    rw [hfirst.eq_of_not_placeholder huse, ih hrest]

theorem ListsSets.not_placeholder {a : Attribute} {uses : List Use} {sets : List (List Int)}
    (h : ListsSets a uses sets) : ∀ use ∈ uses, ¬ use.IsPlaceholder := by
  induction h with
  | nil => simp
  | blank _ ih | set codes _ ih => simpa [Use.IsPlaceholder] using ih

theorem IsHeading.not_placeholder {heading : List Use} (h : IsHeading heading) :
    ∀ use ∈ heading, ¬ use.IsPlaceholder := by
  intro use huse
  rcases h use huse with rfl | rfl <;> simp [Use.IsPlaceholder]

theorem Opens.of_alike {head : Head} {opening others : List Use} {branches : List (Branch Unit)}
    (h : Opens head opening branches) (hsame : List.Forall₂ Use.Alike opening others) :
    Opens head others branches := by
  cases h with
  | values hplaceholder hroom =>
    cases hsame with
    | @cons _ other _ _ hother hrest =>
      cases hrest
      have hkind : other.IsPlaceholder := by
        cases hother with
        | refl => exact hplaceholder
        | placeholder _ hkind => exact hkind
      exact .values hkind hroom
  | threshold a forks =>
    cases hsame
    exact .threshold a forks
  | inlineSets a sets =>
    cases hsame
    exact .inlineSets a sets
  | followingSets hsets =>
    obtain rfl := eq_of_forall₂_alike hsame hsets.not_placeholder
    exact .followingSets hsets

theorem Lists.of_alike {uses : List Use} {nodes : List Node} (h : Lists uses nodes) :
    ∀ {others : List Use}, List.Forall₂ Use.Alike uses others → Lists others nodes := by
  induction h with
  | nil =>
    intro others hsame
    cases hsame
    exact .nil
  | blank _ ih =>
    intro others hsame
    cases hsame with
    | cons hfirst hrest =>
      obtain rfl := hfirst.eq_of_not_placeholder (by simp [Use.IsPlaceholder])
      exact (ih hrest).blank
  | leaf code _ ih =>
    intro others hsame
    cases hsame with
    | cons hfirst hrest =>
      obtain rfl := hfirst.eq_of_not_placeholder (by simp [Use.IsPlaceholder])
      exact (ih hrest).leaf code
  | test hopens hkids _ ih =>
    intro others hsame
    cases hsame with
    | cons hfirst hrest =>
      obtain rfl := hfirst.eq_of_not_placeholder (by simp [Use.IsPlaceholder])
      obtain ⟨opening, uses, rfl, hopening, huses⟩ := exists_of_forall₂_append hrest.flip
      exact .test (hopens.of_alike hopening.flip) hkids (ih huses.flip)

/-! ### Uses of whole texts -/

namespace ListsTree

variable {before after uses others : List Use} {top : Node}

theorem insert_blank (h : ListsTree (before ++ after) top) (hblank : AllowsBlank before) :
    ListsTree (before ++ .blank :: after) top := by
  obtain ⟨heading, body, huses, hheading, hlists⟩ := h
  rcases List.append_eq_append_iff.mp huses with ⟨rest, rfl, rfl⟩ | ⟨front, rfl, rfl⟩
  · refine ⟨before ++ .blank :: rest, body, by simp, ?_, hlists⟩
    intro use huse
    rcases List.mem_append.mp huse with hbefore | hrest
    · exact hheading use (List.mem_append_left _ hbefore)
    · rcases List.mem_cons.mp hrest with rfl | hrest
      · exact .inl rfl
      · exact hheading use (List.mem_append_right _ hrest)
  · exact ⟨heading, front ++ .blank :: after, by simp, hheading,
      hlists.insert_blank rfl hblank.of_append⟩

theorem of_alike (h : ListsTree uses top) (hsame : List.Forall₂ Use.Alike uses others) :
    ListsTree others top := by
  obtain ⟨heading, body, rfl, hheading, hlists⟩ := h
  obtain ⟨front, back, rfl, hfront, hback⟩ := exists_of_forall₂_append hsame.flip
  obtain rfl := eq_of_forall₂_alike hfront.flip hheading.not_placeholder
  exact ⟨heading, back, rfl, hheading, hlists.of_alike hback.flip⟩

/-- What the file says of itself in front makes no difference to the tree. -/
theorem heading_append_iff (hbefore : IsHeading before) :
    ListsTree (before ++ after) top ↔ ListsTree after top := by
  constructor
  · rintro ⟨heading, body, huses, hheading, hlists⟩
    rcases List.append_eq_append_iff.mp huses with ⟨rest, rfl, rfl⟩ | ⟨front, rfl, rfl⟩
    · exact ⟨rest, body, rfl, fun use huse => hheading use (List.mem_append_right _ huse), hlists⟩
    · have hfront : IsHeading front := fun use huse => hbefore use (List.mem_append_right _ huse)
      refine ⟨[], after, rfl, nofun, ?_⟩
      clear huses hbefore
      induction front with
      | nil => exact hlists
      | cons use front ih =>
        obtain ⟨hfirst, hrest⟩ := List.forall_mem_cons.mp hfront
        rcases hfirst with rfl | rfl
        · cases hlists with
          | blank hlists => exact ih hlists hrest
        · cases hlists
  · rintro ⟨heading, body, rfl, hheading, hlists⟩
    refine ⟨before ++ heading, body, by simp, ?_, hlists⟩
    intro use huse
    rcases List.mem_append.mp huse with huse | huse
    · exact hbefore use huse
    · exact hheading use huse

/-- A heading may have one more line about the file. -/
theorem header_iff (hbefore : IsHeading before) :
    ListsTree (before ++ .header :: after) top ↔ ListsTree (before ++ after) top := by
  have hmore : IsHeading (before ++ [.header]) := by
    simpa [IsHeading, or_imp, forall_and] using hbefore
  rw [List.append_cons, heading_append_iff hmore, heading_append_iff hbefore]

/-- A tree starts with a record, behind lines that are blank or about the file. -/
theorem first_use {use : Use} (h : ListsTree (use :: after) top) :
    use = .blank ∨ use = .header ∨ ∃ head, use = .node head := by
  obtain ⟨heading, body, huses, hheading, hlists⟩ := h
  cases heading with
  | nil =>
    rw [List.nil_append] at huses
    subst huses
    cases hlists with
    | blank => exact .inl rfl
    | leaf | test => exact .inr (.inr ⟨_, rfl⟩)
  | cons first heading =>
    obtain ⟨rfl, -⟩ := List.cons_eq_cons.mp huses
    rcases hheading use (by simp) with hblank | hheader
    · exact .inl hblank
    · exact .inr (.inl hheader)

end ListsTree

/-- In front of a tree, a line about the file is used as that. -/
theorem IsHeaderLine.use_eq_header {schema : Schema} {text : List Char} (h : IsHeaderLine text)
    {use : Use} (hused : LineUsedAs schema ⟨text, 0⟩ use) {after : List Use} {top : Node}
    (hlists : ListsTree (use :: after) top) : use = .header := by
  rcases hlists.first_use with rfl | rfl | ⟨head, rfl⟩
  · have hblank : Line.isBlank ⟨text, 0⟩ = false := h.isBlank_eq_false
    rw [hused.isBlank_eq] at hblank
    cases hblank
  · rfl
  · exact absurd hused (h.not_node head)

/-! ### Edits -/

/-- The text of a line, with what the line is for. -/
abbrev UsedText := List Char × Use

/-- The texts of lines that are read as the node, each with its use. -/
structure Annotates (schema : Schema) (texts : List (List Char)) (used : List UsedText)
    (top : Node) : Prop where
  texts_eq : used.map Prod.fst = texts
  used_as : ∀ p ∈ used, LineUsedAs schema ⟨p.1, 0⟩ p.2
  lists : ListsTree (used.map Prod.snd) top

/-- A change to lines that should make no difference to their tree. -/
inductive Edit : List UsedText → List (List Char) → Prop
  /-- One more blank line, anywhere but between a test on values and its placeholder. -/
  | insertBlank {before after : List UsedText} {text : List Char} :
      AllowsBlank (before.map Prod.snd) → text.all Text.isBlank = true →
      Edit (before ++ after) (before.map Prod.fst ++ text :: after.map Prod.fst)
  /-- Another text for a placeholder: blank, or the record of a terminal, whatever its class. -/
  | replacePlaceholder {before after : List UsedText} {old text : List Char} {use : Use} :
      use.IsPlaceholder → IsPlaceholder text →
      Edit (before ++ (old, use) :: after) (before.map Prod.fst ++ text :: after.map Prod.fst)
  /-- One more field at the end of a record, of a name that is not read. -/
  | appendField {before after : List UsedText} {text more : List Char} {use : Use} {name : String}
      {values : List String} :
      use.isBlank = false → IsRecord more [(name, values)] → name ∉ readNames →
      Edit (before ++ (text, use) :: after)
        (before.map Prod.fst ++ (text ++ more) :: after.map Prod.fst)
  /-- One more line about the whole file, in front of the first node. -/
  | insertHeader {before after : List UsedText} {text : List Char} :
      IsHeading (before.map Prod.snd) → IsHeaderLine text →
      Edit (before ++ after) (before.map Prod.fst ++ text :: after.map Prod.fst)
  /-- One line less about the whole file, in front of the first node. -/
  | eraseHeader {before after : List UsedText} {text : List Char} {use : Use} :
      IsHeading (before.map Prod.snd) → IsHeaderLine text →
      Edit (before ++ (text, use) :: after) (before.map Prod.fst ++ after.map Prod.fst)

section

variable {schema : Schema} {texts texts' : List (List Char)} {used : List UsedText} {top : Node}

/-- The text of one line is replaced by one for the same use, or another placeholder. -/
theorem Annotates.replace {before after : List UsedText} {old text : List Char} {use other : Use}
    (h : Annotates schema texts (before ++ (old, use) :: after) top)
    (hused : LineUsedAs schema ⟨text, 0⟩ other) (hsame : use.Alike other) :
    Annotates schema (before.map Prod.fst ++ text :: after.map Prod.fst)
      (before ++ (text, other) :: after) top where
  texts_eq := by simp
  used_as := by
    obtain ⟨hbefore, -, hafter⟩ := by simpa [or_imp, forall_and] using h.used_as
    simpa [or_imp, forall_and] using ⟨hbefore, hused, hafter⟩
  lists := by
    refine h.lists.of_alike ?_
    have hrefl : ∀ uses : List Use, List.Forall₂ Use.Alike uses uses :=
      fun uses => List.forall₂_same.mpr fun use _ => .refl use
    rw [List.map_append, List.map_cons, List.map_append, List.map_cons]
    exact List.rel_append (hrefl _) (.cons hsame (hrefl _))

/-- The text of a line more takes its place among the others. -/
theorem Annotates.insert {before after : List UsedText} {text : List Char} {use : Use}
    (h : Annotates schema texts (before ++ after) top)
    (hused : LineUsedAs schema ⟨text, 0⟩ use)
    (hlists : ListsTree (before.map Prod.snd ++ use :: after.map Prod.snd) top) :
    Annotates schema (before.map Prod.fst ++ text :: after.map Prod.fst)
      (before ++ (text, use) :: after) top where
  texts_eq := by simp
  used_as := by
    obtain ⟨hbefore, hafter⟩ := by simpa [or_imp, forall_and] using h.used_as
    simpa [or_imp, forall_and] using ⟨hbefore, hused, hafter⟩
  lists := by simpa using hlists

/-- An edit leaves lines that are read as the same node. -/
theorem Annotates.edit (h : Annotates schema texts used top) (hedit : Edit used texts') :
    ∃ used', Annotates schema texts' used' top := by
  cases hedit with
  | insertBlank hallows hblank =>
    have hlists := h.lists
    rw [List.map_append] at hlists
    exact ⟨_, h.insert (.blank hblank) (hlists.insert_blank hallows)⟩
  | @replacePlaceholder before after old text use huse hplaceholder =>
    obtain ⟨other, hother, hused⟩ := IsPlaceholder.exists_use (l := ⟨text, 0⟩) hplaceholder
    exact ⟨_, h.replace hused (.placeholder huse hother)⟩
  | @appendField before after text more use name values huse hmore hname =>
    have hline : LineUsedAs schema ⟨text, 0⟩ use := h.used_as (text, use) (by simp)
    have hused : LineUsedAs schema ⟨text ++ more, 0⟩ use :=
      hline.of_further huse hmore (by simpa using hname) rfl
    exact ⟨_, h.replace hused (.refl use)⟩
  | @insertHeader before after text hheading hheader =>
    have hlists := h.lists
    rw [List.map_append, ← ListsTree.header_iff hheading] at hlists
    exact ⟨_, h.insert (IsHeaderLine.lineUsedAs hheader) hlists⟩
  | @eraseHeader before after text use hheading hheader =>
    have hlists := h.lists
    rw [List.map_append, List.map_cons] at hlists
    have hline : LineUsedAs schema ⟨text, 0⟩ use := h.used_as (text, use) (by simp)
    obtain rfl : use = .header :=
      hheader.use_eq_header hline ((ListsTree.heading_append_iff hheading).mp hlists)
    refine ⟨before ++ after, by simp, ?_, ?_⟩
    · obtain ⟨hbefore, -, hafter⟩ := by simpa [or_imp, forall_and] using h.used_as
      simpa [or_imp, forall_and] using ⟨hbefore, hafter⟩
    · rw [List.map_append]
      exact (ListsTree.header_iff hheading).mp hlists

end

/-! ### Edited files -/

/-- The texts of the lines of a file. -/
def lineTexts (file : SourceFile) : List (List Char) :=
  (Line.ofText file.content.toList).map Line.text

section

variable {schema : Schema} {file : SourceFile} {tree : DecisionTree}

/-- Lines have uses exactly if their texts do. -/
theorem exists_used_iff {lines : List Line} {uses : List Use} :
    List.Forall₂ (LineUsedAs schema) lines uses ↔ ∃ used : List UsedText,
      used.map Prod.fst = lines.map Line.text ∧ used.map Prod.snd = uses ∧
      ∀ p ∈ used, LineUsedAs schema ⟨p.1, 0⟩ p.2 := by
  constructor
  · intro h
    induction h with
    | nil => exact ⟨[], rfl, rfl, nofun⟩
    | @cons l use lines uses hl _ ih =>
      obtain ⟨used, htexts, rfl, hused⟩ := ih
      refine ⟨(l.text, use) :: used, by simp [htexts], rfl, ?_⟩
      exact List.forall_mem_cons.mpr ⟨hl.of_text rfl, hused⟩
  · rintro ⟨used, htexts, rfl, hused⟩
    induction used generalizing lines with
    | nil =>
      rw [List.map_nil, eq_comm, List.map_eq_nil_iff] at htexts
      subst htexts
      exact .nil
    | cons p used ih =>
      obtain ⟨l, lines, rfl, htext, hrest⟩ := List.map_eq_cons_iff.mp htexts.symm
      obtain ⟨hfirst, hothers⟩ := List.forall_mem_cons.mp hused
      exact .cons (hfirst.of_text htext) (ih hrest.symm hothers)

theorem parse_eq_ok_iff_annotates :
    parse schema file = .ok tree ↔
      ∃ top used, tree = .withTop schema top ∧ Annotates schema (lineTexts file) used top := by
  rw [parse_eq_ok_iff]
  constructor
  · rintro ⟨top, uses, rfl, hlists, hlines⟩
    obtain ⟨used, htexts, rfl, hused⟩ := exists_used_iff.mp hlines
    exact ⟨top, used, rfl, htexts, hused, hlists⟩
  · rintro ⟨top, used, rfl, h⟩
    exact ⟨top, _, rfl, h.lists, exists_used_iff.mpr ⟨used, h.texts_eq, rfl, h.used_as⟩⟩

variable (schema) in
/-- One file is another after an edit of its lines. -/
def Edited (file file' : SourceFile) : Prop :=
  ∃ used top, Annotates schema (lineTexts file) used top ∧ Edit used (lineTexts file')

theorem parse_of_edited {file' : SourceFile} (h : parse schema file = .ok tree)
    (hedited : Edited schema file file') : parse schema file' = .ok tree := by
  obtain ⟨used, top, hused, hedit⟩ := hedited
  obtain ⟨used', hused'⟩ := hused.edit hedit
  have hfile := parse_eq_ok_iff_annotates.mpr ⟨top, used, rfl, hused⟩
  obtain rfl : .withTop schema top = tree := Except.ok.inj (hfile.symm.trans h)
  exact parse_eq_ok_iff_annotates.mpr ⟨top, used', rfl, hused'⟩

/-- **What a tree text may say besides its tree is ignored.**  In a text that is read as a tree
    every line has a use, and any number of edits that keep to these uses lead to texts that are
    read as the same tree: blank lines, placeholders, fields of other names and lines about the
    whole file make no difference. -/
theorem parse_ignores_edits (h : parse schema file = .ok tree) :
    (∃ top used, tree = .withTop schema top ∧ Annotates schema (lineTexts file) used top) ∧
    ∀ file', Relation.ReflTransGen (Edited schema) file file' → parse schema file' = .ok tree := by
  refine ⟨parse_eq_ok_iff_annotates.mp h, ?_⟩
  intro file' hedits
  induction hedits with
  | refl => exact h
  | tail _ hedit ih => exact parse_of_edited ih hedit

end

/-! ### An edited tree -/

/-- The short tree with a placeholder for a class that is none. -/
def filledTree : SourceFile where
  name := "filled.tree"
  content := "type=\"1\" att=\"count\" forks=\"2\"
type=\"0\" class=\"none\"
type=\"0\" class=\"play\"
"

/-- The same with an id in front. -/
def namedTree : SourceFile where
  name := "named.tree"
  content := "id=\"short\"
type=\"1\" att=\"count\" forks=\"2\"
type=\"0\" class=\"none\"
type=\"0\" class=\"play\"
"

/-- The attribute that the short tree tests. -/
def countAttribute : Attribute :=
  ⟨"count", ⟨2⟩, .enumerated, .unbound, [("low", 0), ("mid", 1), ("high", 2)]⟩

/-- The lines of the short tree, with what they are for. -/
def shortUses : List UsedText :=
  [("type=\"1\" att=\"count\" forks=\"2\"".toList, .node (.values countAttribute 2)),
    ([], .blankPlaceholder), ("type=\"0\" class=\"play\"".toList, .node (.leaf 2))]

theorem annotates_shortTree :
    ∃ top, Annotates policySchema (lineTexts shortTree) shortUses top := by
  have htest : LineUsedAs policySchema ⟨"type=\"1\" att=\"count\" forks=\"2\"".toList, 0⟩
      (.node (.values countAttribute 2)) :=
    .record (by cbv) (by cbv) (.node (.values (by cbv) (by cbv) (by cbv)))
  have hleaf : LineUsedAs policySchema ⟨"type=\"0\" class=\"play\"".toList, 0⟩ (.node (.leaf 2)) :=
    .record (by cbv) (by cbv) (.node (.leaf (by cbv) (by cbv)))
  have htree : Lists [.node (.values countAttribute 2), .blankPlaceholder, .node (.leaf 2)]
      [.test (List.zipWith withChild (valueBranches countAttribute 1)
        [.terminal (.integer 2)])] :=
    .test (.values (.inl rfl) (by decide)) (by cbv) (.leaf 2 .nil)
  refine ⟨_, by cbv, ?_, [], _, rfl, List.forall_mem_nil _, htree⟩
  simpa [shortUses] using ⟨htest, .blankPlaceholder rfl, hleaf⟩

theorem edited_filledTree : Edited policySchema shortTree filledTree := by
  obtain ⟨top, hused⟩ := annotates_shortTree
  have htexts : lineTexts filledTree = (shortUses.take 1).map Prod.fst ++
      "type=\"0\" class=\"none\"".toList :: (shortUses.drop 2).map Prod.fst := by cbv
  have hrecord : IsRecord "type=\"0\" class=\"none\"".toList
      [("type", ["0"]), ("class", ["none"])] := ⟨_, by cbv, by cbv⟩
  refine ⟨shortUses, top, hused, ?_⟩
  rw [htexts]
  exact @Edit.replacePlaceholder (shortUses.take 1) (shortUses.drop 2) [] _ .blankPlaceholder
    (.inl rfl) (.inr ⟨_, hrecord, rfl⟩)

theorem edited_namedTree : Edited policySchema filledTree namedTree := by
  have hparse : parse policySchema filledTree = .ok ⟨"state", .integer, some <| .test
      [⟨⟨2⟩, .unbound, some ⟨.eq, .integer 0⟩, .terminal (.integer 2)⟩]⟩ := by cbv
  obtain ⟨top, used, -, hused⟩ := parse_eq_ok_iff_annotates.mp hparse
  refine ⟨used, top, hused, ?_⟩
  have htexts : lineTexts namedTree = "id=\"short\"".toList :: used.map Prod.fst := by
    rw [hused.texts_eq]
    cbv
  have hrecord : IsRecord "id=\"short\"".toList [("id", ["short"])] := ⟨_, by cbv, by cbv⟩
  rw [htexts]
  exact @Edit.insertHeader [] used _ (List.forall_mem_nil _)
    ⟨_, hrecord, by decide, .inr (by decide)⟩

/-- The short tree is that of `namedTree`. -/
theorem shortTree_ignores_edits :
    parse policySchema namedTree = parse policySchema shortTree ∧
      Relation.ReflTransGen (Edited policySchema) shortTree namedTree := by
  have hparse : parse policySchema shortTree = .ok ⟨"state", .integer, some <| .test
      [⟨⟨2⟩, .unbound, some ⟨.eq, .integer 0⟩, .terminal (.integer 2)⟩]⟩ := by cbv
  have hedits : Relation.ReflTransGen (Edited policySchema) shortTree namedTree :=
    .tail (.single edited_filledTree) edited_namedTree
  obtain ⟨-, hsame⟩ := parse_ignores_edits hparse
  exact ⟨(hsame _ hedits).trans hparse.symm, hedits⟩

end DecisionModel.TreeFile
