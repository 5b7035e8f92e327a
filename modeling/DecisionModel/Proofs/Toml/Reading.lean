import DecisionModel.Toml.Parser
import DecisionModel.Proofs.Toml.Keys

/-!
# Keys of documents

The values that are read from a document have distinct keys in all of their tables, since inline
tables are made like those of the document.
-/

namespace DecisionModel.Toml

open Reader

/-! ### What readers give -/

/-- Whatever the reader gives has the property. -/
def Gives {α : Type} (P : α → Prop) (r : Reader α) : Prop :=
  ∀ cs a rest, r.run cs = some (a, rest) → P a

section

variable {α β : Type} {P : α → Prop} {Q : β → Prop} {a : α} {r : Reader α}

namespace Gives

theorem pure (h : P a) : Gives P (Pure.pure a : Reader α) := by
  intro cs b rest hrun
  cases hrun
  exact h

theorem failure : Gives P (Alternative.failure : Reader α) := by
  intro cs b rest hrun
  cases hrun

theorem bind {f : α → Reader β} (hr : Gives P r) (hf : ∀ a, P a → Gives Q (f a)) :
    Gives Q (r >>= f) := by
  intro cs b rest hrun
  rw [StateT.run_bind] at hrun
  obtain ⟨⟨a, behind⟩, hfirst, hrun⟩ := Option.bind_eq_some_iff.mp hrun
  exact hf a (hr cs a behind hfirst) behind b rest hrun

/-- What is read first may be anything. -/
theorem behind {f : α → Reader β} (hf : ∀ a, Gives Q (f a)) : Gives Q (r >>= f) :=
  bind (P := fun _ => True) (fun _ _ _ _ => trivial) fun a _ => hf a

theorem orElse {r' : Reader α} (hr : Gives P r) (hr' : Gives P r') : Gives P (r <|> r') := by
  intro cs b rest hrun
  rcases hfirst : r.run cs with _ | first
  · refine hr' cs b rest ?_
    rw [← hrun]
    show _ = (r.run cs <|> r'.run cs)
    rw [hfirst]
    rfl
  · refine hr cs b rest ?_
    rw [← hrun]
    show _ = (r.run cs <|> r'.run cs)
    rw [hfirst]
    rfl

theorem ite {c : Prop} [Decidable c] {r' : Reader α} (hr : Gives P r) (hr' : Gives P r') :
    Gives P (if c then r else r') := by
  split
  · exact hr
  · exact hr'

end Gives

end

/-! ### Values -/

theorem gives_basedInteger (mark : String) (base : Nat) (isDigit : Char → Bool) :
    Gives Value.Distinct (basedInteger mark base isDigit) := by
  exact .behind fun _ => .behind fun ds => .ite (.pure (.integer _)) .failure

theorem gives_integer : Gives Value.Distinct integer := by
  refine .orElse (gives_basedInteger _ _ _) (.orElse (gives_basedInteger _ _ _)
    (.orElse (gives_basedInteger _ _ _) ?_))
  exact .behind fun negative => .behind fun ds => .ite (.pure (.integer _)) .failure

theorem gives_float : Gives Value.Distinct float := by
  refine .orElse ?_ ?_
  · refine .behind fun negative => .behind fun whole => .behind fun part => .behind fun power => ?_
    exact .ite .failure (.ite .failure (.pure (.float _)))
  · refine .behind fun negative => .behind fun infinite => ?_
    cases infinite with
    | true => exact .pure (.float _)
    | false => exact .behind fun _ => .pure (.float _)

section

variable {item : Reader Value} (h : Gives Value.Distinct item)

include h

theorem gives_arrayItems (fuel : Nat) :
    Gives (fun items => ∀ v ∈ items, Value.Distinct v) (arrayItems item fuel) := by
  induction fuel with
  | zero => exact .failure
  | succ fuel ih =>
    refine .behind fun _ => .behind fun closed => ?_
    cases closed with
    | true => exact .pure nofun
    | false =>
      refine h.bind fun v hv => .behind fun _ => .behind fun more => ?_
      cases more with
      | true => exact ih.bind fun items hitems => .pure (List.forall_mem_cons.mpr ⟨hv, hitems⟩)
      | false => exact .behind fun _ => .pure (by simpa using hv)

theorem gives_inlineEntries (fuel : Nat) : ∀ {items : Items}, items.Distinct →
    Gives Items.Distinct (inlineEntries item items fuel) := by
  induction fuel with
  | zero => exact fun _ => .failure
  | succ fuel ih =>
    intro items hitems
    refine .behind fun ⟨path, name⟩ => .behind fun _ => .behind fun _ => h.bind fun v hv =>
      .behind fun _ => ?_
    rcases hadd : items.addEntry path name (.value v) with _ | items'
    · exact .failure
    · have hitems' := hitems.addEntry (.value hv) hadd
      refine .behind fun more => ?_
      cases more with
      | true => exact ih hitems'
      | false => exact .behind fun _ => .pure hitems'

theorem gives_inlineTable : Gives Value.Distinct (inlineTable item) := by
  refine .behind fun _ => .behind fun closed => ?_
  cases closed with
  | true => exact .pure (.table List.nodup_nil nofun)
  | false =>
    refine .behind fun cs => ?_
    exact (gives_inlineEntries h cs.length .nil).bind fun items hitems => .pure hitems.toTable

end

theorem gives_valueOver {item : Option (Reader Value)}
    (h : ∀ r, item = some r → Gives Value.Distinct r) : Gives Value.Distinct (valueOver item) := by
  refine .behind fun first => ?_
  split
  · exact .behind fun s => .pure (.text s)
  · exact .behind fun s => .pure (.text s)
  · rename_i item
    have hitem := h item rfl
    exact .behind fun _ => .behind fun cs =>
      (gives_arrayItems hitem cs.length).bind fun items hitems => .pure (.array hitems)
  · rename_i item
    exact .behind fun _ => gives_inlineTable (h item rfl)
  · exact .behind fun _ => .pure (.boolean true)
  · exact .behind fun _ => .pure (.boolean false)
  · refine .orElse ?_ (.orElse gives_float gives_integer)
    exact .behind fun d => .pure (.datetime d)

theorem gives_valueWithin (depth : Nat) : Gives Value.Distinct (valueWithin depth) := by
  induction depth with
  | zero => exact gives_valueOver nofun
  | succ depth ih =>
    refine gives_valueOver ?_
    rintro r ⟨⟩
    exact ih

/-! ### Documents -/

open Layout

theorem gives_statement : Gives StatementDistinct statement := by
  refine .behind fun cs => .ite ?_ (.behind fun first => .ite ?_ ?_)
  · exact .behind fun ⟨path, name⟩ => .pure trivial
  · exact .behind fun ⟨path, name⟩ => .pure trivial
  · exact .behind fun ⟨path, name⟩ => .behind fun _ => .behind fun _ =>
      (gives_valueWithin _).bind fun v hv => .behind fun _ => .pure hv

theorem gives_statementsWithin (fuel : Nat) :
    Gives (fun statements => ∀ s ∈ statements, StatementDistinct s) (statementsWithin fuel) := by
  induction fuel with
  | zero => exact .behind fun cs => .ite (.pure nofun) .failure
  | succ fuel ih =>
    refine .behind fun _ => .behind fun cs => .ite (.pure nofun) (.ite ?_ ?_)
    · exact .behind fun _ => .behind fun _ => ih
    · exact gives_statement.bind fun s hs => ih.bind fun rest hrest =>
        .pure (List.forall_mem_cons.mpr ⟨hs, hrest⟩)

/-! ### Dates in place of tables -/

theorem forall₂_of_readItemDates {items items' : List Value}
    (h : readItemDates items = some items') : List.Forall₂ (fun v v' => v.readDates = some v') items items' := by
  induction items generalizing items' with
  | nil =>
    cases h
    exact .nil
  | cons v rest ih =>
    obtain ⟨v', hv, h⟩ := Option.bind_eq_some_iff.mp h
    obtain ⟨rest', hrest, h⟩ := Option.bind_eq_some_iff.mp h
    cases h
    exact .cons hv (ih hrest)

theorem forall₂_of_readEntryDates {entries entries' : Table}
    (h : readEntryDates entries = some entries') :
    List.Forall₂ (fun e e' => e'.1 = e.1 ∧ e.2.readDates = some e'.2) entries entries' := by
  induction entries generalizing entries' with
  | nil =>
    cases h
    exact .nil
  | cons e rest ih =>
    obtain ⟨key, v⟩ := e
    obtain ⟨v', hv, h⟩ := Option.bind_eq_some_iff.mp h
    obtain ⟨rest', hrest, h⟩ := Option.bind_eq_some_iff.mp h
    cases h
    exact .cons ⟨rfl, hv⟩ (ih hrest)

/-- Tables keep their keys, whatever is read in their entries. -/
theorem distinct_of_readEntryDates {entries entries' : Table}
    (hkeys : (entries.map Prod.fst).Nodup)
    (heach : ∀ e ∈ entries, ∀ v', e.2.readDates = some v' → v'.Distinct)
    (h : readEntryDates entries = some entries') : (Value.table entries').Distinct := by
  have hsame := forall₂_of_readEntryDates h
  have hfst : entries'.map Prod.fst = entries.map Prod.fst := by
    clear hkeys heach h
    induction hsame with
    | nil => rfl
    | cons hfirst _ ih => rw [List.map_cons, List.map_cons, hfirst.1, ih]
  refine .table (hfst ▸ hkeys) ?_
  clear hkeys hfst h
  induction hsame with
  | nil => exact nofun
  | cons hfirst _ ih =>
    obtain ⟨hhead, htail⟩ := List.forall_mem_cons.mp heach
    exact List.forall_mem_cons.mpr ⟨hhead _ hfirst.2, ih htail⟩

theorem Value.Distinct.readDates {v : Value} (h : v.Distinct) :
    ∀ {v' : Value}, v.readDates = some v' → v'.Distinct := by
  induction h with
  | text s | integer n | float x | boolean b | datetime d =>
    intro v' hread
    cases hread
    constructor
  | array heach ih =>
    intro v' hread
    obtain ⟨items', hitems, rfl⟩ := Option.map_eq_some_iff.mp hread
    refine .array ?_
    have hsame := forall₂_of_readItemDates hitems
    clear heach hread hitems
    induction hsame with
    | nil => exact nofun
    | cons hfirst _ ihrest =>
      obtain ⟨hhead, htail⟩ := List.forall_mem_cons.mp ih
      exact List.forall_mem_cons.mpr ⟨hhead hfirst, ihrest htail⟩
  | table hkeys _ ih =>
    intro v' hread
    unfold Value.readDates at hread
    split at hread
    · obtain ⟨d, -, rfl⟩ := Option.map_eq_some_iff.mp hread
      exact .datetime d
    · obtain ⟨entries', hentries, rfl⟩ := Option.map_eq_some_iff.mp hread
      exact distinct_of_readEntryDates hkeys (fun e he v' => ih e he) hentries

/-- **No table of a document has two entries of one key.** -/
theorem distinct_of_parse {document : String} {table : Table} (h : parse document = some table) :
    (Value.table table).Distinct := by
  obtain ⟨⟨statements, rest⟩, hstatements, h⟩ := Option.bind_eq_some_iff.mp h
  obtain ⟨plain, hplain, h⟩ := Option.bind_eq_some_iff.mp h
  have hlayout := distinct_ofStatements (gives_statementsWithin _ _ _ _ hstatements) hplain
  cases hlayout with
  | table hkeys heach =>
    exact distinct_of_readEntryDates hkeys (fun e he v' => (heach e he).readDates) h

end DecisionModel.Toml
