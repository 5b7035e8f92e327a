import DecisionModel.Proofs.TreeFile.Outline
import DecisionModel.Proofs.TreeFile.Step

/-!
# Reading the lines of an outline

What reading makes of each kind of line that an outline is written with: blank lines, the
records of decisions and of tests, placeholders and sets.
-/

namespace DecisionModel.TreeFile

open State

/-! ### Runs over lines -/

/-- Lines of the given texts lead from one state to another, wherever they stand. -/
structure Reaches (schema : Schema) (texts : List (List Char)) (s s' : State) : Prop where
  on_lines : ∀ text ∈ texts, '\n' ∉ text
  run : ∀ ls : List Line, ls.map (·.text) = texts.map Line.trim →
    ls.foldlM (State.step schema) s = .ok s'

namespace Reaches

variable {schema : Schema} {xs ys : List (List Char)} {s t u : State}

theorem nil : Reaches schema [] s s where
  on_lines := by simp
  run := by
    intro ls hls
    rw [List.map_nil, List.map_eq_nil_iff] at hls
    rw [hls]
    rfl

theorem append (hx : Reaches schema xs s t) (hy : Reaches schema ys t u) :
    Reaches schema (xs ++ ys) s u where
  on_lines := by
    intro text htext
    rcases List.mem_append.mp htext with hleft | hright
    · exact hx.on_lines text hleft
    · exact hy.on_lines text hright
  run := by
    intro ls hls
    rw [List.map_append] at hls
    obtain ⟨before, after, rfl, hbefore, hafter⟩ := List.map_eq_append_iff.mp hls
    rw [foldlM_append_ok (hx.run before hbefore), hy.run after hafter]

/-- A line that leads to one state wherever it stands. -/
theorem line {text : List Char} (htext : '\n' ∉ text)
    (h : ∀ l : Line, l.text = Line.trim text → s.step schema l = .ok t) :
    Reaches schema [text] s t where
  on_lines := by simpa using htext
  run := by
    intro ls hls
    obtain ⟨l, rfl, hl⟩ := List.map_eq_singleton_iff.mp hls
    rw [foldlM_cons_ok (h l hl)]
    rfl

end Reaches

/-! ### Blank lines and records -/

theorem BlankLine.lineFeed_notMem (text : BlankLine) : '\n' ∉ text.val :=
  fun hmem => (text.property '\n' hmem).2 rfl

theorem BlankLine.isBlank {text : BlankLine} {l : Line} (hl : l.text = Line.trim text.val) :
    l.isBlank = true := by
  rw [Line.isBlank, hl, List.all_eq_true]
  intro c hc
  exact (text.property c (Line.mem_of_mem_trim hc)).1

section

variable {schema : Schema} {s s' : State}

/-- Blank lines are passed over, except right behind a test on values. -/
theorem reaches_blanks (hs : ∀ a forks span stack, s ≠ .placeholder a forks span stack)
    (blanks : List BlankLine) : Reaches schema (blanks.map Subtype.val) s s := by
  induction blanks with
  | nil => exact .nil
  | cons text rest ih =>
    have hfirst : Reaches schema [text.val] s s := by
      refine .line text.lineFeed_notMem ?_
      intro l hl
      rw [step_eq_of_ne_placeholder hs, if_pos (BlankLine.isBlank hl)]
    exact hfirst.append ih

variable {fields : List Content}

theorem trim_recordText (h : ∀ f ∈ fields, Writable f) (hne : fields ≠ []) :
    Line.trim (recordText fields) = recordText fields := by
  refine Line.trim_eq_self ?_
  rw [getLast?_recordText h hne]
  decide

theorem isBlank_eq_false_of_recordText (h : ∀ f ∈ fields, Writable f) (hne : fields ≠ []) {l : Line}
    (hl : l.text = recordText fields) : l.isBlank = false := by
  have hquote : '"' ∈ l.text := by
    rw [hl]
    exact List.mem_of_getLast? (getLast?_recordText h hne)
  rw [Line.isBlank, List.all_eq_false]
  exact ⟨'"', hquote, by decide +kernel⟩

/-- The line of a record is read as a record with its fields. -/
theorem exists_parse_of_recordText (hfields : ∀ f ∈ fields, Writable f) (hne : fields ≠ [])
    {l : Line} (hl : l.text = Line.trim (recordText fields)) :
    l.isBlank = false ∧ ∃ r, Record.parse l = .ok r ∧ r.fields.map Field.content = fields := by
  rw [trim_recordText hfields hne] at hl
  exact ⟨isBlank_eq_false_of_recordText hfields hne hl, parse_recordText hfields hl⟩

/-- The line of a record leads where every record with its fields leads. -/
theorem reaches_record (hs : ∀ a forks span stack, s ≠ .placeholder a forks span stack)
    (hfields : ∀ f ∈ fields, Writable f) (hne : fields ≠ [])
    (h : ∀ r : Record, r.fields.map Field.content = fields → s.record schema r = .ok s') :
    Reaches schema [recordText fields] s s' := by
  refine .line (lineFeed_notMem_recordText hfields) ?_
  intro l hl
  obtain ⟨hblank, r, hr, hcontent⟩ := exists_parse_of_recordText hfields hne hl
  rw [step_eq_of_ne_placeholder hs, hblank, hr]
  exact h r hcontent

end

/-! ### Fields -/

theorem natural?_toString (n : Nat) : natural? (toString n) = some n := by
  have htext : (toString n).toList = Nat.toDigits 10 n := by simp
  have hdigits : ∀ c ∈ Nat.toDigits 10 n, c.isDigit = true :=
    fun c hc => Nat.isDigit_of_mem_toDigits (by decide) (by decide) hc
  have hall : (Nat.toDigits 10 n).all Char.isDigit = true := by
    rw [List.all_eq_true]
    exact hdigits
  have hsign : ∀ rest, Nat.toDigits 10 n ≠ '+' :: rest := by
    intro rest hplus
    have hdigit : '+'.isDigit = true := hdigits '+' (by rw [hplus]; simp)
    cases hdigit
  unfold natural?
  dsimp only
  rw [htext]
  split
  · rename_i rest hplus
    exact absurd hplus (hsign rest)
  · rw [← Nat.ofDigitChars_eq_foldl, Nat.ofDigitChars_ten_toDigits, hall]
    simp [Nat.toDigits_ne_nil]

theorem codes_eq_ok {f : Field} {a : Attribute} {codes : List Int}
    (h : f.content.2.mapM a.codeOf? = some codes) : f.codes a = .ok codes := by
  replace h : (f.values.map (·.1)).mapM a.codeOf? = some codes := h
  unfold Field.codes
  generalize f.values = values at h
  induction values generalizing codes with
  | nil =>
    cases h
    rfl
  | cons entry rest ih =>
    rw [List.map_cons] at h
    obtain ⟨code, more, hcode, hmore, rfl⟩ := mapM_cons_eq_some h
    rw [List.mapM_cons, ih hmore]
    dsimp only
    rw [hcode]
    rfl

theorem mapM_codes_eq_ok {fs : List Field} {a : Attribute} {sets : List (List String)}
    {codes : List (List Int)} (hfs : fs.map Field.content = sets.map setField)
    (h : sets.mapM (fun values => values.mapM a.codeOf?) = some codes) :
    fs.mapM (·.codes a) = .ok codes := by
  induction sets generalizing fs codes with
  | nil =>
    cases h
    rw [List.map_nil, List.map_eq_nil_iff] at hfs
    rw [hfs]
    rfl
  | cons values rest ih =>
    obtain ⟨f, fs, rfl, hf, hrest⟩ := List.map_eq_cons_iff.mp hfs
    obtain ⟨set, more, hset, hmore, rfl⟩ := mapM_cons_eq_some h
    have hcodes : f.codes a = .ok set := codes_eq_ok (by rw [hf]; exact hset)
    rw [List.mapM_cons, hcodes, ih hrest hmore]
    rfl

/-! ### Records of nodes -/

theorem writable_single {name value : String} (hname : isFieldName name = true)
    (hvalue : '\n' ∉ value.toList) : Writable (name, [value]) where
  name := hname
  nonempty := by simp
  no_lineFeed := by simpa using hvalue

theorem lineFeed_notMem_toString (n : Nat) : '\n' ∉ (toString n).toList := by
  intro hmem
  have hdigit : '\n'.isDigit = true :=
    Nat.isDigit_of_mem_toDigits (b := 10) (by decide) (by decide) (by simpa using hmem)
  cases hdigit

theorem writable_leafFields {decision : String} (h : '\n' ∉ decision.toList) :
    ∀ f ∈ leafFields decision, Writable f := by
  simp only [leafFields, List.forall_mem_cons, List.not_mem_nil, false_imp_iff, implies_true,
    and_true]
  exact ⟨writable_single (by decide) (by decide), writable_single (by decide) h⟩

theorem writable_testFields {type attr : String} (htype : '\n' ∉ type.toList)
    (hattr : '\n' ∉ attr.toList) (forks : Nat) : ∀ f ∈ testFields type attr forks, Writable f := by
  simp only [testFields, List.forall_mem_cons, List.not_mem_nil, false_imp_iff, implies_true,
    and_true]
  exact ⟨writable_single (by decide) htype, writable_single (by decide) hattr,
    writable_single (by decide) (lineFeed_notMem_toString forks)⟩

section

variable {schema : Schema} {r : Record}

theorem record_leafFields {decision : String}
    (hr : r.fields.map Field.content = leafFields decision) {code : Int}
    (hcode : schema.decisionCode? decision = some code) (stack : List Frame) :
    nodeRecord schema r stack = .ok (.plug (.terminal (.integer code)) stack) := by
  obtain ⟨typeSpan, htype⟩ := Record.value_eq_ok hr "type" rfl rfl
  obtain ⟨classSpan, hclass⟩ := Record.value_eq_ok hr "class" rfl rfl
  have hterminal : r.terminal schema = .ok (.terminal (.integer code)) := by
    simp only [Record.terminal, hclass, bind, Except.bind, hcode]
  simp only [nodeRecord, Record.nodeType, htype, bind, Except.bind, hterminal]

variable {type attr : String} {forks : Nat} {more : List Content}

theorem tested_eq_ok (hr : r.fields.map Field.content = testFields type attr forks ++ more)
    {a : Attribute} (ha : schema.attribute? attr = some a) : r.tested schema = .ok a := by
  obtain ⟨span, hattr⟩ := Record.value_eq_ok hr "att" rfl rfl
  simp only [Record.tested, hattr, bind, Except.bind, ha]

theorem forks_eq_ok (hr : r.fields.map Field.content = testFields type attr forks ++ more)
    (hlow : 1 ≤ forks) (hhigh : forks ≤ 100) : r.forks = .ok forks := by
  obtain ⟨span, hforks⟩ := Record.value_eq_ok hr "forks" rfl rfl
  have hbounds : 1 ≤ forks ∧ forks ≤ maxForks := ⟨hlow, hhigh⟩
  simp only [Record.forks, hforks, bind, Except.bind, natural?_toString, hbounds, if_true,
    and_self]

theorem nodeRecord_values (hr : r.fields.map Field.content = testFields "1" attr forks ++ more)
    {a : Attribute} (ha : schema.attribute? attr = some a) (hlow : 1 ≤ forks)
    (hhigh : forks ≤ 100) (stack : List Frame) :
    ∃ span, nodeRecord schema r stack = .ok (.placeholder a forks span stack) := by
  obtain ⟨typeSpan, htype⟩ := Record.value_eq_ok hr "type" rfl rfl
  obtain ⟨field, hfield, -⟩ := Record.required_eq_ok hr "forks" rfl
  refine ⟨field.span, ?_⟩
  simp only [nodeRecord, Record.nodeType, htype, bind, Except.bind, tested_eq_ok hr ha,
    forks_eq_ok hr hlow hhigh, hfield]

theorem nodeRecord_threshold
    (hr : r.fields.map Field.content = testFields "2" attr forks ++ more)
    {a : Attribute} (ha : schema.attribute? attr = some a) (hlow : 1 ≤ forks)
    (hhigh : forks ≤ 100) (stack : List Frame) :
    nodeRecord schema r stack = .ok (descend (thresholdBranches a forks) stack) := by
  obtain ⟨typeSpan, htype⟩ := Record.value_eq_ok hr "type" rfl rfl
  simp only [nodeRecord, Record.nodeType, htype, bind, Except.bind, tested_eq_ok hr ha,
    forks_eq_ok hr hlow hhigh]

theorem nodeRecord_subsets (hr : r.fields.map Field.content = testFields "3" attr forks ++ more)
    {a : Attribute} (ha : schema.attribute? attr = some a) (hlow : 1 ≤ forks)
    (hhigh : forks ≤ 100) (stack : List Frame) :
    nodeRecord schema r stack = openSubsets r a forks stack := by
  obtain ⟨typeSpan, htype⟩ := Record.value_eq_ok hr "type" rfl rfl
  simp only [nodeRecord, Record.nodeType, htype, bind, Except.bind, tested_eq_ok hr ha,
    forks_eq_ok hr hlow hhigh]

theorem filter_testFields (type attr : String) (forks : Nat) (sets : List (List String)) :
    (testFields type attr forks ++ sets.map setField).filter (·.1 == "elts") =
      sets.map setField := by
  have hsets : (sets.map setField).filter (·.1 == "elts") = sets.map setField := by
    rw [List.filter_eq_self]
    intro f hf
    obtain ⟨values, -, rfl⟩ := List.mem_map.mp hf
    rfl
  rw [List.filter_append, hsets]
  simp [testFields]

/-- A test whose record has no sets goes on with lines for them. -/
theorem openSubsets_following {type : String}
    (hr : r.fields.map Field.content = testFields type attr forks) (a : Attribute)
    (stack : List Frame) : openSubsets r a forks stack = .ok (.subsets a forks [] stack) := by
  have hnone : (r.fieldsNamed "elts").map Field.content = [] := by
    rw [Record.map_content_fieldsNamed hr]
    simp [testFields]
  rw [List.map_eq_nil_iff] at hnone
  rw [openSubsets, hnone]

/-- A test whose record has all its sets goes on with its nodes. -/
theorem openSubsets_inline {type : String} {sets : List (List String)}
    (hr : r.fields.map Field.content = testFields type attr sets.length ++ sets.map setField)
    (hne : sets ≠ []) {a : Attribute} {codes : List (List Int)}
    (hcodes : sets.mapM (fun values => values.mapM a.codeOf?) = some codes)
    (stack : List Frame) :
    openSubsets r a sets.length stack = .ok (descend (subsetBranches a codes) stack) := by
  have helts : (r.fieldsNamed "elts").map Field.content = sets.map setField := by
    rw [Record.map_content_fieldsNamed hr, filter_testFields]
  have hlength : (r.fieldsNamed "elts").length = sets.length := by
    simpa using congrArg List.length helts
  have hmapM := mapM_codes_eq_ok helts hcodes
  unfold openSubsets
  rcases hfields : r.fieldsNamed "elts" with _ | ⟨extra, rest⟩
  · rw [hfields] at hlength
    exact absurd (List.eq_nil_of_length_eq_zero hlength.symm) hne
  · rw [hfields] at hlength hmapM
    dsimp only
    rw [if_pos hlength, hmapM]
    rfl

end

end DecisionModel.TreeFile
