import DecisionModel.Source.Line

/-!
# Lines that are written

Lines are written with a line feed behind each, and maybe a carriage return before it.  The
last line may go without, if there is anything on it.  Reading finds the same lines, less the
carriage returns at their ends.

Text that is cut behind a line has the lines up to there, and text that goes on behind a line
feed has the lines of both parts.
-/

namespace DecisionModel

open Text

inductive LineEnd where
  | lineFeed
  | carriageReturn
  deriving DecidableEq, Repr

def LineEnd.text : LineEnd → List Char
  | .lineFeed => ['\n']
  | .carriageReturn => ['\r', '\n']

namespace Line

/-- Text without the carriage returns at its end. -/
def trim (text : List Char) : List Char := (text.reverse.dropWhile (· == '\r')).reverse

/-- The text of lines.  Unless it is `closed`, the last line lacks its end if it is not empty. -/
def linesText (lineEnd : LineEnd) (closed : Bool) : List (List Char) → List Char
  | [] => []
  | text :: rest =>
    if rest.isEmpty && !closed && !text.isEmpty then text
    else text ++ lineEnd.text ++ linesText lineEnd closed rest

theorem trim_eq_self {text : List Char} (h : text.getLast? ≠ some '\r') : trim text = text := by
  unfold trim
  rcases hreverse : text.reverse with _ | ⟨c, before⟩
  · simpa using hreverse
  · have hc : (c == '\r') = false := by
      rw [List.getLast?_eq_head?_reverse, hreverse] at h
      simpa using h
    rw [List.dropWhile_cons, hc, ← hreverse]
    simp

theorem mem_of_mem_trim {text : List Char} {c : Char} (h : c ∈ trim text) : c ∈ text := by
  unfold trim at h
  rw [List.mem_reverse] at h
  exact List.mem_reverse.mp ((List.dropWhile_sublist _).mem h)

/-! ### Reading lines -/

theorem split_of_notMem {text : List Char} (h : '\n' ∉ text) (start : Nat) (reversed : List Char)
    (place : Nat) (rest : List Char) :
    ∃ place', split start reversed place (text ++ rest) =
      split start (text.reverse ++ reversed) place' rest := by
  induction text generalizing reversed place with
  | nil => exact ⟨place, rfl⟩
  | cons c text ih =>
    simp only [List.mem_cons, not_or] at h
    obtain ⟨hc, htext⟩ := h
    obtain ⟨place', hsplit⟩ := ih htext (c :: reversed) (place + c.utf8Size)
    refine ⟨place', ?_⟩
    rw [List.cons_append, split, if_neg (Ne.symm hc), hsplit]
    simp

/-- A line that is ended is cut off. -/
theorem split_line {text : List Char} (h : '\n' ∉ text) (lineEnd : LineEnd) (start : Nat)
    (rest : List Char) :
    ∃ l place, l.text = trim text ∧
      split start [] start (text ++ lineEnd.text ++ rest) = l :: split place [] place rest := by
  obtain ⟨place, hsplit⟩ := split_of_notMem h start [] start (lineEnd.text ++ rest)
  rw [List.append_assoc, hsplit, List.append_nil]
  cases lineEnd with
  | lineFeed => exact ⟨ofReversed start text.reverse, _, rfl, rfl⟩
  | carriageReturn => exact ⟨ofReversed start ('\r' :: text.reverse), _, rfl, rfl⟩

/-- **Lines that are written are read back**, without carriage returns at their ends. -/
theorem map_text_ofText_linesText {lines : List (List Char)} (h : ∀ text ∈ lines, '\n' ∉ text)
    (lineEnd : LineEnd) (closed : Bool) :
    (ofText (linesText lineEnd closed lines)).map (·.text) = lines.map trim := by
  have hsplit : ∀ start, (split start [] start (linesText lineEnd closed lines)).map (·.text) =
      lines.map trim := by
    induction lines with
    | nil => exact fun _ => rfl
    | cons text rest ih =>
      intro start
      have htext : '\n' ∉ text := h text (by simp)
      unfold linesText
      split
      · -- the last line has no end
        rename_i hlast
        simp only [Bool.and_eq_true, List.isEmpty_iff, Bool.not_eq_true', List.isEmpty_eq_false_iff]
          at hlast
        obtain ⟨⟨rfl, -⟩, hne⟩ := hlast
        obtain ⟨place, hopen⟩ := split_of_notMem htext start [] start []
        rw [List.append_nil, List.append_nil] at hopen
        rw [hopen, split, if_neg (by simpa using hne)]
        rfl
      · obtain ⟨l, place, hl, hline⟩ := split_line htext lineEnd start
          (linesText lineEnd closed rest)
        rw [hline, List.map_cons, List.map_cons, hl, ih (fun t ht => h t (by simp [ht])) place]
  exact hsplit 0

/-! ### Cutting and joining text -/

/-- The text up to the end of its line number `count`. -/
def firstLines : Nat → List Char → List Char
  | 0, _ => []
  | _ + 1, [] => []
  | count + 1, c :: rest =>
    if c = '\n' then c :: firstLines count rest else c :: firstLines (count + 1) rest

/-- The line moved right by `offset`. -/
def shift (l : Line) (offset : Nat) : Line := { l with offset := l.offset + offset }

@[simp] theorem shift_text (l : Line) (offset : Nat) : (l.shift offset).text = l.text := rfl

@[simp] theorem isBlank_shift (l : Line) (offset : Nat) : (l.shift offset).isBlank = l.isBlank :=
  rfl

theorem split_firstLines (text : List Char) :
    ∀ count start reversed place, split start reversed place (firstLines (count + 1) text) =
      (split start reversed place text).take (count + 1) := by
  induction text with
  | nil =>
    intro count start reversed place
    simp only [firstLines, split]
    split <;> simp
  | cons c rest ih =>
    intro count start reversed place
    by_cases hc : c = '\n'
    · -- the line ends here, and `count` more may follow
      simp only [firstLines, if_pos hc, split, List.take_succ_cons, List.cons.injEq, true_and]
      cases count with
      | zero => simp [firstLines, split]
      | succ count => exact ih count _ [] _
    · simp only [firstLines, if_neg hc, split]
      exact ih count start _ _

/-- **Text that is cut behind a line** has the lines up to there. -/
theorem ofText_firstLines (count : Nat) (text : List Char) :
    ofText (firstLines count text) = (ofText text).take count := by
  cases count with
  | zero => simp [firstLines, ofText, split]
  | succ count => exact split_firstLines text count 0 [] 0

theorem split_append {before : List Char} (h : before.getLast? = some '\n') (after : List Char) :
    ∀ start reversed place, split start reversed place (before ++ after) =
      split start reversed place before ++
        split (place + byteLength before) [] (place + byteLength before) after := by
  induction before with
  | nil => cases h
  | cons c rest ih =>
    intro start reversed place
    rw [byteLength_cons, ← Nat.add_assoc]
    by_cases hrest : rest = []
    · -- the text before ends with `c`
      have hc : c = '\n' := by simpa [hrest] using h
      simp [hrest, hc, split]
    · have hlast : rest.getLast? = some '\n' := by
        rw [← h, List.getLast?_cons_of_ne_nil hrest]
      by_cases hc : c = '\n'
      · simp only [List.cons_append, split, if_pos hc, ih hlast]
      · simp only [List.cons_append, split, if_neg hc, ih hlast]

theorem split_shift (offset : Nat) (text : List Char) :
    ∀ start reversed place, split (start + offset) reversed (place + offset) text =
      (split start reversed place text).map (·.shift offset) := by
  induction text with
  | nil =>
    intro start reversed place
    simp only [split]
    split <;> rfl
  | cons c rest ih =>
    intro start reversed place
    have hnext : place + offset + c.utf8Size = place + c.utf8Size + offset := by omega
    simp only [split, hnext]
    split
    · rw [ih, List.map_cons]
      rfl
    · rw [ih]

/-- **Text that goes on behind a line feed** has the lines of both parts. -/
theorem ofText_append {before : List Char} (h : before.getLast? = some '\n')
    (after : List Char) :
    ofText (before ++ after) =
      ofText before ++ (ofText after).map (·.shift (byteLength before)) := by
  rw [ofText, split_append h, ofText, ofText, ← split_shift]

end Line

end DecisionModel
