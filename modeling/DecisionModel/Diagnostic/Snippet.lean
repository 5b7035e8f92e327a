import DecisionModel.Diagnostic.Basic
import DecisionModel.Diagnostic.Cells

/-!
# Diagnostics with source snippets

A diagnostic is written as its message and the labelled lines of its file:

    error: unknown decision value `stpo`
      ┌─ policy.tree:1:16
      │
    1 │ type="0" class="stpo"
      │                ^^^^^^ not a value of `state`

Carets underline primary labels and dashes secondary ones, at least one for each.  The
message of the label that ends last stands behind the marks, unless another label
overlaps it; all others hang below, rightmost first, each on a line of its own.  A single
line between two labelled ones is shown too, and a longer gap as a dot.
-/

namespace DecisionModel.Diagnostic

open Text

/-- A label of one line, with places counted from the start of the line. -/
structure LineLabel where
  style : LabelStyle
  start : Nat
  stop : Nat
  message : String
  deriving DecidableEq, Repr

namespace LineLabel

def overlaps (a : LineLabel) (start stop : Nat) : Bool := max a.start start < min a.stop stop

/-- Labels go by their start, then by their end. -/
def before (a b : LineLabel) : Bool :=
  a.start < b.start || (a.start == b.start && a.stop < b.stop)

def samePlace (a b : LineLabel) : Bool := a.start == b.start && a.stop == b.stop

def insert (l : LineLabel) : List LineLabel → List LineLabel
  | [] => [l]
  | x :: rest =>
    if x.before l || (x.samePlace l && rest.head?.any l.samePlace) then x :: insert l rest
    else l :: x :: rest

/-- The style that shows where labels of these styles meet. -/
def topStyle? (labels : List LineLabel) : Option LabelStyle :=
  if labels.any (·.style == .primary) then some .primary
  else if labels.isEmpty then none
  else some .secondary

end LineLabel

def mark : LabelStyle → Char
  | .primary => '^'
  | .secondary => '-'

/-! ### The marks below a line -/

/-- The label whose message stands behind the marks: of those that end last the last, if
    it has a message and overlaps no other. -/
def trailingIndex? (labels : List LineLabel) : Option Nat :=
  let last := labels.foldl (fun stop l => max stop l.stop) 0
  let candidate := (labels.zipIdx.filter fun (l, _) => l.stop == last).getLast?
  match candidate with
  | none => none
  | some (l, i) =>
    if l.message.isEmpty then none
    else if labels.zipIdx.any fun (m, j) => j != i && m.overlaps l.start l.stop then none
    else some i

/-- The labels whose messages hang below the marks. -/
def hanging (labels : List LineLabel) (trailing : Option Nat) : List LineLabel :=
  (labels.zipIdx.filter fun (l, i) => !l.message.isEmpty && trailing != some i).map (·.1)

def marks (line : List Char) (labels : List LineLabel) : List Char :=
  let last := labels.foldl (fun stop l => max stop l.stop) 0
  let columns := cells line ++ [⟨'\x00', byteLength line, 1⟩]
  columns.flatMap fun c =>
    match LineLabel.topStyle? (labels.filter (·.overlaps c.place c.stop)) with
    | some style => fill (mark style) c.width
    | none => if c.place < last then fill ' ' c.width else []

/-- Bars below the starts of the hanging labels, for the columns before `limit`. -/
def pointers (line : List Char) (labels hangers : List LineLabel) (limit : Nat) : List Char :=
  let rightmost := labels.foldl (fun start l => max start l.start) 0
  ((cells line).takeWhile (·.place < limit)).flatMap fun c =>
    let pointed := hangers.any fun l => c.place ≤ l.start && l.start < c.stop
    let blanks := if pointed then c.width - 1 else c.width
    (if pointed then ['│'] else []) ++ (if c.place ≤ rightmost then fill ' ' blanks else [])

/-- The lines below a labelled line: its marks, and the messages that hang from them. -/
def underline (line : List Char) (labels : List LineLabel) : List (List Char) :=
  let trailing := trailingIndex? labels
  let message := match trailing.bind (labels[·]?) with
    | some l => ' ' :: l.message.toList
    | none => []
  let hangers := hanging labels trailing
  let below := if hangers.isEmpty then []
    else pointers line labels hangers (byteLength line) ::
      hangers.reverse.map fun l => pointers line labels hangers l.start ++ l.message.toList
  (marks line labels ++ message) :: below

/-! ### The snippet -/

structure LabelledLine where
  index : Nat
  labels : List LineLabel
  deriving DecidableEq, Repr

/-- The lines with one more label on the line of the given index, in order. -/
def addLabel (index : Nat) (label : LineLabel) : List LabelledLine → List LabelledLine
  | [] => [⟨index, [label]⟩]
  | l :: rest =>
    if l.index = index then ⟨index, label.insert l.labels⟩ :: rest
    else if index < l.index then ⟨index, [label]⟩ :: l :: rest
    else l :: addLabel index label rest

def lineText (file : SourceFile) (index : Nat) : List Char :=
  let text := ((file.lineSpan? index).map file.slice).getD []
  (text.reverse.dropWhile fun c => c == '\n' || c == '\r' || c == '\x00').reverse

def lineStart (file : SourceFile) (index : Nat) : Nat :=
  ((file.lineSpan? index).map (·.start)).getD 0

def labelledLines (file : SourceFile) (labels : List Label) : List LabelledLine :=
  labels.foldl (fun lines l =>
    let index := file.lineIndex l.span.start
    let start := l.span.start - lineStart file index
    let stop := max (l.span.stop - lineStart file index) (start + 1)
    addLabel index ⟨l.style, start, stop, l.message⟩ lines) []

/-- The label that a snippet is for: the first place of the highest style. -/
def anchor? : List Label → Option Label
  | [] => none
  | l :: rest => some (rest.foldl (fun best l =>
      let higher := best.style == .secondary && l.style == .primary
      let earlier := best.style == l.style && l.span.start < best.span.start
      if higher || earlier then l else best) l)

def locus (file : SourceFile) (l : Label) : String :=
  let index := file.lineIndex l.span.start
  let column := (file.slice ⟨lineStart file index, l.span.start⟩).length + 1
  s!"{file.name}:{index + 1}:{column}"

/-- Text behind the border, with what stands in front of it. -/
def bordered (gutter : String) (pad : Nat) (border : String) (text : List Char) : String :=
  String.ofList (List.replicate (pad - gutter.length) ' ') ++ gutter ++ " " ++ border ++
    String.ofList text

def sourceLine (file : SourceFile) (pad index : Nat) : String :=
  bordered (toString (index + 1)) pad "│"
    (' ' :: (cells (lineText file index)).flatMap Cell.print)

def labelledText (file : SourceFile) (pad : Nat) (l : LabelledLine) : List String :=
  sourceLine file pad l.index ::
    (underline (lineText file l.index) l.labels).map fun text =>
      bordered "" pad "│" (' ' :: text)

def between (file : SourceFile) (pad above below : Nat) : List String :=
  if below = above + 1 then []
  else if below = above + 2 then [sourceLine file pad (above + 1)]
  else [bordered "" pad "·" []]

def body (file : SourceFile) (pad : Nat) : List LabelledLine → List String
  | [] => []
  | [l] => labelledText file pad l
  | l :: next :: rest =>
    labelledText file pad l ++ between file pad l.index next.index ++
      body file pad (next :: rest)

def snippet (file : SourceFile) (labels : List Label) : List String :=
  match anchor? labels with
  | none => []
  | some anchor =>
    let lines := labelledLines file labels
    let pad := lines.foldl (fun n l => max n (toString (l.index + 1)).length) 0
    bordered "" pad ("┌─ " ++ locus file anchor) [] :: bordered "" pad "│" [] ::
      body file pad lines

def render (d : Diagnostic) (file : SourceFile) : String :=
  String.join ((s!"error: {d.message}" :: snippet file d.labels ++ [""]).map (· ++ "\n"))

end DecisionModel.Diagnostic
