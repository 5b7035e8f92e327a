import DecisionModel.Toml.Value

/-!
# Building tables from entries

Dotted keys and table headers put entries into tables within tables.  How a table came
about decides what may still be added to it: one that only a longer header mentions can
get a header of its own once, one that dotted keys made takes more dotted keys, and one
that has a header or is a value takes nothing more from outside.
-/

namespace DecisionModel.Toml

inductive Origin where
  /-- A header of its own. -/
  | header
  /-- The headers of tables in it. -/
  | mention
  /-- Dotted keys. -/
  | dotted
  deriving DecidableEq, Repr

inductive Item where
  | value (v : Value)
  | table (origin : Origin) (entries : List (String × Item))
  /-- An array of tables, made of the tables that have its header, in order. -/
  | tables (list : List (List (String × Item)))
  deriving Repr, Inhabited

/-- The items of a table, in order and with distinct keys. -/
abbrev Items := List (String × Item)

namespace Items

def replace (items : Items) (key : String) (item : Item) : Items :=
  items.map fun (k, i) => if k = key then (k, item) else (k, i)

def erase (items : Items) (key : String) : Items := items.filter (·.1 != key)

/-- Changes the table at the end of a path, making the tables on the way, and tells what
    the change found.  Dotted keys stay out of tables that have headers; headers go on in
    the last table of an array. -/
def update {α : Type} (dotted : Bool) (f : Origin → Items → Option (α × Items)) :
    List String → Origin → Items → Option (α × Items)
  | [], origin, items => f origin items
  | key :: path, _, items =>
    match items.lookup key with
    | none => do
      let origin := if dotted then .dotted else .mention
      let (found, inner) ← update dotted f path origin []
      some (found, items ++ [(key, .table origin inner)])
    | some (.value _) => none
    | some (.table origin inner) =>
      if dotted && origin == .header then none
      else do
        let (found, inner) ← update dotted f path origin inner
        some (found, replace items key (.table origin inner))
    | some (.tables list) => do
      let (found, last) ← update dotted f path .header (← list.getLast?)
      some (found, replace items key (.tables (list.dropLast ++ [last])))

def addEntry (items : Items) (path : List String) (key : String) (item : Item) : Option Items := do
  let add (origin : Origin) (items : Items) : Option (Unit × Items) :=
    if (origin == .dotted) == path.isEmpty || (items.lookup key).isSome then none
    else some ((), items ++ [(key, item)])
  let (_, items) ← update true add path .header items
  some items

def addTable (items : Items) (path : List String) (key : String) (inner : Items) :
    Option Items := do
  let add (_ : Origin) (items : Items) : Option (Unit × Items) :=
    some ((), items ++ [(key, .table .header inner)])
  let (_, items) ← update false add path .header items
  some items

def addToArray (items : Items) (path : List String) (key : String) (inner : Items) :
    Option Items := do
  let add (_ : Origin) (items : Items) : Option (Unit × Items) :=
    match items.lookup key with
    | none => some ((), items ++ [(key, .tables [inner])])
    | some (.tables list) => some ((), replace items key (.tables (list ++ [inner])))
    | some _ => none
  let (_, items) ← update false add path .header items
  some items

/-- Takes out the table under a key, which has had no header yet and may be new. -/
def takeTable (items : Items) (path : List String) (key : String) : Option (Items × Items) :=
  let take (_ : Origin) (items : Items) : Option (Items × Items) :=
    match items.lookup key with
    | none => some ([], items)
    | some (.table .mention inner) => some (inner, erase items key)
    | some _ => none
  update false take path .header items

end Items

mutual

def Item.toValue : Item → Value
  | .value v => v
  | .table _ entries => .table (toTable entries)
  | .tables list => .array (toTables list)
termination_by structural i => i

def toTable : List (String × Item) → List (String × Value)
  | [] => []
  | (key, i) :: rest => (key, i.toValue) :: toTable rest
termination_by structural entries => entries

def toTables : List (List (String × Item)) → List Value
  | [] => []
  | entries :: rest => .table (toTable entries) :: toTables rest
termination_by structural list => list

end

/-! ### Documents -/

inductive Statement where
  | entry (path : List String) (key : String) (value : Value)
  /-- The header of a table. -/
  | header (path : List String) (key : String)
  /-- The header of one more table of an array. -/
  | arrayHeader (path : List String) (key : String)
  deriving Repr

/-- Where the entries of the current table belong. -/
inductive Target where
  | root
  | table (path : List String) (key : String)
  | arrayItem (path : List String) (key : String)
  deriving DecidableEq, Repr

/-- A document up to some line: the items of the tables that are complete, and those of
    the table that entries go to. -/
structure Layout where
  root : Items
  target : Target
  current : Items
  deriving Repr

namespace Layout

def initial : Layout := ⟨[], .root, []⟩

def close (l : Layout) : Option Items :=
  match l.target with
  | .root => some l.current
  | .table path key => l.root.addTable path key l.current
  | .arrayItem path key => l.root.addToArray path key l.current

def step (l : Layout) : Statement → Option Layout
  | .entry path key value => do
    some { l with current := ← l.current.addEntry path key (.value value) }
  | .header path key => do
    let (inner, root) ← (← l.close).takeTable path key
    some ⟨root, .table path key, inner⟩
  | .arrayHeader path key => do
    let root ← l.close
    let _ ← root.addToArray path key []
    some ⟨root, .arrayItem path key, []⟩

def ofStatements (statements : List Statement) : Option Table := do
  let l ← statements.foldlM step initial
  some (toTable (← l.close))

end Layout

end DecisionModel.Toml
