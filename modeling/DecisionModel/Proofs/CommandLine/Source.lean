import DecisionModel.Proofs.CommandLine.Record
import DecisionModel.Proofs.Model.Loading

/-!
# What a run reads

A run reads its configuration from the file that is asked for, or else from the usual one if it
is there.  The model is named by an argument or by the configuration, and its files are read one
after the other, with the binding of attributes between them.  Each step finds what it needs, or
is at fault in one of the ways that are listed here.
-/

namespace DecisionModel

/-- The configuration of the file at the path: its stems count from the directory of the file. -/
def Config.locatedAt (c : Config) (path : String) : Config :=
  match Path.parent? path with
  | some base => c.resolvePaths base
  | none => c

theorem Config.SlotsInRange.locatedAt {c : Config} (h : c.SlotsInRange) (path : String) :
    (c.locatedAt path).SlotsInRange := by
  refine h.of_bindings_eq ?_
  unfold Config.locatedAt
  split
  · rfl
  · rfl

theorem append_ne_empty (text : String) {ending : String} (h : ending ≠ "") : text ++ ending ≠ "" :=
  fun hempty => h (String.append_eq_empty_iff.mp hempty).2

namespace CommandLine

/-! ### The configuration -/

section Configuration

/-- The path that the configuration is read from. -/
inductive Chooses (files : Files) (a : Arguments) : String → Prop
  | asked {path : String} : a.config = some path → Chooses files a path
  | usual : a.config = none → files.isFile configFileName = true → Chooses files a configFileName

/-- The chosen file cannot be read, or holds no configuration. -/
inductive BadConfig (files : Files) (a : Arguments) : Prop
  | unreadable {path : String} {reason : ReadError} : Chooses files a path →
      files.read path = .error reason → BadConfig files a
  | invalid {path document : String} : Chooses files a path → files.read path = .ok document →
      Toml.parse document = none → BadConfig files a

/-- The configuration of a run: that of the chosen file, or the empty one. -/
inductive Configured (files : Files) (a : Arguments) : Config → Prop
  | read {path document : String} {config : Config} : Chooses files a path →
      files.read path = .ok document → Config.parse document = some config →
      Configured files a (config.locatedAt path)
  | empty : (∀ path, ¬ Chooses files a path) → Configured files a .empty

variable {files : Files} {a : Arguments} {config : Config}

end Configuration

/-! ### The name of the model -/

/-- The stem of the model among the arguments.  What stands in its place is none if it is to be
    evaluated and has an equals sign. -/
def Arguments.modelStem (a : Arguments) : Option String :=
  if a.command = .eval then a.stem.filter fun stem => '=' ∉ stem.toList else a.stem

/-- The pairs among the arguments, with the one in the place of the stem. -/
def Arguments.pairs (a : Arguments) : List String :=
  (a.stem.filter fun stem => '=' ∈ stem.toList).toList ++ a.values

/-- The stems of the model's files.  The tree has that of the schema unless it is given another,
    by an argument or, where the configuration names the model, by the configuration. -/
inductive NamesModel (a : Arguments) (config : Config) : String → String → Prop
  | arguments {stem : String} : a.modelStem = some stem → NamesModel a config stem (a.tree.getD stem)
  | config {names : String} : a.modelStem = none → config.names = some names →
      NamesModel a config names ((a.tree <|> config.tree).getD names)

section Stems

variable {a : Arguments} {config : Config} {names tree : String}

end Stems

/-! ### The files of the model -/

/-- The model that the files with the stems hold. -/
inductive Loads (files : Files) (config : Config) (names tree : String) : Model → Prop
  | intro {namesFile treeFile : SourceFile} {origin schema : Schema} {unknown : List String}
      {t : DecisionTree} : FileReader.Gives files.read (stemPath names "names") namesFile →
      Names.parse namesFile = .ok origin →
      config.applyBindings origin = some (schema, unknown) →
      FileReader.Gives files.read (stemPath tree "tree") treeFile →
      TreeFile.parse schema treeFile = .ok t → Loads files config names tree ⟨schema, t, unknown⟩

/-- One of the files cannot be read, or is not well-formed. -/
inductive BadModel (files : Files) (config : Config) (names tree : String) : Prop
  | namesUnread {reason : ReadError} : files.read (stemPath names "names") = .error reason →
      BadModel files config names tree
  | namesRefused {namesFile : SourceFile} {e : ParseError} :
      FileReader.Gives files.read (stemPath names "names") namesFile →
      Names.parse namesFile = .error e → BadModel files config names tree
  | treeUnread {namesFile : SourceFile} {origin : Schema} {reason : ReadError} :
      FileReader.Gives files.read (stemPath names "names") namesFile →
      Names.parse namesFile = .ok origin → files.read (stemPath tree "tree") = .error reason →
      BadModel files config names tree
  | treeRefused {namesFile treeFile : SourceFile} {origin schema : Schema} {unknown : List String}
      {e : ParseError} : FileReader.Gives files.read (stemPath names "names") namesFile →
      Names.parse namesFile = .ok origin →
      config.applyBindings origin = some (schema, unknown) →
      FileReader.Gives files.read (stemPath tree "tree") treeFile →
      TreeFile.parse schema treeFile = .error e → BadModel files config names tree

section Models

variable {files : Files} {config : Config} {names tree : String} {m : Model}

theorem Loads.wellFormed (h : Loads files config names tree m) :
    m.schema.WellFormed ∧ m.tree.WellFormed m.schema := by
  obtain ⟨-, horigin, hbind, -, hparse⟩ := h
  have hschema := (Config.rebound_of_applyBindings hbind).wellFormed
    (Names.built_of_parse horigin).wellFormed
  exact ⟨hschema, TreeFile.wellFormed_of_parse hschema hparse⟩

end Models

end CommandLine

end DecisionModel
