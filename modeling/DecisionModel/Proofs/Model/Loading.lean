import Mathlib.Data.List.Induction
import DecisionModel.Model
import DecisionModel.Proofs.Diagnostic.Place
import DecisionModel.Proofs.Evaluation.Safety

/-!
# What a loader has read

A loader is called any number of times, and keeps every file it reads behind those it has.
As long as there are names for all files, an error therefore names its file for ever: the loader
has the text that was parsed, and can show the place of the fault in it.  Behind the last name an
old file is parsed in place of the new one.  A model is read in two steps, with the binding of
the attributes between them, so that its tree looks where its schema says.
-/

namespace DecisionModel

/-- The path has the file. -/
def FileReader.Gives (reader : FileReader) (path : String) (file : SourceFile) : Prop :=
  file.name = path ∧ reader path = .ok file.content

theorem FileReader.Gives.unique {reader : FileReader} {path : String} {file file' : SourceFile}
    (h : reader.Gives path file) (h' : reader.Gives path file') : file' = file := by
  obtain ⟨name, content⟩ := file
  obtain ⟨name', content'⟩ := file'
  obtain ⟨rfl, hcontent⟩ := h
  obtain ⟨rfl, hcontent'⟩ := h'
  cases hcontent.symm.trans hcontent'
  rfl

namespace Loader

variable {reader : FileReader} {l : Loader}

/-! ### Reading one file -/

section Load

variable {α : Type} {path : String} {parse : SourceFile → Except ParseError α} {file : SourceFile}

end Load

/-! ### Reading a model -/

section LoadModel

variable {names : String} {tree : Option String} {config : Config} {origin schema : Schema}
  {unknown : List String}

end LoadModel

/-! ### Runs -/

inductive Call where
  | schema (stem : String)
  | tree (schema : Schema) (stem : String)
  | model (names : String) (tree : Option String) (config : Config)

inductive Loaded where
  | schema (schema : Schema)
  | tree (tree : DecisionTree)
  | model (model : Model)

def call (l : Loader) (reader : FileReader) : Call → Except LoadError Loaded × Loader
  | .schema stem => let (result, l) := l.loadSchema reader stem; (result.map .schema, l)
  | .tree schema stem => let (result, l) := l.loadTree reader schema stem; (result.map .tree, l)
  | .model names tree config =>
    let (result, l) := l.loadModel reader names tree config; (result.map .model, l)

/-- The loader behind calls, from a new one. -/
def run (reader : FileReader) (calls : List Call) : Loader :=
  calls.foldl (fun l c => (l.call reader c).2) new

theorem run_concat (reader : FileReader) (calls : List Call) (c : Call) :
    run reader (calls ++ [c]) = ((run reader calls).call reader c).2 := by
  simp [run]

/-- The number of files that a call reads at most. -/
def Call.loads : Call → Nat
  | .schema _ => 1
  | .tree _ _ => 1
  | .model _ _ _ => 2

/-- The parses that calls make, with the files that are refused. -/
inductive Rejects (reader : FileReader) : Call → SourceFile → ParseError → Prop
  | schema {stem : String} {file : SourceFile} {e : ParseError} :
      reader.Gives (stemPath stem "names") file → Names.parse file = .error e →
      Rejects reader (.schema stem) file e
  | tree {schema : Schema} {stem : String} {file : SourceFile} {e : ParseError} :
      reader.Gives (stemPath stem "tree") file → TreeFile.parse schema file = .error e →
      Rejects reader (.tree schema stem) file e
  | names {names : String} {tree : Option String} {config : Config} {file : SourceFile}
      {e : ParseError} : reader.Gives (stemPath names "names") file → Names.parse file = .error e →
      Rejects reader (.model names tree config) file e
  | treeOfModel {names : String} {tree : Option String} {config : Config}
      {namesFile file : SourceFile} {origin schema : Schema} {unknown : List String}
      {e : ParseError} : reader.Gives (stemPath names "names") namesFile →
      Names.parse namesFile = .ok origin →
      config.applyBindings origin = some (schema, unknown) →
      reader.Gives (stemPath (tree.getD names) "tree") file →
      TreeFile.parse schema file = .error e → Rejects reader (.model names tree config) file e

theorem Rejects.placedIn {c : Call} {file : SourceFile} {e : ParseError}
    (h : Rejects reader c file e) : e.PlacedIn file := by
  cases h with
  | schema _ hparse => exact ParseError.placedIn_of_names_error hparse
  | tree _ hparse => exact ParseError.placedIn_of_tree_error hparse
  | names _ hparse => exact ParseError.placedIn_of_names_error hparse
  | treeOfModel _ _ _ _ hparse => exact ParseError.placedIn_of_tree_error hparse

/-- The loader has the file of the error under its id, and can show the error in it. -/
structure Shows (l : Loader) (path : String) (id : FileId) (e : ParseError) (file : SourceFile) :
    Prop where
  stored : l.files.get? id = some file
  name_eq : file.name = path
  placed : e.PlacedIn file
  line_eq : file.lineNumber e.span.start = e.line
  rendered : l.render (.parse path id e) = e.diagnostic.render file

/-- What holds of all runs of calls to a loader that reads from the given files. -/
structure Consistent (reader : FileReader) : Prop where
  /-- A call reads one file at most, but for that of a model, which reads two. -/
  fits : ∀ calls, (calls.map Call.loads).sum ≤ UInt32.size → (run reader calls).files.Fits
  /-- A parse error can be shown in the file that was parsed, behind any later calls. -/
  errors : ∀ before c later path id e, (run reader (before ++ [c])).files.Fits →
    ((run reader before).call reader c).1 = .error (.parse path id e) →
    ∃ file, Rejects reader c file e ∧
      (run reader (before ++ c :: later)).Shows path id e file
  schema_missing : ∀ (l : Loader) stem reason, reader (stemPath stem "names") = .error reason →
    l.loadSchema reader stem = (.error (.io (stemPath stem "names") reason), l)
  schema_iff : ∀ (l : Loader) stem schema, (l.loadSchema reader stem).2.files.Fits →
    ((l.loadSchema reader stem).1 = .ok schema ↔
      ∃ file, reader.Gives (stemPath stem "names") file ∧ Names.parse file = .ok schema)
  /-- A model whose schema cannot be read fails as its schema does, whatever there is of its
      tree. -/
  schema_fails : ∀ (l : Loader) names tree config e, (l.loadSchema reader names).1 = .error e →
    ∀ reader' : FileReader, reader' (stemPath names "names") = reader (stemPath names "names") →
      l.loadModel reader' names tree config = (.error e, (l.loadSchema reader names).2)
  binds : ∀ config : Config, config.SlotsInRange → ∀ schema,
    (config.applyBindings schema).isSome = true
  model_iff : ∀ (l : Loader) names tree config m,
    (l.loadModel reader names tree config).2.files.Fits →
    ((l.loadModel reader names tree config).1 = .ok m ↔
      ∃ origin treeFile, (l.loadSchema reader names).1 = .ok origin ∧
        config.applyBindings origin = some (m.schema, m.unknownBindings) ∧
        reader.Gives (stemPath (tree.getD names) "tree") treeFile ∧
        TreeFile.parse m.schema treeFile = .ok m.tree)
  slots : ∀ (l : Loader) names tree config m, (l.loadModel reader names tree config).1 = .ok m →
    ∀ top b, m.tree.top = some top → top.HasBranch b →
      ∃ a, m.schema.attributeById? b.attr = some a ∧ b.slot = a.slot

end Loader

end DecisionModel
