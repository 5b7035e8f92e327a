import DecisionModel.Config
import DecisionModel.Diagnostic.Snippet
import DecisionModel.Files.Basic
import DecisionModel.Names.Parser
import DecisionModel.Source.Store
import DecisionModel.TreeFile.Parser

/-!
# Models

A model is a schema with a tree over it, read from a pair of files.  The loader keeps the
text of every file it has read, so that errors can be shown with the lines they are about.
-/

namespace DecisionModel

abbrev FileReader := String → Except ReadError String

inductive LoadError where
  | io (path : String) (reason : ReadError)
  | parse (path : String) (file : FileId) (error : ParseError)
  /-- A binding to a slot that cannot be; no configuration that was read has one. -/
  | slot
  deriving DecidableEq, Repr

namespace LoadError

def message : LoadError → String
  | .io path reason => s!"failed to read `{path}`: {reason.message}"
  | .parse path _ error => s!"{path}: {error.summary}"
  | .slot => Slot.outOfRange

def path : LoadError → String
  | .io path _ => path
  | .parse path _ _ => path
  | .slot => ""

def line? : LoadError → Option Nat
  | .parse _ _ error => some error.line
  | _ => none

end LoadError

/-- The path of a file of the model with the given stem, whatever extension the stem has. -/
def stemPath (stem extension : String) : String := stem ++ "." ++ extension

structure Model where
  schema : Schema
  tree : DecisionTree
  /-- The names that are bound to slots but not defined. -/
  unknownBindings : List String
  deriving DecidableEq, Repr

structure Loader where
  files : FileStore
  deriving DecidableEq, Repr

namespace Loader

def new : Loader := ⟨.empty⟩

/-- Reads a file and parses the one that the store has under its name from then on. -/
def load {α : Type} (l : Loader) (reader : FileReader) (path : String)
    (parse : SourceFile → Except ParseError α) : Except LoadError α × Loader :=
  match reader path with
  | .error reason => (.error (.io path reason), l)
  | .ok content =>
    let file : SourceFile := ⟨path, content⟩
    let added := l.files.add file
    let parsed := added.2.file added.1 (l.files.has_add file)
    ((parse parsed).mapError (.parse path added.1), ⟨added.2⟩)

def loadSchema (l : Loader) (reader : FileReader) (stem : String) :
    Except LoadError Schema × Loader :=
  l.load reader (stemPath stem "names") Names.parse

def loadTree (l : Loader) (reader : FileReader) (schema : Schema) (stem : String) :
    Except LoadError DecisionTree × Loader :=
  l.load reader (stemPath stem "tree") (TreeFile.parse schema)

/-- Reads a model whose tree may have a stem of its own. -/
def loadModel (l : Loader) (reader : FileReader) (names : String) (tree : Option String)
    (config : Config) : Except LoadError Model × Loader :=
  match l.loadSchema reader names with
  | (.error e, l) => (.error e, l)
  | (.ok schema, l) =>
    match config.applyBindings schema with
    | none => (.error .slot, l)
    | some (schema, unknown) =>
      match l.loadTree reader schema (tree.getD names) with
      | (.error e, l) => (.error e, l)
      | (.ok tree, l) => (.ok ⟨schema, tree, unknown⟩, l)

def render (l : Loader) (e : LoadError) : String :=
  match e with
  | .parse _ id error =>
    match l.files.get? id with
    | some file => error.diagnostic.render file
    | none => s!"error: {e.message}\n"
  | _ => s!"error: {e.message}\n"

end Loader

end DecisionModel
