import DecisionModel.CommandLine.Arguments
import DecisionModel.Model
import DecisionModel.Playback
import DecisionModel.Schema.Display
import DecisionModel.Tree.Display
import DecisionModel.Tree.Stats

/-!
# Commands

`check` loads a model and counts its parts, `print` shows it, and `eval` decides a record
given as pairs of attribute and value.  The exit status is 1 for models that cannot be
loaded and records that cannot be decided, and 2 for bad arguments and configurations.
Nothing is printed before a failure.
-/

namespace DecisionModel.CommandLine

/-- The configuration that is read if there is one and no other is asked for. -/
def configFileName : String := "dtree.toml"

def version : String := "0.1.0"

/-- How a run ends, and what it prints. -/
structure Outcome where
  code : Nat
  stdout : String
  stderr : String
  /-- The files of the model that was loaded, for reports of errors in the program. -/
  modelFiles : Option String
  deriving DecidableEq, Repr

namespace Outcome

def success (text : String) : Outcome := ⟨0, text, "", none⟩

def failure (code : Nat) (text : String) : Outcome := ⟨code, "", text, none⟩

def after (o : Outcome) (warnings : String) : Outcome :=
  { o with stderr := warnings ++ o.stderr }

def bugReport (modelFiles : Option String) : String :=
  let what := match modelFiles with
    | some files => s!"{files}, which triggered it"
    | none => "the command you ran"
  s!"\nYou've hit an internal error in dtree {version}. " ++
    "This is a bug in dtree, not in your model files.\n" ++
    s!"\nIf you would, please report it along with {what}.\n"

/-- The outcome if nothing can be written to standard output: with anything to print the
    run breaks off with a bug report. -/
def withoutStdout (o : Outcome) : Outcome :=
  if o.stdout.isEmpty then o else ⟨101, "", bugReport o.modelFiles, o.modelFiles⟩

end Outcome

/-! ### The configuration -/

def configPath? (files : Files) (a : Arguments) : Option String :=
  a.config <|> (if files.isFile configFileName then some configFileName else none)

/-- The configuration at a path, with what is said of it, or what is said if there is
    none.  Stems count from the directory of the file. -/
def readConfig (files : Files) (path : String) : Except String (Config × String) :=
  match files.read path with
  | .error e => .error s!"error: failed to read `{path}`: {e.message}\n"
  | .ok content =>
    match Config.parse content with
    | none => .error s!"error: invalid TOML in `{path}`: TOML parse error\n"
    | some config =>
      let config := match Path.parent? path with
        | some base => config.resolvePaths base
        | none => config
      let warnings := match config.formattedDiagnostics with
        | some d => s!"warning: ignoring parts of `{path}`:\n{d}\n"
        | none => ""
      .ok (config, warnings)

def loadConfig (files : Files) (a : Arguments) : Except String (Config × String) :=
  match configPath? files a with
  | some path => readConfig files path
  | none => .ok (.empty, "")

/-! ### The model -/

def stems? (stem tree : Option String) (config : Config) : Option (String × Option String) :=
  match stem, config.names with
  | some stem, _ => some (stem, tree)
  | none, some names => some (names, tree <|> config.treeStem)
  | none, none => none

def modelFiles (names : String) (tree : Option String) : String :=
  s!"`{names}.names` and `{tree.getD names}.tree`"

def withModel (files : Files) (stem tree : Option String) (config : Config)
    (next : Model → Outcome) : Outcome :=
  match stems? stem tree config with
  | none =>
    .failure 2 s!"error: no model given; pass a stem or set `model.names` in {configFileName}\n"
  | some (names, tree) =>
    let outcome : Outcome := match Loader.new.loadModel files.read names tree config with
      | (.error e, loader) => .failure 1 (loader.render e)
      | (.ok model, _) =>
        let warnings := String.join (model.unknownBindings.map fun name =>
          s!"warning: `{name}` is bound but not defined in {names}\n")
        (next model).after warnings
    { outcome with modelFiles := some (modelFiles names tree) }

/-! ### check and print -/

def check (m : Model) : Outcome :=
  let stats := m.tree.stats
  .success (s!"ok: {m.schema.size} attributes, {stats.tests} test nodes, " ++
    s!"{stats.terminals} terminals, depth {stats.depth}\n")

def print (m : Model) (showSchema : Bool) : Outcome :=
  .success ((if showSchema then m.schema.display ++ "\n" else "") ++ m.tree.display m.schema)

/-! ### eval -/

/-- An argument up to its first equals sign and behind it. -/
def splitPair? (arg : String) : Option (String × String) :=
  match arg.toList.span (· != '=') with
  | (_, []) => none
  | (name, _ :: value) => some (String.ofList name, String.ofList value)

inductive PairError where
  | noPair (arg : String)
  | unknownAttribute (name : String)
  | unknownValue (value name : String)
  | notNumber (value name : String)
  deriving DecidableEq, Repr

def PairError.message : PairError → String
  | .noPair arg => s!"expected `attribute=value`, found `{arg}`"
  | .unknownAttribute name => s!"unknown attribute `{name}`"
  | .unknownValue value name => s!"`{value}` is not a value of `{name}`"
  | .notNumber value name => s!"`{value}` is not a number, as `{name}` is continuous"

def readPair (schema : Schema) (arg : String) : Except PairError (Attribute × Value) :=
  match splitPair? arg with
  | none => .error (.noPair arg)
  | some (name, value) =>
    match schema.attribute? name with
    | none => .error (.unknownAttribute name)
    | some a =>
      if a.isEnumerated then
        match a.codeOf? value with
        | some code => .ok (a, .integer code)
        | none => .error (.unknownValue value name)
      else
        match Double.ofText? value with
        | some x => .ok (a, .floating x)
        | none => .error (.notNumber value name)

/-- The length of a record that has room for every slot of the schema. -/
def recordWidth (schema : Schema) : Nat :=
  schema.attributes.foldl (fun width a =>
    match a.slot with
    | .index n => max width (n + 1)
    | .unbound => width) 0

structure RecordBuild where
  values : List (Option Value)
  warnings : String
  deriving DecidableEq, Repr

/-- The record with one more pair; the value of an attribute without a slot is dropped. -/
def addPair (schema : Schema) (r : RecordBuild) (arg : String) : Except PairError RecordBuild :=
  match readPair schema arg with
  | .error e => .error e
  | .ok (a, value) =>
    match a.slot with
    | .index n => .ok { r with values := r.values.set n (some value) }
    | .unbound =>
      .ok { r with warnings :=
        r.warnings ++ s!"warning: `{a.name}` has no slot binding, ignoring its value\n" }

def addPairs (schema : Schema) (r : RecordBuild) : List String → RecordBuild × Option PairError
  | [] => (r, none)
  | arg :: rest =>
    match addPair schema r arg with
    | .ok r => addPairs schema r rest
    | .error e => (r, some e)

def buildRecord (schema : Schema) (args : List String) : RecordBuild × Option PairError :=
  addPairs schema ⟨List.replicate (recordWidth schema) none, ""⟩ args

def evalFailure (schema : Schema) : EvalError → String
  | .unboundSlot id =>
    let name := ((schema.attributeById? id).map (·.name)).getD "?"
    s!"error: attribute `{name}` is tested but has no slot binding\n"
  | e => s!"error: {e.message}\n"

/-- The decision of a record, by name where its code has one. -/
def decisionText (schema : Schema) (d : Decision) : String :=
  let a := schema.decisionAttribute
  let label := match d.code?.bind a.nameOf? with
    | some name => name
    | none => d.value.display
  s!"{a.name} = {label}\n"

def report (schema : Schema) (playback : Bool) (result : Except EvalError Decision) : Outcome :=
  if playback then
    match (DecisionPolicy.new.playback result).1 with
    | .ok state => .success (state.name ++ "\n")
    | .error e => .failure 1 (evalFailure schema e)
  else
    match result with
    | .ok d => .success (decisionText schema d)
    | .error e => .failure 1 (evalFailure schema e)

def eval (m : Model) (options : EvalOptions) (playback : Bool) (args : List String) : Outcome :=
  let (record, fault) := buildRecord m.schema args
  let outcome : Outcome := match fault with
    | some e => .failure 2 s!"error: {e.message}\n"
    | none => report m.schema playback (m.tree.evaluate options (.sparse record.values))
  outcome.after record.warnings

/-- The stem and the pairs of `eval`.  Where the configuration names the model, the first
    pair stands in the place of the stem. -/
def evalStem (a : Arguments) : Option String × List String :=
  match a.stem with
  | some stem => if stem.toList.contains '=' then (none, stem :: a.values) else (some stem, a.values)
  | none => (none, a.values)

/-! ### Runs -/

def runCommand (files : Files) (a : Arguments) (config : Config) : Outcome :=
  match a.command with
  | .check => withModel files a.stem a.tree config check
  | .print => withModel files a.stem a.tree config (print · a.showSchema)
  | .eval =>
    let (stem, values) := evalStem a
    withModel files stem a.tree config (eval · config.evaluation a.playback values)

/-- The paths of the files that a command reads besides its configuration. -/
def modelPaths (a : Arguments) (config : Config) : List String :=
  let stem := if a.command = .eval then (evalStem a).1 else a.stem
  match stems? stem a.tree config with
  | none => []
  | some (names, tree) => [stemPath names "names", stemPath (tree.getD names) "tree"]

def run (files : Files) (request : Request) : Outcome :=
  match request with
  | .version => .success s!"dtree {version}\n"
  | .run a =>
    match loadConfig files a with
    | .error text => .failure 2 text
    | .ok (config, warnings) => (runCommand files a config).after warnings

/-- Runs the program where nothing can be written to standard output.  That the version
    cannot be printed does not matter. -/
def runWithoutStdout (files : Files) (request : Request) : Outcome :=
  match request with
  | .version => .success ""
  | .run _ => (run files request).withoutStdout

end DecisionModel.CommandLine
