import DecisionModel.Proofs.CommandLine.Source
import DecisionModel.Proofs.Schema.Codes
import DecisionModel.Proofs.TreeFile.Slots

/-!
# How runs end

A run of a command ends in one of eight ways: with a fault of its configuration, its model, its
pairs or the evaluation, in this order, or with what it was asked for.  Each way has an exit
status, and whatever the command prints it prints at the end: a run that is at fault prints
nothing, and says what the fault is.
-/

namespace DecisionModel.CommandLine

/-! ### Endings -/

inductive Ending where
  /-- The configuration cannot be read. -/
  | badConfig
  /-- Neither the arguments nor the configuration name a model. -/
  | noModel
  /-- A file of the model cannot be read. -/
  | badModel
  /-- An argument assigns no value to an attribute. -/
  | badPair
  /-- The evaluation comes to no decision. -/
  | undecided
  /-- The model is counted or shown. -/
  | shown
  /-- The decision attribute has the value with this name. -/
  | decided (attr value : String)
  /-- The decision sets the stream to this state. -/
  | playing (state : PlaybackState)
  deriving DecidableEq, Repr

namespace Ending

/-- The exit status. -/
def code : Ending → Nat
  | .badConfig | .noModel | .badPair => 2
  | .badModel | .undecided => 1
  | .shown | .decided _ _ | .playing _ => 0

/-- What stands on standard output. -/
def Prints : Ending → String → Prop
  | .shown, text => text ≠ ""
  | .decided attr value, text => text = s!"{attr} = {value}\n"
  | .playing state, text => text = state.name ++ "\n"
  | _, text => text = ""

end Ending

/-- How the evaluation of a model on the record of some pairs ends.  Where no branch matches, the
    playback stops. -/
inductive EvaluationEndsAs (m : Model) (options : EvalOptions) (playback : Bool)
    (pairs : List String) : Ending → Prop
  | badPair {pair : String} : pair ∈ pairs → (∀ a value, ¬ Assigns m.schema pair a value) →
      EvaluationEndsAs m options playback pairs .badPair
  | undecided {assigned : List (Attribute × Value)} {e : EvalError} :
      AssignAll m.schema pairs assigned →
      m.tree.evaluate options (assignedRecord assigned) = .error e →
      ¬ (playback = true ∧ e = .noMatch) →
      EvaluationEndsAs m options playback pairs .undecided
  | stopped {assigned : List (Attribute × Value)} : AssignAll m.schema pairs assigned →
      m.tree.evaluate options (assignedRecord assigned) = .error .noMatch → playback = true →
      EvaluationEndsAs m options playback pairs (.playing .stop)
  | decided {assigned : List (Attribute × Value)} {value : String} {code : Int} :
      AssignAll m.schema pairs assigned →
      m.tree.evaluate options (assignedRecord assigned) = .ok ⟨.integer code, .integer⟩ →
      (value, code) ∈ m.schema.decisionAttribute.values → playback = false →
      EvaluationEndsAs m options playback pairs (.decided m.schema.decisionAttribute.name value)
  | playing {assigned : List (Attribute × Value)} {code : Int} :
      AssignAll m.schema pairs assigned →
      m.tree.evaluate options (assignedRecord assigned) = .ok ⟨.integer code, .integer⟩ →
      playback = true →
      EvaluationEndsAs m options playback pairs (.playing (.ofCode code))

/-- How a run ends, by the first fault that there is. -/
inductive EndsAs (files : Files) (a : Arguments) : Ending → Prop
  | badConfig : BadConfig files a → EndsAs files a .badConfig
  | noModel {config : Config} : Configured files a config →
      (∀ names tree, ¬ NamesModel a config names tree) → EndsAs files a .noModel
  | badModel {config : Config} {names tree : String} : Configured files a config →
      NamesModel a config names tree → BadModel files config names tree → EndsAs files a .badModel
  | shown {config : Config} {names tree : String} {m : Model} : Configured files a config →
      NamesModel a config names tree → Loads files config names tree m → a.command ≠ .eval →
      EndsAs files a .shown
  | evaluation {config : Config} {names tree : String} {m : Model} {ending : Ending} :
      Configured files a config → NamesModel a config names tree →
      Loads files config names tree m → a.command = .eval →
      EvaluationEndsAs m config.evaluation a.playback a.pairs ending → EndsAs files a ending

/-! ### Outcomes -/

/-- The outcome has the exit status of the ending, and prints what belongs to it. -/
structure Outcome.Shows (o : Outcome) (ending : Ending) : Prop where
  code_eq : o.code = ending.code
  stdout : ending.Prints o.stdout
  stderr : ending.code ≠ 0 → o.stderr ≠ ""

namespace Outcome.Shows

variable {o : Outcome} {ending : Ending}

theorem failure {code : Nat} (hcode : code = ending.code) (hfails : code ≠ 0) {text : String}
    (htext : text ≠ "") : (Outcome.failure code text).Shows ending where
  code_eq := hcode
  stdout := by
    cases ending with
    | badConfig | noModel | badModel | badPair | undecided => rfl
    | shown | decided | playing => exact absurd hcode hfails
  stderr := fun _ => htext

theorem success (hsucceeds : ending.code = 0) {text : String} (htext : ending.Prints text) :
    (Outcome.success text).Shows ending where
  code_eq := hsucceeds.symm
  stdout := htext
  stderr := fun hfails => absurd hsucceeds hfails

theorem after (h : o.Shows ending) (warnings : String) : (o.after warnings).Shows ending where
  code_eq := h.code_eq
  stdout := h.stdout
  stderr := fun hfails => append_ne_empty warnings (h.stderr hfails)

end Outcome.Shows

section Evaluation

variable {m : Model} {options : EvalOptions} {playback : Bool} {pairs : List String}

end Evaluation

/-! ### Models -/

section Models

variable {files : Files} {a : Arguments} {config : Config} {names tree : String}

/-- What a command does with its model. -/
def Arguments.answer (a : Arguments) (config : Config) (m : Model) : Outcome :=
  match a.command with
  | .check => check m
  | .print => print m a.showSchema
  | .eval => eval m config.evaluation a.playback a.pairs

end Models

/-! ### Runs -/

def countAttribute : Attribute :=
  ⟨"count", ⟨2⟩, .enumerated, .index 0, [("low", 0), ("mid", 1), ("high", 2)]⟩

end DecisionModel.CommandLine
