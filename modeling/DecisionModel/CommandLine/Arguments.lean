/-!
# Arguments

    [--config P] check|print|eval [STEM] [--tree STEM]
    print --schema
    eval [--playback] [ATTRIBUTE=VALUE...]

Options may come anywhere, with their value in the next argument or behind an equals
sign.  In front of the command `--version` and `-V` ask for the version, and what else
stands in the argument behind `-V` is not looked at.  Two dashes end the options: what follows is taken as it is.  An option may be given
once, but `--config` may be given again behind the command, and then the second counts.
-/

namespace DecisionModel.CommandLine

inductive CommandName where
  | check
  | print
  | eval
  deriving DecidableEq, Repr

def CommandName.ofText? : String → Option CommandName
  | "check" => some .check
  | "print" => some .print
  | "eval" => some .eval
  | _ => none

structure Arguments where
  config : Option String
  command : CommandName
  stem : Option String
  tree : Option String
  /-- Whether the schema is printed too. -/
  showSchema : Bool
  /-- Whether the playback state is reported instead of the decision. -/
  playback : Bool
  values : List String
  deriving DecidableEq, Repr

inductive Request where
  | version
  | run (arguments : Arguments)
  deriving DecidableEq, Repr

def isOption (arg : String) : Bool := "-".isPrefixOf arg && arg != "-"

def splitOption (arg : String) : String × Option String :=
  match arg.toList.span (· != '=') with
  | (_, []) => (arg, none)
  | (name, _ :: value) => (String.ofList name, some (String.ofList value))

/-- The value of an option, and the arguments behind it. -/
def optionValue? (inline : Option String) (rest : List String) :
    Option (String × { r : List String // r.length ≤ rest.length }) :=
  match inline, rest with
  | some value, rest => some (value, ⟨rest, Nat.le_refl _⟩)
  | none, [] => none
  | none, value :: rest => if isOption value then none else some (value, ⟨rest, by simp⟩)

/-! ### Behind the command -/

def Arguments.addPositional (a : Arguments) (arg : String) : Option Arguments :=
  match a.stem, a.command with
  | none, _ => some { a with stem := some arg }
  | some _, .eval => some { a with values := a.values ++ [arg] }
  | some _, _ => none

def Arguments.addPositionals (a : Arguments) (args : List String) : Option Arguments :=
  args.foldlM Arguments.addPositional a

def readArguments (a : Arguments) : List String → Option Arguments
  | [] => some a
  | arg :: rest =>
    if arg = "--" then a.addPositionals rest
    else if isOption arg then
      match splitOption arg with
      | ("--config", inline) =>
        if a.config.isSome then none
        else match optionValue? inline rest with
          | none => none
          | some (value, ⟨after, _⟩) => readArguments { a with config := some value } after
      | ("--tree", inline) =>
        if a.tree.isSome then none
        else match optionValue? inline rest with
          | none => none
          | some (value, ⟨after, _⟩) => readArguments { a with tree := some value } after
      | ("--schema", none) =>
        if a.command = .print ∧ a.showSchema = false then
          readArguments { a with showSchema := true } rest
        else none
      | ("--playback", none) =>
        if a.command = .eval ∧ a.playback = false then
          readArguments { a with playback := true } rest
        else none
      | _ => none
    else
      match a.addPositional arg with
      | none => none
      | some a => readArguments a rest
termination_by args => args.length
decreasing_by all_goals simp only [List.length_cons]; omega

/-! ### In front of the command -/

/-- Reads all arguments; `none` stands for arguments that do not make sense. -/
def readRequest (config : Option String) : List String → Option Request
  | [] => none
  | arg :: rest =>
    if "-V".isPrefixOf arg then some .version
    else if isOption arg then
      match splitOption arg with
      | ("--config", inline) =>
        if config.isSome then none
        else match optionValue? inline rest with
          | none => none
          | some (value, ⟨after, _⟩) => readRequest (some value) after
      | ("--version", none) => some .version
      | _ => none
    else
      match CommandName.ofText? arg with
      | none => none
      | some command => do
        let a ← readArguments ⟨none, command, none, none, false, false, []⟩ rest
        some (.run { a with config := a.config <|> config })
termination_by args => args.length
decreasing_by all_goals simp only [List.length_cons]; omega

def Request.parse (args : List String) : Option Request := readRequest none args

end DecisionModel.CommandLine
