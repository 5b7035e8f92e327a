import DecisionModel.CommandLine.Run

/-!
# The program

Reads the files that a run needs, and writes what it prints.
-/

namespace DecisionModel.CommandLine

def usage : String :=
  "usage: dtree [--config P] check|print|eval [STEM] [--tree STEM]\n" ++
    "       dtree print --schema [STEM]\n" ++
    "       dtree eval [--playback] [STEM] [ATTRIBUTE=VALUE...]\n"

def readText (path : String) : IO (Except ReadError String) := do
  try
    let place ← IO.FS.realPath path
    if (← place.metadata).type == .dir then return .error .isDirectory
    match String.fromUTF8? (← IO.FS.readBinFile place) with
    | some content => return .ok content
    | none => return .error .notText
  catch e =>
    match e with
    | .noFileOrDirectory .. => return .error .notFound
    | e => return .error (.other (toString e))

def readAll (paths : List String) : IO Files := do
  return .ofList (← paths.mapM fun path => do return (path, ← readText path))

def requestFiles : Request → IO Files
  | .version => readAll []
  | .run a => do
    let configPath := a.config.getD configFileName
    let files ← readAll [configPath]
    match loadConfig files a with
    | .error _ => return files
    | .ok (config, _) => readAll (configPath :: modelPaths a config)

end DecisionModel.CommandLine

open DecisionModel.CommandLine in
def main (args : List String) : IO UInt32 := do
  match Request.parse args with
  | none =>
    IO.eprint usage
    return 2
  | some request =>
    let outcome := run (← requestFiles request) request
    IO.eprint outcome.stderr
    IO.print outcome.stdout
    return outcome.code.toUInt32
