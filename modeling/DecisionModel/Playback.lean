import DecisionModel.Evaluation

/-!
# Stream decisions

Trees that control a media stream decide one of four states, each of which stops, pauses
or plays the stream.  A policy turns a run of evaluations into codes: where no branch
matches it keeps the code of the last decision, and other failures leave it as it is.
-/

namespace DecisionModel

inductive PlaybackState where
  | stop
  | pause
  | play
  deriving DecidableEq, Repr

def PlaybackState.name : PlaybackState → String
  | .stop => "stop"
  | .pause => "pause"
  | .play => "play"

inductive StreamDecision where
  | teardown
  | disconnected
  | connected
  | suspended
  deriving DecidableEq, Repr

namespace StreamDecision

def name : StreamDecision → String
  | .teardown => "teardown"
  | .disconnected => "disconnected"
  | .connected => "connected"
  | .suspended => "suspended"

def code : StreamDecision → Int
  | .teardown => 0
  | .disconnected => 1
  | .connected => 2
  | .suspended => 3

def ofCode? : Int → Option StreamDecision
  | 0 => some .teardown
  | 1 => some .disconnected
  | 2 => some .connected
  | 3 => some .suspended
  | _ => none

def invalidCode (code : Int) : String := s!"{code} is not a stream decision code"

def playback : StreamDecision → PlaybackState
  | .teardown | .disconnected => .stop
  | .connected => .play
  | .suspended => .pause

end StreamDecision

/-- The state that a decision code sets; a code that no decision has stops the stream. -/
def PlaybackState.ofCode (code : Int) : PlaybackState :=
  match StreamDecision.ofCode? code with
  | some d => d.playback
  | none => .stop

/-- A policy remembers the code it gave last. -/
structure DecisionPolicy where
  previous : Option Int
  deriving DecidableEq, Repr

namespace DecisionPolicy

def new : DecisionPolicy := ⟨none⟩

def apply (p : DecisionPolicy) (result : Except EvalError Decision) :
    Except EvalError Int × DecisionPolicy :=
  match result with
  | .ok d =>
    let code := d.code?.getD 0
    (.ok code, ⟨some code⟩)
  | .error .noMatch =>
    let code := p.previous.getD 0
    (.ok code, ⟨some code⟩)
  | .error e => (.error e, p)

def playback (p : DecisionPolicy) (result : Except EvalError Decision) :
    Except EvalError PlaybackState × DecisionPolicy :=
  let (code, p) := p.apply result
  (code.map PlaybackState.ofCode, p)

end DecisionPolicy

end DecisionModel
