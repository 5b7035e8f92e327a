import Mathlib.Data.List.Induction
import DecisionModel.Playback

/-!
# What a policy remembers

A policy is asked any number of times, for codes or for states of playback.  Where no branch
matches, it answers with the code of the latest decision so far; other failures it hands on, and
forgets nothing.  Whether codes or states are asked for makes no difference to what it remembers.
-/

namespace DecisionModel

/-! ### Playback -/

/-- The decisions of a stream: the code of each, and what it does to the stream. -/
inductive StreamDecision.Sets : StreamDecision → Int → PlaybackState → Prop
  | teardown : Sets .teardown 0 .stop
  | disconnected : Sets .disconnected 1 .stop
  | connected : Sets .connected 2 .play
  | suspended : Sets .suspended 3 .pause

theorem StreamDecision.sets_iff {d : StreamDecision} {code : Int} {state : PlaybackState} :
    Sets d code state ↔ d.code = code ∧ d.playback = state := by
  constructor
  · rintro (_ | _ | _ | _)
    · exact ⟨rfl, rfl⟩
    · exact ⟨rfl, rfl⟩
    · exact ⟨rfl, rfl⟩
    · exact ⟨rfl, rfl⟩
  · rintro ⟨rfl, rfl⟩
    cases d with
    | teardown => exact .teardown
    | disconnected => exact .disconnected
    | connected => exact .connected
    | suspended => exact .suspended

theorem PlaybackState.ofCode_code (d : StreamDecision) : ofCode d.code = d.playback := by
  cases d <;> rfl

theorem StreamDecision.ofCode?_eq_none {code : Int} (h : code < 0 ∨ 3 < code) :
    ofCode? code = none := by
  unfold ofCode?
  split
  case h_5 => rfl
  all_goals omega

/-- A code that no decision has stops the stream. -/
theorem PlaybackState.ofCode_of_outside {code : Int} (h : code < 0 ∨ 3 < code) :
    ofCode code = .stop := by
  rw [ofCode, StreamDecision.ofCode?_eq_none h]

namespace DecisionPolicy

/-! ### Runs -/

/-- What a policy is asked, with the result of the evaluation. -/
inductive Call where
  | apply (result : Except EvalError Decision)
  | playback (result : Except EvalError Decision)
  deriving DecidableEq

inductive Answer where
  | code (result : Except EvalError Int)
  | state (result : Except EvalError PlaybackState)
  deriving DecidableEq

namespace Call

def result : Call → Except EvalError Decision
  | .apply result => result
  | .playback result => result

/-- The answer to the call if it comes to the code. -/
def answer (c : Call) (code : Except EvalError Int) : Answer :=
  match c with
  | .apply _ => .code code
  | .playback _ => .state (code.map PlaybackState.ofCode)

end Call

def call (p : DecisionPolicy) : Call → Answer × DecisionPolicy
  | .apply result => let (code, p) := p.apply result; (.code code, p)
  | .playback result => let (state, p) := p.playback result; (.state state, p)

/-- The policy behind calls, from a new one. -/
def run (calls : List Call) : DecisionPolicy := calls.foldl (fun p c => (p.call c).2) new

theorem run_concat (calls : List Call) (c : Call) :
    run (calls ++ [c]) = ((run calls).call c).2 := by
  simp [run]

/-- Both calls come to the code of `apply`, and leave the policy alike. -/
theorem call_eq (p : DecisionPolicy) (c : Call) :
    p.call c = (c.answer (p.apply c.result).1, (p.apply c.result).2) := by
  cases c <;> rfl

/-! ### The codes of a run -/

/-- The code of a decision, where there is one. -/
def decided? (result : Except EvalError Decision) : Option Int :=
  result.toOption.map (·.code?.getD 0)

/-- The code of the latest decision among the results. -/
def latest? (results : List (Except EvalError Decision)) : Option Int :=
  (results.filterMap decided?).getLast?

/-- The code that a result comes to, behind earlier ones. -/
def codeBehind (earlier : List (Except EvalError Decision)) :
    Except EvalError Decision → Except EvalError Int
  | .ok d => .ok (d.code?.getD 0)
  | .error .noMatch => .ok ((latest? earlier).getD 0)
  | .error e => .error e

/-- The codes that results come to, one after the other. -/
def codes (results : List (Except EvalError Decision)) : List (Except EvalError Int) :=
  results.mapIdx fun i result => codeBehind (results.take i) result

theorem codes_concat (earlier : List (Except EvalError Decision))
    (result : Except EvalError Decision) :
    codes (earlier ++ [result]) = codes earlier ++ [codeBehind earlier result] := by
  rw [codes, List.mapIdx_concat, List.take_left, codes]
  congr 1
  rw [List.mapIdx_eq_mapIdx_iff]
  intro i hi
  rw [List.take_append_of_le_length (Nat.le_of_lt hi)]

theorem latest?_append_ok (earlier : List (Except EvalError Decision)) (d : Decision) :
    latest? (earlier ++ [.ok d]) = some (d.code?.getD 0) := by
  simp [latest?, decided?, Except.toOption]

theorem latest?_append_error (earlier : List (Except EvalError Decision)) (e : EvalError) :
    latest? (earlier ++ [.error e]) = latest? earlier := by
  simp [latest?, decided?, Except.toOption]

/-! ### What is remembered -/

/-- The policy has the code of the latest decision for results without one. -/
def Recalls (p : DecisionPolicy) (earlier : List (Except EvalError Decision)) : Prop :=
  p.previous.getD 0 = (latest? earlier).getD 0

theorem Recalls.code {p : DecisionPolicy} {earlier : List (Except EvalError Decision)}
    (h : p.Recalls earlier) (result : Except EvalError Decision) :
    (p.apply result).1 = codeBehind earlier result := by
  rcases result with e | d
  · cases e with
    | noMatch => exact congrArg Except.ok h
    | unattached => rfl
    | unboundSlot attr => rfl
  · rfl

/-- **Every result leaves the code** of the latest decision to recall. -/
theorem Recalls.apply {p : DecisionPolicy} {earlier : List (Except EvalError Decision)}
    (h : p.Recalls earlier) (result : Except EvalError Decision) :
    (p.apply result).2.Recalls (earlier ++ [result]) := by
  unfold Recalls at h ⊢
  rcases result with e | d
  · rw [latest?_append_error, ← h]
    -- Without a match the recalled code is the one that is written, so it stays.
    cases e with
    | noMatch => rfl
    | unattached => rfl
    | unboundSlot attr => rfl
  · rw [latest?_append_ok]
    rfl

theorem recalls_run (calls : List Call) : (run calls).Recalls (calls.map Call.result) := by
  induction calls using List.reverseRecOn with
  | nil => rfl
  | append_singleton calls c ih =>
    rw [run_concat, call_eq, List.map_append]
    exact ih.apply c.result

/-- What is written is the code that is handed out, if there is one. -/
theorem apply_previous (p : DecisionPolicy) (result : Except EvalError Decision) :
    (p.apply result).2.previous = ((p.apply result).1.toOption).or p.previous := by
  rcases result with e | d
  · cases e with
    | noMatch => rfl
    | unattached => rfl
    | unboundSlot attr => rfl
  · rfl

theorem previous_run (calls : List Call) :
    (run calls).previous =
      ((codes (calls.map Call.result)).filterMap Except.toOption).getLast? := by
  induction calls using List.reverseRecOn with
  | nil => rfl
  | append_singleton calls c ih =>
    rw [run_concat, call_eq, apply_previous, ih, (recalls_run calls).code, List.map_append,
      List.map_cons, List.map_nil, codes_concat, List.filterMap_append, List.getLast?_append]
    cases codeBehind (calls.map Call.result) c.result with
    | ok code => rfl
    | error e => rfl

/-- A failure other than a missing match leaves the policy as it is. -/
theorem apply_of_error (p : DecisionPolicy) {e : EvalError} (h : e ≠ .noMatch) :
    p.apply (.error e) = (.error e, p) := by
  cases e with
  | noMatch => exact absurd rfl h
  | unattached => rfl
  | unboundSlot attr => rfl

/-- Only the results count, not what was asked for. -/
theorem run_congr {calls calls' : List Call}
    (h : calls'.map Call.result = calls.map Call.result) : run calls' = run calls := by
  have hrun (calls : List Call) : run calls =
      (calls.map Call.result).foldl (fun p result => (p.apply result).2) new := by
    rw [List.foldl_map]
    exact congrArg (calls.foldl · new) (funext₂ fun p c => congrArg Prod.snd (call_eq p c))
  rw [hrun, hrun, h]

/-- What a policy answers and keeps behind calls to a new one. -/
structure Remembers (calls : List Call) : Prop where
  /-- The next call comes to the code of its decision, or of the latest one. -/
  next : ∀ c, ((run calls).call c).1 = c.answer (codeBehind (calls.map Call.result) c.result)
  failed : ∀ c e, c.result = .error e → e ≠ .noMatch → ((run calls).call c).2 = run calls
  previous : (run calls).previous =
    ((codes (calls.map Call.result)).filterMap Except.toOption).getLast?
  /-- Asking for states in place of codes, or the other way, leaves the same policy. -/
  alike : ∀ calls', calls'.map Call.result = calls.map Call.result → run calls' = run calls

/-- **A policy remembers the latest decision.**  Whatever it was asked before, the next call
    comes to the code of its own decision, or, where nothing matched, of the latest one; the
    policy keeps the last code it gave.  Codes 0 and 1 stop the stream, 2 plays it and 3 pauses
    it, as the decisions with these codes do; a code that no decision has stops it. -/
theorem remembers_run :
    (∀ calls, Remembers calls) ∧
      (∀ d code state, StreamDecision.Sets d code state ↔ d.code = code ∧ d.playback = state) ∧
      (∀ d : StreamDecision, PlaybackState.ofCode d.code = d.playback) ∧
      (PlaybackState.ofCode 0 = .stop ∧ PlaybackState.ofCode 1 = .stop ∧
        PlaybackState.ofCode 2 = .play ∧ PlaybackState.ofCode 3 = .pause) ∧
      ∀ code : Int, code < 0 ∨ 3 < code → PlaybackState.ofCode code = .stop := by
  refine ⟨fun calls => ⟨?_, ?_, previous_run calls, fun _ h => run_congr h⟩,
    fun _ _ _ => StreamDecision.sets_iff, PlaybackState.ofCode_code, ⟨rfl, rfl, rfl, rfl⟩,
    fun _ => PlaybackState.ofCode_of_outside⟩
  · intro c
    rw [call_eq, (recalls_run calls).code]
  · intro c e hc he
    rw [call_eq, hc, apply_of_error _ he]

example : (run [.apply (.error .noMatch), .playback (.error .unattached)]).previous = some 0 := by
  decide

end DecisionPolicy

end DecisionModel
