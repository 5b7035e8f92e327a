import DecisionModel.Names.Parser
import DecisionModel.Proofs.Source.Moved

/-!
# Moved schema text

A schema depends on places by two comparisons only: whether an attribute is defined right behind
a declaration, and whether a definition is another place than the declaration itself.  Where no
two places fall together, moving them changes nothing else.
-/

namespace DecisionModel.Names

variable (f : Nat → Nat)

def Mention.move (m : Mention) : Mention := { m with span := m.span.move f }

def Declaration.move (d : Declaration) : Declaration :=
  ⟨d.target.move f, f d.stop, d.follower.map (Mention.move f)⟩

def Phase.move : Phase → Phase
  | .start => .start
  | .named name => .named (name.move f)
  | .value name values => .value (name.move f) values
  | .separator name values => .separator (name.move f) values

namespace State

def move (s : State) : State where
  builder := s.builder
  definitions := s.definitions.map (Mention.move f)
  declaration := s.declaration.map (Declaration.move f)
  phase := s.phase.move f

theorem expected_move (s : State) : (s.move f).expected = s.expected := by
  obtain ⟨b, definitions, declaration, phase⟩ := s
  cases phase <;> rfl

theorem resolve_move (s : State) (d : Declaration) :
    (s.move f).resolve (d.move f) = (s.resolve d).move f := by
  obtain ⟨target, stop, follower⟩ := d
  rcases follower with _ | follower
  · rfl
  · simp only [resolve, Declaration.move, Option.map_some]
    exact (apply_ite (Mention.move f) _ _ _).symm

end State

variable {f} (inj : Function.Injective f)

include inj

/-- What is defined right behind a declaration still is. -/
theorem Declaration.follow_move (d : Declaration) (name : Mention) :
    (d.move f).follow (name.move f) = (d.follow name).move f := by
  have hplace : (d.move f).stop = (name.move f).span.start ↔ d.stop = name.span.start := inj.eq_iff
  unfold Declaration.follow
  by_cases hbehind : d.stop = name.span.start
  · rw [if_pos hbehind, if_pos (hplace.mpr hbehind)]
    rfl
  · rw [if_neg hbehind, if_neg (hplace.not.mpr hbehind)]

namespace State

theorem complete_move (s : State) (name : Mention) (values : List String) :
    (s.move f).complete (name.move f) values = (s.complete name values).move f := by
  simp only [complete, move, mk.injEq, List.map_append, List.map_cons, List.map_nil, Option.map_map,
    Function.comp_def, Declaration.follow_move inj, true_and]
  exact ⟨rfl, rfl⟩

/-- A token leads on from moved places as it does from the old ones. -/
theorem step_move (s : State) (t : Token TokenKind) :
    (s.move f).step (t.move f) = moveResult f (move f) (s.step t) := by
  have hunexpected : (.error ⟨.unexpected (s.move f).expected t.text, t.span.move f, none⟩ :
      Except (Located Fault) State) =
        moveResult f (move f) (.error ⟨.unexpected s.expected t.text, t.span, none⟩) := by
    rw [expected_move]
    rfl
  obtain ⟨b, definitions, declaration, phase⟩ := s
  obtain ⟨kind, text, span⟩ := t
  cases phase with
  | start =>
    cases kind
    case name => rfl
    all_goals exact hunexpected
  | named name =>
    cases kind
    case dot => rfl
    case colon =>
      by_cases hknown : b.contains name.name = true
      · simp [step, move, Phase.move, Mention.move, Token.move, hknown, moveResult, Located.move]
      · simp [step, move, Phase.move, Mention.move, Token.move, hknown, moveResult]
    all_goals exact hunexpected
  | value name values =>
    cases kind
    case name => rfl
    all_goals exact hunexpected
  | separator name values =>
    cases kind
    case comma => rfl
    case dot => exact congrArg Except.ok (complete_move inj _ name values)
    all_goals exact hunexpected

/-- A definition is another place than the declaration if it was before. -/
theorem find?_definition_move (definitions : List Mention) (target : Mention) :
    (definitions.map (Mention.move f)).find?
        (fun m => m.name == (target.move f).name && m.span != (target.move f).span) =
      (definitions.find? fun m => m.name == target.name && m.span != target.span).map
        (Mention.move f) := by
  have hspan : ∀ m : Mention, ((m.move f).span != (target.move f).span) =
      (m.span != target.span) := by
    intro m
    rw [bne, bne, Bool.not_inj_iff, Bool.eq_iff_iff, beq_iff_eq, beq_iff_eq]
    exact (Span.move_injective inj).eq_iff
  rw [List.find?_map]
  simp only [Function.comp_def, hspan]
  rfl

theorem finish_move (s : State) (stop : Span) :
    (s.move f).finish (stop.move f) = moveResult f id (s.finish stop) := by
  obtain ⟨b, definitions, declaration, phase⟩ := s
  cases phase with
  | start =>
    rcases declaration with _ | d
    · rfl
    · have hresolve := resolve_move f ⟨b, definitions, some d, .start⟩ d
      simp only [finish, move, Phase.move, Option.map_some] at hresolve ⊢
      generalize resolve ⟨b, definitions, some d, .start⟩ d = target at hresolve ⊢
      have hname : (target.move f).name = target.name := rfl
      rw [hresolve, find?_definition_move inj, hname]
      rcases b.finish target.name with reason | schema
      · simp [moveResult, Located.move, Mention.move, Function.comp_def]
      · rfl
  | named name => rfl
  | value name values => rfl
  | separator name values => rfl

end State

/-- **Moved tokens are read alike.** -/
theorem read_move (tokens : List (Token TokenKind)) (stop : Span) :
    ((tokens.map (Token.move f)).foldlM State.step State.initial >>= (·.finish (stop.move f))) =
      moveResult f id (tokens.foldlM State.step State.initial >>= (·.finish stop)) := by
  have hrun : (tokens.map (Token.move f)).foldlM State.step State.initial =
      moveResult f (State.move f) (tokens.foldlM State.step State.initial) :=
    foldlM_move (fun s t _ => State.step_move inj s t) State.initial
  rw [hrun]
  exact moveResult_bind fun s => State.finish_move inj s stop

end DecisionModel.Names
