import Mathlib.Order.MinMax
import DecisionModel.ParseError
import DecisionModel.Proofs.Lists
import DecisionModel.Source.Line
import DecisionModel.Source.Token

/-!
# Moved places

Text that is inserted in front of a place moves it.  Where a function `f` moves places, what is
read of moved text is what was read before, with all places in it moved.  A reader says so by one
equation: its result on what is moved is its result, moved.
-/

namespace DecisionModel

variable (f : Nat → Nat)

def Span.move (s : Span) : Span := ⟨f s.start, f s.stop⟩

def Token.move {κ : Type} (t : Token κ) : Token κ := { t with span := t.span.move f }

/-- The line at another place, with the same text. -/
def Line.move (l : Line) : Line := { l with offset := f l.offset }

def Located.move {φ : Type} (e : Located φ) : Located φ :=
  { e with span := e.span.move f, related := e.related.map (Span.move f) }

/-- The error at another place of the same line. -/
def ParseError.move (e : ParseError) : ParseError :=
  { e with span := e.span.move f, related := e.related.map (Span.move f) }

variable {f}

theorem Span.cover_move (mono : Monotone f) (s t : Span) :
    (s.move f).cover (t.move f) = (s.cover t).move f := by
  simp only [cover, move, mono.map_min, mono.map_max]

theorem Span.move_injective (inj : Function.Injective f) : Function.Injective (Span.move f) := by
  rintro ⟨start, stop⟩ ⟨start', stop'⟩ h
  simp only [move, mk.injEq] at h ⊢
  exact ⟨inj h.1, inj h.2⟩

/-! ### Readers -/

variable {φ α β γ δ : Type}

variable (f) in
/-- The result of a reader where places move: a fault is moved, and `g` moves what is read. -/
def moveResult (g : α → β) : Except (Located φ) α → Except (Located φ) β
  | .ok a => .ok (g a)
  | .error e => .error (e.move f)

/-- **Readers in turn** move as each of them does. -/
theorem moveResult_bind {x : Except (Located φ) α} {g : α → β} {h : γ → δ}
    {next : α → Except (Located φ) γ} {next' : β → Except (Located φ) δ}
    (same : ∀ a, next' (g a) = moveResult f h (next a)) :
    (moveResult f g x >>= next') = moveResult f h (x >>= next) := by
  rcases x with e | a
  · rfl
  · exact same a

theorem foldlM_move {step : β → α → Except (Located φ) β} {m : β → β} {g : α → α} {xs : List α}
    (same : ∀ s, ∀ x ∈ xs, step (m s) (g x) = moveResult f m (step s x)) (s : β) :
    (xs.map g).foldlM step (m s) = moveResult f m (xs.foldlM step s) := by
  induction xs generalizing s with
  | nil => rfl
  | cons x rest ih =>
    rw [List.map_cons, List.foldlM_cons, List.foldlM_cons, same s x (by simp)]
    apply moveResult_bind
    intro t
    exact ih (fun s y hy => same s y (by simp [hy])) t

/-- What has no places is read in the same way of each moved entry. -/
theorem mapM_move {read : α → Except (Located φ) β} {g : α → α}
    (same : ∀ x, read (g x) = moveResult f id (read x)) (xs : List α) :
    (xs.map g).mapM read = moveResult f id (xs.mapM read) := by
  induction xs with
  | nil => rfl
  | cons x rest ih =>
    rw [List.map_cons, List.mapM_cons, List.mapM_cons, same, ih]
    apply moveResult_bind
    intro y
    apply moveResult_bind
    intro ys
    rfl

end DecisionModel
