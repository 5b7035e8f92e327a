import DecisionModel.Source.Span
import DecisionModel.Text.Utf8

/-!
# Tokens

A token is a piece of a file that belongs together, with its kind and its span.
-/

namespace DecisionModel

open Text

structure Token (κ : Type) where
  kind : κ
  text : String
  span : Span
  deriving DecidableEq, Repr

namespace Token

def ofChars {κ : Type} (kind : κ) (start : Nat) (cs : List Char) : Token κ :=
  ⟨kind, String.ofList cs, ⟨start, start + byteLength cs⟩⟩

def shift {κ : Type} (t : Token κ) (offset : Nat) : Token κ :=
  { t with span := t.span.shift offset }

end Token

end DecisionModel
