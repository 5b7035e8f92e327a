import DecisionModel.Proofs.Names.Lexicon
import DecisionModel.Proofs.TreeFile.Lexicon

/-!
# Both lexers

The lexers of schema text and of records follow the rules of their words, wherever the text stands
that they read.  Only the rules of records leave something over that is an error.
-/

namespace DecisionModel

/-- **Both lexers cover their text.**  Their tokens are what the rules cut the text into, the
    longest word first.  They are pieces of the text one behind the other, and what is between
    them, in front and behind is blank, or in schema text a comment.  At another offset they are
    the same, shifted.

    No schema text has an error, so a parser that looks for errors comes to none. -/
theorem lexers_cover_text :
    Names.lexicon.Governs Names.Gap Names.lexer ∧
      TreeFile.lexicon.Governs TreeFile.Gap TreeFile.tokens ∧
      (∀ text pieces, Names.lexicon.Cut text pieces →
        ∀ t ∈ Lexicon.tokensAt 0 pieces, t.kind ≠ Names.lexicon.error) ∧
      ∀ file pieces, Names.lexicon.Cut file.content.toList pieces →
        ∃ result : Except (Located Names.Fault) Schema,
          Names.readOrError file.endSpan (Lexicon.tokensAt 0 pieces) = result.mapError .inr ∧
            Names.parse file = result.mapError (.ofLocated .names file) := by
  refine ⟨Names.governs_lexer, TreeFile.governs_tokens, ?_, ?_⟩
  · intro text pieces hcut t ht herror
    obtain ⟨piece, hpiece, rfl⟩ := Lexicon.kind_of_mem_tokensAt ht
    exact Names.kind_ne_error_of_cut hcut _ hpiece (congrArg some herror)
  · intro file pieces hcut
    exact Names.exists_readOrError_eq hcut

/-- Schema text that ends in a comment. -/
def commentedNames : SourceFile where
  name := "commented.names"
  content := "é.|x\n a:b|"

/-- Record text with a quote that is not closed, and a backslash at its end. -/
def unclosedText : List Char := "x =\"é\\\"\",\"\\".toList

theorem lexers_cover_commentedNames_and_unclosedText :
    (∃ pieces, Names.lexicon.Cut commentedNames.content.toList pieces ∧
      Lexicon.tokensAt 0 pieces =
        [⟨some .name, "é", ⟨0, 2⟩⟩, ⟨some .dot, ".", ⟨2, 3⟩⟩, ⟨some .name, "a", ⟨7, 8⟩⟩,
          ⟨some .colon, ":", ⟨8, 9⟩⟩, ⟨some .name, "b", ⟨9, 10⟩⟩] ∧
      (∀ t ∈ Lexicon.tokensAt 0 pieces, t.kind ≠ Names.lexicon.error) ∧
      ∃ result : Except (Located Names.Fault) Schema,
        Names.readOrError commentedNames.endSpan (Lexicon.tokensAt 0 pieces) =
            result.mapError .inr ∧
          Names.parse commentedNames = result.mapError (.ofLocated .names commentedNames)) ∧
    ∃ pieces, TreeFile.lexicon.Cut unclosedText pieces ∧
      Lexicon.tokensAt 5 pieces =
        [⟨.name, "x", ⟨5, 6⟩⟩, ⟨.equals, "=", ⟨7, 8⟩⟩, ⟨.text, "\"é\\\"\"", ⟨8, 14⟩⟩,
          ⟨.comma, ",", ⟨14, 15⟩⟩, ⟨.error, "\"", ⟨15, 16⟩⟩, ⟨.error, "\\", ⟨16, 17⟩⟩] := by
  obtain ⟨hnames, hrecords, hnone, hparse⟩ := lexers_cover_text
  obtain ⟨pieces, hpieces, -⟩ := hnames.unique commentedNames.content.toList
  obtain ⟨others, hothers, -⟩ := hrecords.unique unclosedText
  refine ⟨⟨pieces, hpieces, ?_, hnone _ _ hpieces, hparse _ _ hpieces⟩, others, hothers, ?_⟩
  · rw [← hnames.cut 0 hpieces]
    decide
  · rw [← hrecords.cut 5 hothers]
    decide

end DecisionModel
