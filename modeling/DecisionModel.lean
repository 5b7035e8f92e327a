import DecisionModel.Value.Display
import DecisionModel.Source.Store
import DecisionModel.Text.Blank
import DecisionModel.Text.Width
import DecisionModel.Schema.Display
import DecisionModel.Schema.Builder
import DecisionModel.Tree.Stats
import DecisionModel.Tree.Display
import DecisionModel.Playback
import DecisionModel.Names.Parser
import DecisionModel.TreeFile.Quoting
import DecisionModel.TreeFile.Parser
import DecisionModel.Diagnostic.Snippet
import DecisionModel.Toml.Parser
import DecisionModel.CommandLine.Run
import DecisionModel.Files.Directory
import DecisionModel.Main
import DecisionModel.Proofs.Evaluation.Safety
import DecisionModel.Proofs.TreeFile.Written
import DecisionModel.Proofs.Source.Line
import DecisionModel.Proofs.TreeFile.Outline
import DecisionModel.Proofs.TreeFile.Reading
import DecisionModel.Proofs.TreeFile.RoundTrip
import DecisionModel.Proofs.TreeFile.Meaning
import DecisionModel.Proofs.Source.Token
import DecisionModel.Proofs.TreeFile.Token
import DecisionModel.Proofs.TreeFile.PrefixFree
import DecisionModel.Proofs.TreeFile.Descent
import DecisionModel.Proofs.TreeFile.Usage
import DecisionModel.Proofs.Names.Statement
import DecisionModel.Proofs.Names.Acceptance
import DecisionModel.Proofs.Names.Layout
import DecisionModel.Proofs.Evaluation.FirstMatch
import DecisionModel.Proofs.Evaluation.Slots
import DecisionModel.Proofs.TreeFile.Slots
import DecisionModel.Proofs.Evaluation.Filling
import DecisionModel.Proofs.Source.Place
import DecisionModel.Proofs.Names.Place
import DecisionModel.Proofs.TreeFile.Place
import DecisionModel.Proofs.Diagnostic.Place
import DecisionModel.Proofs.Evaluation.Observation
import DecisionModel.Proofs.Evaluation.TextEquality
import DecisionModel.Proofs.Schema.Runs
import DecisionModel.Proofs.Schema.Contiguous
import DecisionModel.Proofs.Schema.Registration
import DecisionModel.Proofs.Source.Moved
import DecisionModel.Proofs.Names.Moved
import DecisionModel.Proofs.TreeFile.Moved
import DecisionModel.Proofs.Source.LineEnds
import DecisionModel.Proofs.Names.Translation
import DecisionModel.Proofs.Names.LineEnds
import DecisionModel.Proofs.Diagnostic.LineEnds
import DecisionModel.Proofs.Evaluation.Policy
import DecisionModel.Proofs.Model.Loading
import DecisionModel.Proofs.CommandLine.Pairs
import DecisionModel.Proofs.CommandLine.Ending
import DecisionModel.Proofs.TreeFile.Ignored
import DecisionModel.Proofs.Config.Rejected
import DecisionModel.Proofs.Config.Applied
import DecisionModel.Proofs.CommandLine.Layout
import DecisionModel.Proofs.TreeFile.Grammar
import DecisionModel.Proofs.Schema.Listing
import DecisionModel.Proofs.Tree.Drawing
import DecisionModel.Proofs.Tree.Label
import DecisionModel.Proofs.Value.Width
import DecisionModel.Proofs.Evaluation.Reordering
import DecisionModel.Proofs.Source.Lexicon
import DecisionModel.Proofs.Names.Lexicon
import DecisionModel.Proofs.TreeFile.Quoted
import DecisionModel.Proofs.TreeFile.Lexicon
import DecisionModel.Proofs.Source.Lexing
import DecisionModel.Proofs.Evaluation.Untested
import DecisionModel.Proofs.Tree.Depth
import DecisionModel.Proofs.Source.Lookup
import DecisionModel.Proofs.Value.CodeSet
import DecisionModel.Proofs.Value.Arrays
import DecisionModel.Proofs.Evaluation.Comparison
