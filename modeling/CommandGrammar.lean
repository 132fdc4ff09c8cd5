import CommandGrammar.Main
import CommandGrammar.Proofs.CommandLine.Arguments
import CommandGrammar.Proofs.Config.Acceptance
import CommandGrammar.Proofs.Config.Reporting
import CommandGrammar.Proofs.Matching.Backtracking
import CommandGrammar.Proofs.Matching.Caching
import CommandGrammar.Proofs.Matching.Clones
import CommandGrammar.Proofs.Matching.Offers
import CommandGrammar.Proofs.Matching.Typing
import CommandGrammar.Proofs.Notation.RoundTrip
import CommandGrammar.Proofs.Resolution.Contest
import CommandGrammar.Proofs.Resolution.Leftmost
import CommandGrammar.Proofs.Resolution.Occurrences
import CommandGrammar.Proofs.Resolution.Values
import CommandGrammar.Proofs.Resolution.Weighing
import CommandGrammar.Proofs.Shell.Completion
import CommandGrammar.Proofs.Shell.Previews
import CommandGrammar.Proofs.Template.Encoding
import CommandGrammar.Proofs.Notation.Layout
import CommandGrammar.Proofs.Notation.Positions
import CommandGrammar.Proofs.Shell.Help
import CommandGrammar.Proofs.Shell.Scripts
import CommandGrammar.Proofs.Graph.WellFormed
