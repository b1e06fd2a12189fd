import Predictive.CommandLine.Session
import Predictive.Journal
import Predictive.Main
import Predictive.Proofs.Derivation.Follow
import Predictive.Proofs.Grammar.Edits
import Predictive.Proofs.Grammar.Faults
import Predictive.Proofs.Grammar.Layout
import Predictive.Proofs.Grammar.Loading
import Predictive.Proofs.Grammar.Reachability
import Predictive.Proofs.Grammar.RoundTrip
import Predictive.Proofs.Lookahead.Histories
import Predictive.Proofs.Lookahead.Passes
import Predictive.Proofs.Outcome
import Predictive.Proofs.Parse.Archive
import Predictive.Proofs.Parse.Consumption
import Predictive.Proofs.Parse.Limit
import Predictive.Proofs.Parse.Replay
import Predictive.Proofs.Parse.Termination
import Predictive.Proofs.ParseTable.Cells
import Predictive.Proofs.Rearrangement
import Predictive.Proofs.Report.Tables
import Predictive.Proofs.Symbol.FiniteSets
import Predictive.Proofs.Vocabulary.Errors
import Predictive.Proofs.Vocabulary.Extensions
