import Sluice.Bench
import Sluice.Exchange
import Sluice.Main
import Sluice.Program
import Sluice.Proofs.Pipeline.Edit
import Sluice.Proofs.Pipeline.Members
import Sluice.Proofs.Pipeline.Effect
import Sluice.Proofs.Pipeline.Placing
import Sluice.Proofs.Pipeline.Identity
import Sluice.Proofs.Pipeline.Sound
import Sluice.Proofs.Pipeline.Joining
import Sluice.Proofs.Pipeline.Ends
import Sluice.Proofs.Pipeline.Capacity
import Sluice.Proofs.Pipeline.Deletion
import Sluice.Proofs.Pipeline.Choosing
import Sluice.Proofs.Pipeline.Table
import Sluice.Proofs.Ledger.Agreement
import Sluice.Proofs.Ledger.Upkeep
import Sluice.Proofs.Ledger.Refinement
import Sluice.Proofs.Ledger.Built
import Sluice.Proofs.Ledger.Intact
import Sluice.Proofs.Text.LowerCase
import Sluice.Proofs.CommandLine.Joined
import Sluice.Proofs.CommandLine.Split
import Sluice.Proofs.CommandLine.Pipes
import Sluice.Proofs.CommandLine.Scan
import Sluice.Proofs.CommandLine.Sections
import Sluice.Proofs.Writing.Lines
import Sluice.Proofs.Reading.Giving
import Sluice.Proofs.Writing.Numbering
import Sluice.Proofs.Pipeline.Acyclic
import Sluice.Proofs.Writing.Blocks
import Sluice.Proofs.Writing.Schedule
import Sluice.Proofs.Pipeline.Jobs
import Sluice.Proofs.Pipeline.Renaming
import Sluice.Proofs.Reading.Copy
import Sluice.Proofs.Reading.Labels
import Sluice.Proofs.Writing.Script
import Sluice.Proofs.Writing.Counting
import Sluice.Proofs.Reading.Replay
import Sluice.Proofs.Pipeline.Arranging
import Sluice.Proofs.Pipeline.Ties
import Sluice.Proofs.Pipeline.Reordering
import Sluice.Proofs.Reading.Branches
import Sluice.Proofs.RoundTrip
import Sluice.Proofs.Writing.Outcome
import Sluice.Proofs.Pipeline.Forward
import Sluice.Proofs.Pipeline.Growing
import Sluice.Proofs.Reading.Grounded
import Sluice.Proofs.Reading.Course
import Sluice.Proofs.Pipeline.Validity
import Sluice.Proofs.Reading.Strict
import Sluice.Proofs.CommandLine.Tokens
import Sluice.Proofs.CommandLine.Rendering
import Sluice.Proofs.CommandLine.Commands
import Sluice.Proofs.Reading.Values
import Sluice.Proofs.Catalogue
import Sluice.Proofs.Catalogue.History
import Sluice.Proofs.Catalogue.ShortNames
import Sluice.Proofs.Catalogue.Loading
import Sluice.Proofs.Conversion
import Sluice.Proofs.Pipeline.Coherence
import Sluice.Proofs.Pipeline.Changes
import Sluice.Proofs.Bench
import Sluice.Proofs.Writing.Pruning
import Sluice.Proofs.Writing.Emission
import Sluice.Proofs.Messages
import Sluice.Proofs.Reading.Refusals
import Sluice.Proofs.Reading.Outcomes
import Sluice.Proofs.Reading.Lookup
import Sluice.Proofs.Reading.Scope
import Sluice.Proofs.Reading.Ordering
import Sluice.Proofs.Reading.Fanning
import Sluice.Proofs.Reading.Queues
import Sluice.Proofs.Reading.Serving
import Sluice.Proofs.Files
import Sluice.Proofs.Program.Arguments
import Sluice.Proofs.Program.Convert
import Sluice.Proofs.CommandLine.LineEnd
import Sluice.Proofs.CommandLine.Keys
import Sluice.Proofs.CommandLine.Words
import Sluice.Proofs.CommandLine.Mentions
import Sluice.Proofs.Reading.FreshKeys
import Sluice.Proofs.Reading.WholeText
import Sluice.Proofs.Writing.Turns
import Sluice.Proofs.Writing.Discipline
import Sluice.Proofs.Writing.Endings
import Sluice.Proofs.Writing.Alike
