import Juxta.Main
import Juxta.Snapshot.Text
import Juxta.Proofs.Walk.Awaiting
import Juxta.Proofs.Walk.Steps
import Juxta.Proofs.Walk.Yields
import Juxta.Proofs.Walk.Queue
import Juxta.Proofs.Walk.Confined
import Juxta.Proofs.Closures
import Juxta.Proofs.Evaluation
import Juxta.Proofs.Scheduling
import Juxta.Proofs.Token.Ahead
import Juxta.Proofs.Token.Pieces
import Juxta.Proofs.Folding
import Juxta.Proofs.Grammar.Builder
import Juxta.Proofs.Grammar.Answer
import Juxta.Proofs.Parsing
import Juxta.Proofs.Grammar.Phrases
import Juxta.Proofs.Grammar.Remaining
import Juxta.Proofs.Acceptance
import Juxta.Proofs.Canonical
import Juxta.Proofs.Walk.Ends
import Juxta.Proofs.Walk.Drains
import Juxta.Proofs.Calls
import Juxta.Proofs.Termination
import Juxta.Proofs.Literals
import Juxta.Proofs.Shapes
import Juxta.Proofs.Scopes
import Juxta.Proofs.Walk.Alike
import Juxta.Proofs.Numbering
import Juxta.Proofs.SameTree
import Juxta.Proofs.Lockstep
import Juxta.Proofs.ClosedPrograms
import Juxta.Proofs.Loading
import Juxta.Proofs.SnapshotText
import Juxta.Proofs.Raising
import Juxta.Proofs.FormedPrograms
import Juxta.Proofs.Grammar.Frames
import Juxta.Proofs.ReducedNodes
import Juxta.Proofs.ReducedFolding
import Juxta.Proofs.Refolding
import Juxta.Proofs.RefoldedPrograms
import Juxta.Proofs.PlainTrees
import Juxta.Proofs.HeldTrees
import Juxta.Proofs.PlainFolding
import Juxta.Proofs.StagedCalls
import Juxta.Proofs.StagedPrograms
import Juxta.Proofs.Patterns
import Juxta.Proofs.Numerals
import Juxta.Proofs.Decisions
import Juxta.Proofs.BoundPatterns
import Juxta.Proofs.Exactness
import Juxta.Proofs.Progressions
import Juxta.Proofs.Walk.Handing
import Juxta.Proofs.Walk.History
import Juxta.Proofs.Walk.Passing
import Juxta.Proofs.Resuming
import Juxta.Proofs.Feeding
import Juxta.Proofs.Groupings
import Juxta.Proofs.Grammar.Watched
import Juxta.Proofs.Standing
import Juxta.Proofs.InPlace
import Juxta.Proofs.Surroundings
import Juxta.Proofs.Token.Places
import Juxta.Proofs.Token.Quotations
import Juxta.Proofs.Token.Runs
import Juxta.Proofs.Token.Tiling
import Juxta.Proofs.Token.Lexemes
import Juxta.Proofs.Token.Interpolations
import Juxta.Proofs.Walk.Outcomes
import Juxta.Proofs.Currying
import Juxta.Proofs.Rationals
import Juxta.Proofs.Json.Distinct
import Juxta.Proofs.OuterData
import Juxta.Proofs.Walk.Courses
import Juxta.Proofs.Walk.Results
import Juxta.Proofs.Records
import Juxta.Proofs.Walk.Onward
import Juxta.Proofs.Applications
import Juxta.Proofs.Iterations
import Juxta.Proofs.CheckedArithmetic
import Juxta.Proofs.Walk.Arrivals
import Juxta.Proofs.ChainedPrograms
import Juxta.Proofs.OperationPlaces
import Juxta.Proofs.FoldedMeaning
import Juxta.Proofs.AppliedLambdas
import Juxta.Proofs.GroupedCalls
