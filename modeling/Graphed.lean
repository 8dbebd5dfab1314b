import Graphed.Core.Store
import Graphed.Optimizer.Reachable
import Graphed.Execution.Skipping
import Graphed.Optimizer.Preservation
import Graphed.Optimizer.Reference
import Graphed.Optimizer.Proof.Reintern
import Graphed.Core.Recording
import Graphed.Core.RoundTrip
import Graphed.Core.Interleaving
import Graphed.Checkpoint.History
import Graphed.Checkpoint.Resumption
import Graphed.Frontend.Sufficient
import Graphed.Execution.SideBySide
import Graphed.Preserve.Reproducible
import Graphed.Checkpoint.Retry
import Graphed.Aggregate.Homomorphism
import Graphed.Systematics.CheckForms
import Graphed.Library.Products
import Graphed.Library.Packing
import Graphed.Relational.PackedKeys
import Graphed.Partitions.Parts
import Graphed.Library.Liveness
import Graphed.Library.Traced
import Graphed.Library.Worklist
import Graphed.Execution.Evaluate
import Graphed.Execution.Released
import Graphed.Execution.Evaluated
import Graphed.Execution.Requests
import Graphed.Library.CombineTree
import Graphed.Numpy.Reductions
import Graphed.Numpy.Extrema
import Graphed.Numpy.Moments
import Graphed.Numpy.TreeReductions
import Graphed.Frontend.CallKeys
import Graphed.Frontend.Callables
import Graphed.Frontend.Growth
import Graphed.Frontend.Answers
import Graphed.Frontend.OwnAnswers
import Graphed.Library.Decimals
import Graphed.Systematics.Tags
import Graphed.Systematics.TagLaws
import Graphed.Library.Places
import Graphed.Systematics.Coordinates
import Graphed.Systematics.CoordinateLaws
import Graphed.Systematics.Readings
import Graphed.Systematics.ExactNames
import Graphed.Systematics.TagBounds
import Graphed.Library.Splitting
import Graphed.Core.ParseToken
import Graphed.Optimizer.Proof.Joins
import Graphed.Optimizer.Proof.Stages
import Graphed.Optimizer.Partition
import Graphed.Library.Descent
import Graphed.Library.Attempts
import Graphed.Systematics.Expand
import Graphed.Systematics.Lineage
import Graphed.Systematics.Reindex
import Graphed.Systematics.Handles
import Graphed.Execution.Warned
import Graphed.Execution.WarnedRuns
import Graphed.Execution.Issued
import Graphed.Library.Gathering
import Graphed.Awkward.Layouts
import Graphed.Awkward.LayoutLaws
import Graphed.Awkward.Concat
import Graphed.Awkward.ConcatLaws
import Graphed.Library.SortedJson
import Graphed.Library.Integers
import Graphed.Library.SpacedJson
import Graphed.Frontend.Subscripts
import Graphed.Frontend.MethodCalls
import Graphed.Frontend.DecodedCalls
import Graphed.Optimizer.IncrementalMeaning
import Graphed.Library.Routing
import Graphed.Relational.Exchange
import Graphed.Execution.ShufflePlan
import Graphed.Execution.Barriers
import Graphed.Execution.ShuffleRuns
import Graphed.Library.Equijoin
import Graphed.Library.SortSearch
import Graphed.Relational.MatchIndices
import Graphed.Library.KeyedJoins
import Graphed.Execution.JoinRuns
