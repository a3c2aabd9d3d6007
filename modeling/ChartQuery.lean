import ChartQuery.Json.Reader
import ChartQuery.Json.Writer
import ChartQuery.Notice
import ChartQuery.Pivot.Wire
import ChartQuery.Plan.Graft
import ChartQuery.Proofs.Binary64.Finite
import ChartQuery.Proofs.Binary64.Integer
import ChartQuery.Proofs.Calendar.Days
import ChartQuery.Proofs.Calendar.Layouts
import ChartQuery.Proofs.Chart.Finite
import ChartQuery.Proofs.Chart.Wire
import ChartQuery.Proofs.Compile.Failure
import ChartQuery.Proofs.Compile.FilterGraft
import ChartQuery.Proofs.Compile.FilterTiming
import ChartQuery.Proofs.Compile.FoldPair
import ChartQuery.Proofs.Compile.Instants
import ChartQuery.Proofs.Compile.Kinds
import ChartQuery.Proofs.Compile.KnownFields
import ChartQuery.Proofs.Compile.Measures
import ChartQuery.Proofs.Compile.PaintMaps
import ChartQuery.Proofs.Compile.Relevance
import ChartQuery.Proofs.Compile.Sorting
import ChartQuery.Proofs.Compile.Steps
import ChartQuery.Proofs.Compile.Transforms
import ChartQuery.Proofs.Compile.Unfolding
import ChartQuery.Proofs.Compile.Wire
import ChartQuery.Proofs.Expression.Normalization
import ChartQuery.Proofs.Expression.Wire
import ChartQuery.Proofs.Json.Finite
import ChartQuery.Proofs.Pivot.Aggregates
import ChartQuery.Proofs.Pivot.Batches
import ChartQuery.Proofs.Pivot.Cells
import ChartQuery.Proofs.Pivot.Coherence
import ChartQuery.Proofs.Pivot.Collapsing
import ChartQuery.Proofs.Pivot.Completion
import ChartQuery.Proofs.Pivot.Coverage
import ChartQuery.Proofs.Pivot.GroupingOrder
import ChartQuery.Proofs.Pivot.Groupings
import ChartQuery.Proofs.Pivot.HeaderOrder
import ChartQuery.Proofs.Pivot.Headers
import ChartQuery.Proofs.Pivot.Interleaving
import ChartQuery.Proofs.Pivot.Leaves
import ChartQuery.Proofs.Pivot.Levels
import ChartQuery.Proofs.Pivot.Locality
import ChartQuery.Proofs.Pivot.RowOrder
import ChartQuery.Proofs.Pivot.Snapshots
import ChartQuery.Proofs.Pivot.Summaries
import ChartQuery.Proofs.Plan.GraftLaws
import ChartQuery.Proofs.Plan.Layout
import ChartQuery.Proofs.Plan.Meaning
import ChartQuery.Proofs.Plan.TransformGraft
import ChartQuery.Proofs.Plan.Wire
import ChartQuery.Proofs.Text.Digits
import ChartQuery.Proofs.Transform.Circle
import ChartQuery.Proofs.Transform.Closure
import ChartQuery.Proofs.Transform.EvaluationOrder
import ChartQuery.Proofs.Transform.Reach
import ChartQuery.Proofs.Transform.Rewriting
import ChartQuery.Proofs.Transform.Rounds
import ChartQuery.Proofs.Binary64.Order
import ChartQuery.Proofs.Pivot.ValueGroups
import ChartQuery.Proofs.Pivot.Histories
