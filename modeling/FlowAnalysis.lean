import FlowAnalysis.Analysis.Fixpoint
import FlowAnalysis.Analysis.SettingsText
import FlowAnalysis.Interval.Table
import FlowAnalysis.Liveness.State
import FlowAnalysis.Segment.State
import FlowAnalysis.Trace.State
import FlowAnalysis.Proofs.Graph
import FlowAnalysis.Proofs.Analysis.PostFixpoint
import FlowAnalysis.Proofs.Number.Order
import FlowAnalysis.Proofs.Number.Rounding
import FlowAnalysis.Proofs.Interval.Order
import FlowAnalysis.Proofs.Domain
import FlowAnalysis.Proofs.Store
import FlowAnalysis.Proofs.Interval.State
import FlowAnalysis.Proofs.Interval.Arithmetic
import FlowAnalysis.Proofs.Numeric.Semantics
import FlowAnalysis.Proofs.Numeric.Translation
import FlowAnalysis.Proofs.Numeric.Evaluation
import FlowAnalysis.Proofs.Interval.Refine
import FlowAnalysis.Proofs.Numeric.Refinement
import FlowAnalysis.Proofs.Program.Alternatives
import FlowAnalysis.Proofs.Analysis.Closure
import FlowAnalysis.Proofs.Interval.Shape
import FlowAnalysis.Proofs.Numeric.Soundness
import FlowAnalysis.Proofs.Analysis.Termination
import FlowAnalysis.Proofs.Interval.Widening
import FlowAnalysis.Proofs.Segment.Region
import FlowAnalysis.Proofs.Segment.Partition
import FlowAnalysis.Proofs.Segment.Map
import FlowAnalysis.Proofs.Segment.Order
import FlowAnalysis.Proofs.Segment.Widening
import FlowAnalysis.Proofs.Segment.Cover
import FlowAnalysis.Proofs.Segment.State
import FlowAnalysis.Proofs.Segment.Items
import FlowAnalysis.Proofs.Interval.Environment
import FlowAnalysis.Proofs.Segment.Display
import FlowAnalysis.Proofs.Program.Translation
import FlowAnalysis.Proofs.Liveness.State
import FlowAnalysis.Proofs.Analysis.Least
import FlowAnalysis.Proofs.Liveness.Least
import FlowAnalysis.Proofs.Liveness.Interference
import FlowAnalysis.Proofs.Segment.Safety
import FlowAnalysis.Proofs.Lattice
import FlowAnalysis.Proofs.Analysis.Cap
import FlowAnalysis.Proofs.Analysis.Handled
import FlowAnalysis.Proofs.Identifiers
import FlowAnalysis.Proofs.Interval.Steps
import FlowAnalysis.Proofs.Container.Evaluation
import FlowAnalysis.Proofs.Container.Assignment
import FlowAnalysis.Proofs.Interval.Negation
import FlowAnalysis.Proofs.Evaluation.Meaning
import FlowAnalysis.Proofs.Evaluation.ShortCircuit
import FlowAnalysis.Proofs.Evaluation.Conditions
import FlowAnalysis.Proofs.Segment.Merging
import FlowAnalysis.Proofs.Segment.Reading
import FlowAnalysis.Proofs.Segment.Refining
import FlowAnalysis.Proofs.Interval.Doubles
import FlowAnalysis.Proofs.Evaluation.Overflow
import FlowAnalysis.Proofs.Container.Meet
import FlowAnalysis.Proofs.Evaluation.Literals
import FlowAnalysis.Proofs.Interval.Sets
import FlowAnalysis.Proofs.Interval.Combination
import FlowAnalysis.Proofs.Interval.Monotonicity
import FlowAnalysis.Proofs.Program.Grammar
import FlowAnalysis.Proofs.Segment.Difference
