import FlowAnalysis.Program.Stmt

/-!
Why an analysis stops without a result.

An infeasible path is no error, it is a bottom state. What remains are operations that a domain
does not have, statements without meaning, runs past the cap on iterations, and two internal
checks: stores are combined pointwise only if they have the same identifiers in the same order,
and a segmented container never holds overlapping or empty segments.
-/
namespace FlowAnalysis

/-- The causes of a failed analysis. -/
inductive AnalysisError where
  | unsupported (domain operation : String)
  | malformed (point : Point) (reason : String)
  | notConverged (node iterations : Nat)
  | differentIdentifiers
  | overlappingSegments
  deriving DecidableEq

def AnalysisError.message : AnalysisError → String
  | unsupported domain operation =>
    operation ++ " is not supported by the " ++ domain ++ " domain"
  | malformed point reason => "malformed statement at " ++ point.text ++ ": " ++ reason
  | notConverged node iterations =>
    "analysis did not converge at node " ++ toString node ++ " after " ++ toString iterations
      ++ " iterations"
  | differentIdentifiers => "pointwise operation on stores with different variables"
  | overlappingSegments => "overlapping segments"

/-- A result, or the cause why there is none. -/
abbrev Outcome := Except AnalysisError

end FlowAnalysis
