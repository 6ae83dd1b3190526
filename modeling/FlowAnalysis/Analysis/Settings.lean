/-!
Settings of a fixpoint computation.
-/
namespace FlowAnalysis

/-- How long a fixpoint computation may take. -/
structure Settings where
  /-- How often a loop head is recomputed before widening starts. -/
  widening : Nat := 3
  /-- The cap on the recomputations of a node, if there is one. -/
  maxIterations : Option Nat := none
  deriving DecidableEq

end FlowAnalysis
