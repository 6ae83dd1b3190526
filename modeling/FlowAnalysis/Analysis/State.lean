import FlowAnalysis.Domain
import FlowAnalysis.Program.Alternatives

/-!
States of an analysis, and what statements do to them.

A state domain says what a single assignment, condition or output does to a state. A statement may
denote several expressions; then each of them is tried on the same state and the outcomes are
joined. A state also carries the alternatives that the last access statement denoted, so that a
guard can be evaluated first and assumed afterwards.
-/
namespace FlowAnalysis

/-- The direction of an analysis. -/
inductive Direction where
  | forward
  | backward
  deriving DecidableEq

/-- A domain of states. An analysis may consult the states `Pre` of an earlier one. -/
class StateDomain (S : Type) (Pre : outParam Type) extends Domain S where
  /-- The expressions that the last access statement denoted. -/
  result : S → Alternatives
  withResult : S → Alternatives → S
  /-- Prepares a state for a statement, given what the earlier analysis knows there. -/
  before : S → Point → Option Pre → S := fun s _ _ => s
  assignOne : S → Expr → Expr → Outcome S
  assumeOne : S → Expr → Outcome S
  substituteOne : S → Expr → Expr → Outcome S
  outputOne : S → Expr → Outcome S
  enterIf : S → S := id
  exitIf : S → S := id
  enterLoop : S → S := id
  exitLoop : S → S := id

namespace StateDomain

variable {S Pre : Type} [StateDomain S Pre]

/-- The state without the expressions of the last statement. -/
def cleared (s : S) : S := withResult s .empty

/-- Applies a transformer to `s` once for each item and joins the outcomes. Bottom states, and
states with nothing to apply, stay as they are. -/
def joinEach {ι : Type} (s : S) (items : List ι) (apply : S → ι → Outcome S) : Outcome S :=
  match items with
  | [] => pure (cleared s)
  | first :: rest =>
    if Extremal.isBottom s then pure (cleared s)
    else do
      let outcome ← apply s first
      let joined ← rest.foldlM (fun joined item => do
        let outcome ← apply s item
        Domain.join joined outcome) outcome
      return cleared joined

/-- Every left-hand side with every right-hand side. -/
def pairs (left right : Alternatives) : List (Expr × Expr) :=
  left.toList.flatMap fun l => right.toList.map fun r => (l, r)

def assign (s : S) (left right : Alternatives) : Outcome S :=
  joinEach s (pairs left right) fun s p => assignOne s p.1 p.2

/-- The state before an assignment, given the one after it. -/
def substitute (s : S) (left right : Alternatives) : Outcome S :=
  joinEach s (pairs left right) fun s p => substituteOne s p.1 p.2

/-- The part of the state where one of the conditions holds. -/
def assume (s : S) (conditions : Alternatives) : Outcome S :=
  joinEach s conditions.toList assumeOne

def output (s : S) (values : Alternatives) : Outcome S :=
  joinEach s values.toList outputOne

/-- Assumes what the last access statement denoted. -/
def filter (s : S) : Outcome S := assume s (result s)

/-- The state after an error is raised: no execution goes on. -/
def raise (s : S) : S := Extremal.bottom s

/-- The state after a statement is executed, or before it in the backward direction. -/
def perform (direction : Direction) (statement : Stmt) (s : S) : Outcome S :=
  match statement with
  | .assign _ left right => do
    let left ← left.alternatives
    let right ← right.alternatives
    match direction with
    | .forward => assign s left right
    | .backward => substitute s left right
  | .call point name type arguments =>
    if name = "print" then do
      let values ← Stmt.alternativesOf arguments
      output s values
    else do
      let found ← (Stmt.call point name type arguments).alternatives
      return withResult s found
  | .ret _ values => do
    let values ← Stmt.alternativesOf values
    output s values
  | .raise _ => pure (raise s)
  | statement => do
    let found ← statement.alternatives
    return withResult s found

end StateDomain

end FlowAnalysis
