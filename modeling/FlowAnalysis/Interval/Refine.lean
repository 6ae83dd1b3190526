import FlowAnalysis.Interval.Evaluate
import FlowAnalysis.Ordered.Map

/-!
What a condition says about the variables it mentions.

If a condition holds, some identifiers must lie in certain ranges, or it cannot hold at all. A
condition is read together with the answer it should have, so that a negation only flips the
answer: connectives turn into their duals and comparisons into their opposites on the way down.
Strict comparisons of whole numbers move a bound by one.
-/
namespace FlowAnalysis

/-- What follows from a condition. -/
inductive Refinement where
  /-- The condition cannot hold. -/
  | infeasible
  /-- Each identifier lies in its range. -/
  | constrain (ranges : OrderedMap Identifier Interval)

namespace Refinement

def unconstrained : Refinement := constrain .empty

/-- A range for at most one identifier; an empty range cannot be met. -/
def single (x : Option Identifier) (range : Interval) : Refinement :=
  if range.isBottom then infeasible
  else
    match x with
    | some x => constrain (OrderedMap.empty.insert x range)
    | none => unconstrained

/-- The ranges narrowed by further ones, one after another. -/
def narrow (ranges : OrderedMap Identifier Interval) :
    List (Identifier × Interval) → Refinement
  | [] => constrain ranges
  | (x, range) :: rest =>
    let merged :=
      match ranges.get? x with
      | some existing => existing.meet range
      | none => range
    if merged.isBottom then infeasible else narrow (ranges.insert x merged) rest

def and : Refinement → Refinement → Refinement
  | constrain left, constrain right => narrow left right.entries
  | _, _ => infeasible

def or : Refinement → Refinement → Refinement
  | infeasible, r => r
  | r, infeasible => r
  | constrain left, constrain right =>
    constrain (left.filterMap fun x range => (right.get? x).map range.join)

/-- Whether two refinements have the same constraints, in whatever order. -/
def same : Refinement → Refinement → Bool
  | infeasible, infeasible => true
  | constrain left, constrain right => left.same (fun a b => decide (a = b)) right
  | _, _ => false

def connective : Connective → Refinement → Refinement → Refinement
  | .and => and
  | .or => or

end Refinement

namespace Expr

/-- The identifier whose range a condition on the expression can narrow. -/
def refinable? : Expr → Option Identifier
  | .var x => if x.type.isNumeric then some x else none
  | .length (.var x) => if x.hasLength then some x.lengthOf else none
  | _ => none

end Expr

namespace Interval

/-- Where members of `value` can lie that differ from `other`: a single number at an end of a range
of whole numbers is cut off. -/
def excluding (value other : Interval) (step : Bound) : Interval :=
  if step = 0 || !other.isSingleton then top
  else if other.lower = value.lower then of (value.lower.add step) .posInf
  else if other.upper = value.upper then of .negInf (value.upper.sub step)
  else top

/-- Where the members of `a` and of `b` can lie if the comparison holds between them, none if it
cannot hold. Strict comparisons keep a distance of `step`. -/
def refineComparison? (op : Comparison) (a b : Interval) (step : Bound) :
    Option (Interval × Interval) :=
  match op with
  | .lt => some (of .negInf (b.upper.sub step), of (a.lower.add step) .posInf)
  | .le => some (of .negInf b.upper, of a.lower .posInf)
  | .gt => some (of (b.lower.add step) .posInf, of .negInf (a.upper.sub step))
  | .ge => some (of b.lower .posInf, of .negInf a.upper)
  | .eq => some (b, a)
  | .ne =>
    if a.isSingleton && a = b then none
    else some (excluding a b step, excluding b a step)
  | _ => some (top, top)

end Interval

def refineNumeric (env : Environment) (left : Expr) (op : Comparison) (right : Expr) :
    Outcome Refinement :=
  if left.type.isNumeric && right.type.isNumeric then do
    let a ← evaluate env left
    let b ← evaluate env right
    if a.isBottom || b.isBottom then return .infeasible
    else
      let step : Bound := if left.type.isIntegral && right.type.isIntegral then 1 else 0
      match Interval.refineComparison? op a b step with
      | none => return .infeasible
      | some (leftRange, rightRange) =>
        return (Refinement.single left.refinable? (a.meet leftRange)).and
          (Refinement.single right.refinable? (b.meet rightRange))
  else pure .unconstrained

/-- The range of the keys or values of a container, none if it is empty. -/
def membersOf? (env : Environment) (container : Identifier) (view : View) : Option Interval :=
  if (env.value container.lengthOf).upper = 0 then none else some (env.members container view)

/-- The range of the members of a collection, none if it is empty. -/
def candidates? (env : Environment) : Expr → Outcome (Option Interval)
  | .range start stop step => do
    let start ← evaluate env start
    let stop ← evaluate env stop
    let step ← evaluate env step
    return some (.stepsWithin start stop step)
  | .var container =>
    pure (if container.hasLength then membersOf? env container (.ofMembership container.type)
      else some .top)
  | .keys (.var container) =>
    pure (if container.hasLength then membersOf? env container .keys else some .top)
  | .values (.var container) =>
    pure (if container.hasLength then membersOf? env container .values else some .top)
  | .list _ items =>
    if items.isEmpty then pure none
    else do
      let joined ← evaluateJoined env items
      return some joined
  | .set _ items =>
    if items.isEmpty then pure none
    else do
      let joined ← evaluateJoined env items
      return some joined
  | _ => pure (some .top)

/-- What follows if `item` is a member of a collection. -/
def refineMembership (env : Environment) (item collection : Expr) : Outcome Refinement := do
  match ← candidates? env collection with
  | none => return .infeasible
  | some candidates =>
    if item.type.isNumeric then do
      let value ← evaluate env item
      return .single item.refinable? (value.meet candidates)
    else return if candidates.isBottom then .infeasible else .unconstrained

def refineCompare (env : Environment) (left : Expr) (op : Comparison) (right : Expr) :
    Outcome Refinement :=
  match op with
  | .isIn => refineMembership env left right
  | .notIn => pure .unconstrained
  | .is => pure .unconstrained
  | .isNot => pure .unconstrained
  | op => refineNumeric env left op right

/-- What follows from the truth value of a condition that should have the given answer and that
constrains nothing by itself. -/
def refineTruth (value : Interval) (answer : Bool) : Refinement :=
  let value := if answer then value else value.truthValue.negation
  if value = .falsity then .infeasible else .unconstrained

/-- What follows if a variable, read as a condition, has the given answer. -/
def refineVariable (env : Environment) (x : Identifier) (answer : Bool) : Outcome Refinement := do
  let value ← evaluate env (.var x)
  let value := value.truthValue
  if answer then
    if value = .falsity || value.isBottom then return .infeasible
    else if x.type = .bool then return .single (some x) .truth
    else return .unconstrained
  else
    if value = .truth || value.isBottom then return .infeasible
    else if x.type.isNumeric then return .single (some x) .falsity
    else return .unconstrained

/-- What follows if a condition has the given answer. -/
def refineAnswer (env : Environment) : Expr → Bool → Outcome Refinement
  | .literal value, answer => do
    let value ← evaluate env (.literal value)
    return refineTruth value answer
  | .input type, answer => do
    let value ← evaluate env (.input type)
    return refineTruth value answer
  | .var x, answer => refineVariable env x answer
  | .not operand, answer => refineAnswer env operand !answer
  | .connective left op right, answer => do
    let left ← refineAnswer env left answer
    let right ← refineAnswer env right answer
    return .connective (if answer then op else op.dual) left right
  | .compare left op right, answer =>
    refineCompare env left (if answer then op else op.negated) right
  | e, answer =>
    if answer then pure .unconstrained
    else do
      let value ← evaluate env e
      return refineTruth value false

/-- What follows if a condition holds. -/
def refine (env : Environment) (condition : Expr) : Outcome Refinement :=
  refineAnswer env condition true

end FlowAnalysis
