import FlowAnalysis.Analysis.State
import FlowAnalysis.Interval.Refine
import FlowAnalysis.Store

/-!
States of the interval analysis.

A number is followed by its range. A sequence or container is followed by the range of its length
and a container also by one range for all its keys and one for all its values. An empty container
has a length of zero and unknown summaries: a summary says nothing about the empty case.
-/
namespace FlowAnalysis

/-- The identifiers kept for a numeric variable or for the length of a variable. -/
def Identifier.scalars (x : Identifier) : List Identifier :=
  (if x.type.isNumeric then [x] else []) ++ (if x.hasLength then [x.lengthOf] else [])

/-- The identifiers kept for the contents of a variable. -/
def Identifier.summaries (x : Identifier) : List Identifier :=
  if x.hasLength && x.type.isContainer then [x.keysOf, x.valuesOf] else []

/-- The range of an identifier of which nothing is known. -/
def Identifier.unknown (x : Identifier) : Interval :=
  match x.role with
  | .length => .nonNegative
  | _ => .top

/-- A state of the interval analysis. -/
structure IntervalState where
  store : Store Interval
  reachable : Bool
  result : Alternatives

namespace IntervalState

/-- All identifiers kept for a variable. -/
def tracked (x : Identifier) : List Identifier := x.scalars ++ x.summaries

def ofVariables (vars : List Identifier) : IntervalState :=
  ⟨.ofIdentifiers (vars.flatMap tracked) Identifier.unknown, true, .empty⟩

def get? (s : IntervalState) (x : Identifier) : Option Interval := s.store.get? x

def value (s : IntervalState) (x : Identifier) : Interval := (s.get? x).getD x.unknown

/-- Sets the range of an identifier if it is kept. -/
def set (s : IntervalState) (x : Identifier) (range : Interval) : IntervalState :=
  if s.store.contains x then { s with store := s.store.insert x range } else s

/-- Whether a container is known to be empty. -/
def hasNone (s : IntervalState) (container : Identifier) : Bool :=
  (s.value container.lengthOf).upper = 0

def element (s : IntervalState) (container : Identifier) (key : Interval) : Interval :=
  if s.hasNone container then .bottom
  else
    match container.type with
    | .dict _ _ =>
      if ((s.value container.keysOf).meet key).isBottom then .bottom
      else s.value container.valuesOf
    | _ => s.value container.valuesOf

def members (s : IntervalState) (container : Identifier) (view : View) : Interval :=
  if s.hasNone container then .bottom
  else
    match view with
    | .keys => s.value container.keysOf
    | .values => s.value container.valuesOf

def environment (s : IntervalState) : Environment := ⟨s.value, s.element, s.members⟩

def enterScope (s : IntervalState) (vars : List Identifier) : IntervalState :=
  let add (store : Store Interval) (x : Identifier) : Store Interval :=
    if store.contains x then store else store.insert x x.unknown
  { s with store := (vars.flatMap tracked).foldl add s.store }

def exitScope (s : IntervalState) (vars : List Identifier) : IntervalState :=
  { s with store := (vars.flatMap tracked).foldl OrderedMap.erase s.store }

instance : Extremal IntervalState where
  bottom s := ⟨Extremal.bottom s.store, false, .empty⟩
  top s := ⟨Extremal.top s.store, true, .empty⟩
  isBottom s := !s.reachable || Extremal.isBottom s.store
  isTop s := s.reachable && Extremal.isTop s.store

/-- Bottom as soon as an identifier has no possible value, lengths included. -/
def normalized (s : IntervalState) : IntervalState :=
  if s.store.values.any Interval.isBottom then Extremal.bottom s else s

/-- A reachable state over a store. -/
def ofStore (store : Store Interval) : IntervalState := ⟨store, true, .empty⟩

instance : Domain IntervalState where
  le s t := (Extremal.settledLe s t).getD (Domain.le s.store t.store)
  join s t := (Extremal.settledJoin s t).elim
    (do return ofStore (← Domain.join s.store t.store)) pure
  meet s t := (Extremal.settledMeet s t).elim
    (do return (ofStore (← Domain.meet s.store t.store)).normalized) pure
  widen s t := (Extremal.settledJoin s t).elim
    (do return ofStore (← Domain.widen s.store t.store)) pure

/-- The ranges of the keys and of the values of a container. -/
def summariesOf (s : IntervalState) : Expr → Outcome (Interval × Interval)
  | .var x =>
    pure (if x.hasLength then (s.value x.keysOf, s.value x.valuesOf) else (.top, .top))
  | .list _ items => do
    let values ← evaluateJoined s.environment items
    return (.of 0 (.fin ((items.length : Int) - 1 : Int)), values)
  | .set _ items => do
    let members ← evaluateJoined s.environment items
    return (members, members)
  | .dict _ keys values => do
    let keys ← evaluateJoined s.environment keys
    let values ← evaluateJoined s.environment values
    return (keys, values)
  | .range start stop step => do
    let start ← evaluate s.environment start
    let stop ← evaluate s.environment stop
    let step ← evaluate s.environment step
    return (.nonNegative, .stepsWithin start stop step)
  | .slice _ target _ _ _ => do
    let (_, values) ← summariesOf s target
    return (.nonNegative, values)
  | .arithmetic _ left .add right => do
    let (_, left) ← summariesOf s left
    let (_, right) ← summariesOf s right
    return (.nonNegative, left.join right)
  | .keys target => do
    let (keys, _) ← summariesOf s target
    return (keys, keys)
  | .values target => do
    let (_, values) ← summariesOf s target
    let size ← length s.environment target
    return (.of 0 (size.upper.sub 1), values)
  | _ => pure (.top, .top)

/-- The summary of a container without elements says nothing. -/
def summary (range : Interval) : Interval := if range.isBottom then .top else range

/-- The state after a whole container is assigned. -/
def assignContainer (s : IntervalState) (container : Identifier) (value : Expr) :
    Outcome IntervalState := do
  let size ← length s.environment value
  let (keys, values) ← s.summariesOf value
  return ((s.set container.lengthOf size).set container.keysOf (summary keys)).set
    container.valuesOf (summary values)

/-- The state after an item of a dictionary is assigned. The first item of an empty dictionary is
all that it holds. -/
def assignEntry (s : IntervalState) (container : Identifier) (key value : Interval) :
    IntervalState :=
  let size := s.value container.lengthOf
  if size.upper = 0 then
    ((s.set container.keysOf key).set container.valuesOf value).set container.lengthOf (.point 1)
  else
    let keys := (s.value container.keysOf).join key
    let values := (s.value container.valuesOf).join value
    ((s.set container.keysOf keys).set container.valuesOf values).set container.lengthOf
      (.of (size.lower.max 1) (size.upper.add 1))

/-- The state after an item of a container is assigned, none if no execution goes on. -/
def assignItem (s : IntervalState) (container : Identifier) (key value : Expr) :
    Outcome (Option IntervalState) := do
  let key ← evaluate s.environment key
  let value ← evaluate s.environment value
  if key.isBottom || value.isBottom then return none
  else
    match container.type with
    | .dict _ _ => return some (s.assignEntry container key value)
    | .list _ =>
      if s.hasNone container then return none
      else return some (s.set container.valuesOf ((s.value container.valuesOf).join value))
    | type => throw (.unsupported "interval" ("item assignment to a value of type " ++ type.text))

def assign (s : IntervalState) (left right : Expr) : Outcome IntervalState :=
  match left with
  | .var x =>
    if x.type.isNumeric then do
      let value ← evaluate s.environment right
      return (s.set x value).normalized
    else if x.hasLength then do
      let s ← s.assignContainer x right
      return s.normalized
    else pure s.normalized
  | .item _ (.var container) key =>
    if container.hasLength then do
      match ← s.assignItem container key right with
      | some s => return s.normalized
      | none => return Extremal.bottom s
    else throw (.unsupported "interval" ("assignment to " ++ left.text))
  | _ => throw (.unsupported "interval" ("assignment to " ++ left.text))

/-- Narrows identifiers to ranges, none if one of them has no value left. -/
def narrow? (s : IntervalState) : List (Identifier × Interval) → Option IntervalState
  | [] => some s
  | (x, range) :: rest =>
    let refined := (s.value x).meet range
    if refined.isBottom then none else narrow? (s.set x refined) rest

def assume (s : IntervalState) (condition : Expr) : Outcome IntervalState := do
  match ← refine s.environment condition with
  | .infeasible => return Extremal.bottom s
  | .constrain ranges => return (s.narrow? ranges.entries).getD (Extremal.bottom s)

instance : StateDomain IntervalState Unit where
  result := result
  withResult s result := { s with result := result }
  assignOne := assign
  assumeOne := assume
  substituteOne _ left _ :=
    throw (.unsupported "interval" ("backward substitution of " ++ left.text))
  outputOne s _ := pure s

/-- Whether two states are the same, results included. -/
def same (s t : IntervalState) : Bool :=
  s.store.same (fun a b => decide (a = b)) t.store && s.reachable == t.reachable
    && s.result.same t.result

def text (s : IntervalState) : String :=
  if Extremal.isBottom s then "⊥" else s.store.text Interval.text

end IntervalState

end FlowAnalysis
