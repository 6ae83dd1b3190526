import FlowAnalysis.Interval.State
import FlowAnalysis.Segment.Map

/-!
States of the segmented analysis.

Numbers and lengths are followed by their ranges, as in the interval analysis. The contents of a
list or dictionary are followed by a segmented container, so that an assignment to a single key
can replace what was known of it.
-/
namespace FlowAnalysis

/-- Whether the contents of a variable are followed. -/
def Identifier.isSegmented (x : Identifier) : Bool :=
  x.isPlain &&
    match x.type with
    | .list _ => true
    | .dict _ _ => true
    | _ => false

/-- Whether the keys of a container type are whole numbers. -/
def Ty.hasIntegralKeys (type : Ty) : Bool := type.keyType.isIntegral

/-- A state of the segmented analysis. -/
structure SegmentState where
  scalars : Store Interval
  contents : Store SegmentMap
  reachable : Bool
  result : Alternatives

namespace SegmentState

/-- Nothing is known about the contents of a container. -/
def anyContent (type : Ty) : SegmentMap := .full type.hasIntegralKeys

def noContent (type : Ty) : SegmentMap := .empty type.hasIntegralKeys

def ofVariables (vars : List Identifier) : SegmentState where
  scalars := .ofIdentifiers (vars.flatMap Identifier.scalars) Identifier.unknown
  contents := .ofIdentifiers (vars.filter Identifier.isSegmented) fun x => anyContent x.type
  reachable := true
  result := .empty

def scalar? (s : SegmentState) (x : Identifier) : Option Interval := s.scalars.get? x

def contents? (s : SegmentState) (container : Identifier) : Option SegmentMap :=
  s.contents.get? container

def value (s : SegmentState) (x : Identifier) : Interval := (s.scalar? x).getD x.unknown

/-- Sets the range of a number or a length if it is kept. -/
def setScalar (s : SegmentState) (x : Identifier) (range : Interval) : SegmentState :=
  if s.scalars.contains x then { s with scalars := s.scalars.insert x range } else s

def setContents (s : SegmentState) (container : Identifier) (content : SegmentMap) :
    SegmentState :=
  { s with contents := s.contents.insert container content }

/-- The keys that an index can mean among those that exist: a negative index of a list counts from
the end and can be any position. -/
def keyRegion (s : SegmentState) (container : Identifier) (key : Interval) : Interval :=
  match container.type with
  | .list _ =>
    let positions := Interval.of 0 ((s.value container.lengthOf).upper.sub 1)
    if key.lower < 0 then positions else key.meet positions
  | _ => key

/-- Whether a container is known to be empty. -/
def hasNone (s : SegmentState) (container : Identifier) : Bool :=
  (s.value container.lengthOf).upper = 0

/-- The range of what a container holds under a key. Keys outside every segment are absent. -/
def element (s : SegmentState) (container : Identifier) (key : Interval) : Interval :=
  if s.hasNone container then .bottom
  else
    match s.contents? container with
    | none => .top
    | some content =>
      let region := s.keyRegion container key
      if region.isBottom then .bottom
      else content.valuesAt (.spanning container.type.hasIntegralKeys region)

def members (s : SegmentState) (container : Identifier) (view : View) : Interval :=
  if s.hasNone container then .bottom
  else
    match s.contents? container with
    | none => .top
    | some content =>
      match view with
      | .keys => content.keys.interval
      | .values => content.values

def environment (s : SegmentState) : Environment := ⟨s.value, s.element, s.members⟩

instance : Extremal SegmentState where
  bottom s := ⟨Extremal.bottom s.scalars, Extremal.bottom s.contents, false, .empty⟩
  top s := ⟨Extremal.top s.scalars, Extremal.top s.contents, true, .empty⟩
  isBottom s := !s.reachable || Extremal.isBottom s.scalars || Extremal.isBottom s.contents
  isTop s := s.reachable && Extremal.isTop s.scalars && Extremal.isTop s.contents

/-- Bottom as soon as a number, a length or a container has no possible value. -/
def normalized (s : SegmentState) : SegmentState :=
  if s.scalars.values.any Interval.isBottom || Extremal.isBottom s.contents then Extremal.bottom s
  else s

/-- A reachable state over two stores. -/
def ofStores (scalars : Store Interval) (contents : Store SegmentMap) : SegmentState :=
  ⟨scalars, contents, true, .empty⟩

instance : Domain SegmentState where
  le s t := (Extremal.settledLe s t).getD
    (Domain.le s.scalars t.scalars && Domain.le s.contents t.contents)
  join s t := (Extremal.settledJoin s t).elim
    (do return ofStores (← Domain.join s.scalars t.scalars)
          (← Domain.join s.contents t.contents)) pure
  meet s t := (Extremal.settledMeet s t).elim
    (do return (ofStores (← Domain.meet s.scalars t.scalars)
          (← Domain.meet s.contents t.contents)).normalized) pure
  widen s t := (Extremal.settledJoin s t).elim
    (do return ofStores (← Domain.widen s.scalars t.scalars)
          (← Domain.widen s.contents t.contents)) pure

def joinedValues (s : SegmentState) : Expr → Interval
  | .var container => ((s.contents? container).map SegmentMap.values).getD .top
  | _ => .top

def joinedKeys (s : SegmentState) : Expr → Interval
  | .var container => ((s.contents? container).map fun content => content.keys.interval).getD .top
  | _ => .top

/-- A container with values of one range under any keys from zero up. -/
def spread (type : Ty) (values : Interval) : SegmentMap :=
  .ofSegments type.hasIntegralKeys [⟨.spanning type.hasIntegralKeys .nonNegative, values⟩]

/-- The contents of a list, item by item from position `i` on. -/
def listContent (s : SegmentState) (type : Ty) :
    Nat → List Expr → SegmentMap → Outcome SegmentMap
  | _, [], content => pure content
  | i, item :: rest, content => do
    let value ← evaluate s.environment item
    let key := Region.spanning type.hasIntegralKeys (.point (.fin (i : Int)))
    let content ← content.overwrite key value
    listContent s type (i + 1) rest content

/-- The contents of a dictionary, entry by entry. A later entry replaces an earlier one only if its
key is known exactly. -/
def dictContent (s : SegmentState) (type : Ty) :
    List Expr → List Expr → SegmentMap → Outcome SegmentMap
  | key :: keys, value :: values, content => do
    let region ← evaluate s.environment key
    let value ← evaluate s.environment value
    let region := Region.spanning type.hasIntegralKeys region
    let content ←
      if region.isSingleton then content.overwrite region value
      else content.insert region value
    dictContent s type keys values content
  | _, _, content => pure content

/-- The contents of a container of the given type. -/
def contentOf (s : SegmentState) (type : Ty) : Expr → Outcome SegmentMap
  | .var other => pure ((s.contents? other).getD (anyContent type))
  | .list _ items => s.listContent type 0 items (noContent type)
  | .dict _ keys values => s.dictContent type keys values (noContent type)
  | .range start stop step => do
    let start ← evaluate s.environment start
    let stop ← evaluate s.environment stop
    let step ← evaluate s.environment step
    return spread type (.stepsWithin start stop step)
  | .slice _ target _ _ _ => pure (spread type (s.joinedValues target))
  | .values target => pure (spread type (s.joinedValues target))
  | .keys target => pure (spread type (s.joinedKeys target))
  | .arithmetic _ left .add right =>
    pure (spread type ((s.joinedValues left).join (s.joinedValues right)))
  | _ => pure (anyContent type)

/-- The state after a whole container is assigned. The contents are read after the length is set. -/
def assignContainer (s : SegmentState) (container : Identifier) (value : Expr) :
    Outcome SegmentState := do
  let size ← length s.environment value
  let s := s.setScalar container.lengthOf size
  if s.contents.contains container then
    let content ←
      if size.upper = 0 then pure (noContent container.type)
      else s.contentOf container.type value
    return s.setContents container content
  else return s

/-- The length of a dictionary after an entry is assigned: one more if the key is new. -/
def grown (size : Interval) (fresh : Bool) : Interval :=
  .of (if fresh then size.lower.add 1 else size.lower.max 1) (size.upper.add 1)

/-- The state after the keys of a region are assigned. -/
def assignRegion (s : SegmentState) (container : Identifier) (content : SegmentMap)
    (key : Region) (value : Interval) : Outcome SegmentState := do
  let updated ←
    if key.isSingleton then content.overwrite key value else content.update [⟨key, value⟩]
  match container.type with
  | .dict _ _ =>
    let fresh := !content.keys.overlaps key
    return (s.setScalar container.lengthOf (grown (s.value container.lengthOf) fresh)).setContents
      container updated
  | _ => return s.setContents container updated

/-- The state after an item of a container is assigned, none if no execution goes on. -/
def assignItem (s : SegmentState) (container : Identifier) (key value : Expr) :
    Outcome (Option SegmentState) := do
  let key ← evaluate s.environment key
  let value ← evaluate s.environment value
  if key.isBottom || value.isBottom then return none
  else
    match s.contents? container with
    | none =>
      throw (.unsupported "fulara"
        ("item assignment to a value of type " ++ container.type.text))
    | some content =>
      let region := s.keyRegion container key
      if region.isBottom then return none
      else
        let key := Region.spanning container.type.hasIntegralKeys region
        let s ← s.assignRegion container content key value
        return some s

def assign (s : SegmentState) (left right : Expr) : Outcome SegmentState :=
  match left with
  | .var x =>
    if x.type.isNumeric then do
      let value ← evaluate s.environment right
      return (s.setScalar x value).normalized
    else if x.hasLength then do
      let s ← s.assignContainer x right
      return s.normalized
    else pure s.normalized
  | .item _ (.var container) key =>
    if container.hasLength then do
      match ← s.assignItem container key right with
      | some s => return s.normalized
      | none => return Extremal.bottom s
    else throw (.unsupported "fulara" ("assignment to " ++ left.text))
  | _ => throw (.unsupported "fulara" ("assignment to " ++ left.text))

/-- Narrows numbers and lengths to ranges, none if one of them has no value left. -/
def narrow? (s : SegmentState) : List (Identifier × Interval) → Option SegmentState
  | [] => some s
  | (x, range) :: rest =>
    let refined := (s.value x).meet range
    if refined.isBottom then none else narrow? (s.setScalar x refined) rest

def assume (s : SegmentState) (condition : Expr) : Outcome SegmentState := do
  match ← refine s.environment condition with
  | .infeasible => return Extremal.bottom s
  | .constrain ranges => return (s.narrow? ranges.entries).getD (Extremal.bottom s)

instance : StateDomain SegmentState Unit where
  result := result
  withResult s result := { s with result := result }
  assignOne := assign
  assumeOne := assume
  substituteOne _ left _ :=
    throw (.unsupported "fulara" ("backward substitution of " ++ left.text))
  outputOne s _ := pure s

/-- Whether two states are the same, results included. -/
def same (s t : SegmentState) : Bool :=
  s.scalars.same (fun a b => decide (a = b)) t.scalars
    && s.contents.same SegmentMap.same t.contents
    && s.reachable == t.reachable && s.result.same t.result

def text (s : SegmentState) : String :=
  if Extremal.isBottom s then "⊥"
  else
    s.scalars.text Interval.text
      ++ if s.contents.isEmpty then "" else " | " ++ s.contents.text SegmentMap.text

end SegmentState

end FlowAnalysis
