import FlowAnalysis.Interval.Arithmetic

/-!
Intervals of expressions.

An environment answers three questions about the variables of a program: the range of a number or
a length, the range of what a container holds under some key, and the range of all its keys or
values. From these follow the range of the numeric value of any expression and the range of the
length of any sequence or container. Values that are not numbers are not followed and evaluate to
top; an operand that cannot have a value is bottom and makes the whole expression bottom.
-/
namespace FlowAnalysis

/-- What an abstract state knows about the variables of a program. -/
structure Environment where
  /-- The range of a number or a length. -/
  value : Identifier → Interval
  /-- The range of what a container holds under a key, bottom if there is no such key. -/
  element : Identifier → Interval → Interval
  /-- The range of all keys or of all values, bottom if there are none. -/
  members : Identifier → View → Interval

namespace Environment

/-- The range of what a container holds, top unless it is a number or infeasible. -/
def itemOf (env : Environment) (type : Ty) (target : Expr) (key : Interval) : Interval :=
  match target with
  | .var container =>
    if container.hasLength then
      let element := env.element container key
      if type.isNumeric || element.isBottom then element else .top
    else .top
  | _ => .top

end Environment

namespace Interval

def arithmetic : Arithmetic → Interval → Interval → Interval
  | .add, a, b => a.add b
  | .sub, a, b => a.sub b
  | .mul, a, b => a.mul b
  | .div, a, b => a.div b

/-- The number of distinct items among `n` that may be equal. -/
def distinct (n : Nat) : Interval := of (if n = 0 then 0 else 1) (.fin (n : Int))

/-- The number of steps from `start` to `stop`, known only if all three ends are. -/
def stepCount (start stop step : Interval) : Interval :=
  if start.isSingleton && stop.isSingleton && step.isSingleton then
    match step.lower with
    | .fin d =>
      if d = 0 then nonNegative
      else point (((stop.lower.sub start.lower).divBy d).ceil.max 0)
    | _ => nonNegative
  else nonNegative

/-- The numbers from `start` up to but not including `stop`, if the steps go upwards. -/
def stepsWithin (start stop step : Interval) : Interval :=
  if 0 < step.lower then of start.lower (stop.upper.sub 1) else top

end Interval

mutual

/-- The range of the numeric value of an expression. -/
def evaluate (env : Environment) : Expr → Outcome Interval
  | .literal value =>
    match value.number? with
    | some x => pure (.ofDoubles x x)
    | none => pure .top
  | .var x => pure (if x.type.isNumeric then env.value x else .top)
  | .input type => pure (if type = .bool then .maybe else .top)
  | .list _ _ => pure .top
  | .set _ _ => pure .top
  | .dict _ _ _ => pure .top
  | .range _ _ _ => pure .top
  | .length target => length env target
  | .keys _ => pure .top
  | .values _ => pure .top
  | .field _ target name =>
    throw (.unsupported "interval" ("attribute reference " ++ target.text ++ "." ++ name))
  | .item type target key => do
    let key ← evaluate env key
    return env.itemOf type target key
  | .slice _ _ _ _ _ => pure .top
  | .signed _ sign operand => do
    let value ← evaluate env operand
    match sign with
    | .plus => return value
    | .minus => return value.neg
  | .not operand => do
    let value ← evaluate env operand
    return value.truthValue.negation
  | .arithmetic type left op right =>
    if type.isNumeric then do
      let left ← evaluate env left
      let right ← evaluate env right
      return .arithmetic op left right
    else pure .top
  | .connective left op right => do
    let left ← evaluate env left
    let right ← evaluate env right
    return .connective op left.truthValue right.truthValue
  | .compare left op right =>
    if left.type.isNumeric && right.type.isNumeric then do
      let left ← evaluate env left
      let right ← evaluate env right
      return .comparison op left right
    else pure .maybe

/-- The range of the length of a sequence or container. -/
def length (env : Environment) : Expr → Outcome Interval
  | .var x => pure (if x.hasLength then env.value x.lengthOf else .nonNegative)
  | .literal (.str value) => pure (.point (.fin (value.length : Int)))
  | .list _ items => pure (.point (.fin (items.length : Int)))
  | .set _ items => pure (.distinct items.length)
  | .dict _ keys _ => pure (.distinct keys.length)
  | .range start stop step => do
    let start ← evaluate env start
    let stop ← evaluate env stop
    let step ← evaluate env step
    return .stepCount start stop step
  | .keys target => length env target
  | .values target => length env target
  | .slice _ target _ _ _ => do
    let whole ← length env target
    return .of 0 whole.upper
  | .arithmetic type left .add right =>
    if type.isSequence then do
      let left ← length env left
      let right ← length env right
      return left.add right
    else pure .nonNegative
  | _ => pure .nonNegative

end

/-- The join of the ranges of several expressions, bottom if there are none. -/
def evaluateJoined (env : Environment) (items : List Expr) : Outcome Interval :=
  items.foldlM (fun joined item => do
    let value ← evaluate env item
    return joined.join value) .bottom

end FlowAnalysis
