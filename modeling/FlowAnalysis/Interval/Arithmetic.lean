import FlowAnalysis.Interval.Basic

/-!
Arithmetic and truth of intervals.

Each operation gives an interval that holds every finite result on members of its operands, and
bottom if an operand is bottom or no result is finite. Quotients are not followed. A number counts
as true unless it is zero.
-/
namespace FlowAnalysis.Interval

protected def neg (a : Interval) : Interval :=
  if a.isBottom then a else of a.upper.neg a.lower.neg

protected def add (a b : Interval) : Interval :=
  if a.isBottom || b.isBottom then bottom else of (a.lower.add b.lower) (a.upper.add b.upper)

protected def sub (a b : Interval) : Interval :=
  if a.isBottom || b.isBottom then bottom else of (a.lower.sub b.upper) (a.upper.sub b.lower)

def corners (a b : Interval) : List Bound :=
  [a.lower.mul b.lower, a.lower.mul b.upper, a.upper.mul b.lower, a.upper.mul b.upper]

/-- From the least to the greatest product of bounds. -/
protected def mul (a b : Interval) : Interval :=
  if a.isBottom || b.isBottom then bottom
  else of ((corners a b).foldl .min .posInf) ((corners a b).foldl .max .negInf)

protected def div (a b : Interval) : Interval :=
  if a.isBottom || b.isBottom then bottom else top

/-- The truth value of the numbers of an interval. -/
def truthValue (a : Interval) : Interval :=
  if a.isBottom || a = falsity then a
  else if a.contains 0 then maybe
  else truth

def negation (a : Interval) : Interval :=
  if a = truth then falsity else if a = falsity then truth else a

def connective (op : Connective) (a b : Interval) : Interval :=
  if a.isBottom || b.isBottom then bottom
  else
    match op with
    | .and =>
      if a = falsity || b = falsity then falsity
      else if a = truth && b = truth then truth
      else maybe
    | .or =>
      if a = truth || b = truth then truth
      else if a = falsity && b = falsity then falsity
      else maybe

/-- Whether a comparison holds for all members of two intervals that are not bottom, and whether it
fails for all of them. -/
def verdict (op : Comparison) (a b : Interval) : Bool × Bool :=
  match op with
  | .lt => (a.upper < b.lower, b.upper ≤ a.lower)
  | .le => (a.upper ≤ b.lower, b.upper < a.lower)
  | .gt => (b.upper < a.lower, a.upper ≤ b.lower)
  | .ge => (b.upper ≤ a.lower, a.upper < b.lower)
  | .eq | .is => (a.isSingleton && a = b, (a.meet b).isBottom)
  | .ne | .isNot => ((a.meet b).isBottom, a.isSingleton && a = b)
  | .isIn | .notIn => (false, false)

/-- The truth value of a comparison between members of two intervals. -/
def comparison (op : Comparison) (a b : Interval) : Interval :=
  if a.isBottom || b.isBottom then bottom
  else if (verdict op a b).1 then truth
  else if (verdict op a b).2 then falsity
  else maybe

end FlowAnalysis.Interval
