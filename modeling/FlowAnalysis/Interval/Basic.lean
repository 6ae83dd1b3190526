import FlowAnalysis.Domain
import FlowAnalysis.Number.Double

/-!
Intervals of numbers.

An interval holds the numbers between its two bounds, and bottom is the empty one, always written
`[∞, -∞]`. A range that lies entirely at an infinity holds no finite number and counts as empty,
so every interval other than bottom has a lower bound below `∞` and an upper bound above `-∞`.
Truth values are intervals as well: false is zero, true is one.
-/
namespace FlowAnalysis

/-- The bounds of an interval: those of a range that is not empty, or those of bottom. -/
def Canonical (lower upper : Bound) : Prop :=
  (lower ≤ upper ∧ lower ≠ .posInf ∧ upper ≠ .negInf) ∨ (lower = .posInf ∧ upper = .negInf)

/-- The numbers between two bounds. -/
structure Interval where
  lower : Bound
  upper : Bound
  canonical : Canonical lower upper
  deriving DecidableEq

namespace Interval

def bottom : Interval := ⟨.posInf, .negInf, .inr ⟨rfl, rfl⟩⟩

def top : Interval := ⟨.negInf, .posInf, .inl ⟨rfl, nofun, nofun⟩⟩

instance : Inhabited Interval := ⟨top⟩

/-- The numbers from `lower` to `upper`, bottom if there are none. -/
def of (lower upper : Bound) : Interval :=
  if h : lower ≤ upper ∧ lower ≠ .posInf ∧ upper ≠ .negInf then ⟨lower, upper, .inl h⟩
  else bottom

/-- The interval between two doubles, bottom if one is not a number. -/
def ofDoubles (lower upper : Double) : Interval :=
  match lower.bound?, upper.bound? with
  | some lower, some upper => of lower upper
  | _, _ => bottom

def point (value : Bound) : Interval := of value value

/-- Every number from zero up, the range of a length. -/
def nonNegative : Interval := of 0 .posInf

def isBottom (a : Interval) : Bool := a.upper < a.lower

def isTop (a : Interval) : Bool := a.lower = .negInf && a.upper = .posInf

def isSingleton (a : Interval) : Bool := a.lower = a.upper

def contains (a : Interval) (value : Bound) : Bool := a.lower ≤ value && value ≤ a.upper

/-- The whole numbers of an interval. -/
def integral (a : Interval) : Interval :=
  if a.isBottom then a else of a.lower.ceil a.upper.floor

def le (a b : Interval) : Bool := b.lower ≤ a.lower && a.upper ≤ b.upper

/-- The least interval that holds both. -/
def join (a b : Interval) : Interval := of (a.lower.min b.lower) (a.upper.max b.upper)

def meet (a b : Interval) : Interval := of (a.lower.max b.lower) (a.upper.min b.upper)

/-- A bound that `b` moves outwards goes to its infinity. -/
def widen (a b : Interval) : Interval :=
  if a.isBottom then b
  else if b.isBottom then a
  else
    of (if b.lower < a.lower then .negInf else a.lower)
      (if a.upper < b.upper then .posInf else a.upper)

def joinAll (intervals : List Interval) : Interval := intervals.foldl join bottom

def meetAll (intervals : List Interval) : Interval := intervals.foldl meet top

instance : Domain Interval where
  bottom _ := bottom
  top _ := top
  isBottom := isBottom
  isTop := isTop
  le := le
  join a b := pure (a.join b)
  meet a b := pure (a.meet b)
  widen a b := pure (a.widen b)

def falsity : Interval := point 0

def truth : Interval := point 1

def maybe : Interval := of 0 1

def text (a : Interval) : String :=
  if a.isBottom then "⊥" else "[" ++ a.lower.plain ++ ", " ++ a.upper.plain ++ "]"

end Interval

end FlowAnalysis
