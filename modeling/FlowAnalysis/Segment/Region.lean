import FlowAnalysis.Interval.Basic

/-!
Regions of container keys.

A region is an interval of keys, either of whole numbers or of arbitrary ones. The whole numbers of
a region that lie outside another one form at most two regions again, so a region of whole numbers
can be split exactly; an arbitrary one cannot.
-/
namespace FlowAnalysis

/-- A range of keys. -/
structure Region where
  interval : Interval
  /-- Whether only the whole numbers of the range are meant. -/
  integral : Bool
  deriving DecidableEq

namespace Region

/-- The region of one kind or the other over an interval; bounds of a region of whole numbers are
rounded inwards. -/
def spanning (integral : Bool) (interval : Interval) : Region :=
  ⟨if integral then interval.integral else interval, integral⟩

def withInterval (r : Region) (interval : Interval) : Region := spanning r.integral interval

instance : Extremal Region where
  bottom r := ⟨.bottom, r.integral⟩
  top r := ⟨.top, r.integral⟩
  isBottom r := r.interval.isBottom
  isTop r := r.interval.isTop

def isBottom (r : Region) : Bool := r.interval.isBottom

def isSingleton (r : Region) : Bool := !r.isBottom && r.interval.isSingleton

/-- A region made from two: of whole numbers only if both are. -/
def combined (r s : Region) (interval : Interval) : Region :=
  spanning (r.integral && s.integral) interval

def le (r s : Region) : Bool := (Extremal.settledLe r s).getD (r.interval.le s.interval)

def join (r s : Region) : Region :=
  (Extremal.settledJoin r s).getD (combined r s (r.interval.join s.interval))

def meet (r s : Region) : Region :=
  (Extremal.settledMeet r s).getD (combined r s (r.interval.meet s.interval))

def widen (r s : Region) : Region :=
  (Extremal.settledJoin r s).getD (combined r s (r.interval.widen s.interval))

/-- The join of several regions; with none of them, the empty region of the kind of `r`. -/
def joinAll (r : Region) (regions : List Region) : Region :=
  regions.foldl join (Extremal.bottom r)

def overlaps (r s : Region) : Bool := !(r.meet s).isBottom

/-- Whole numbers from this magnitude on do not have both neighbours among the doubles. -/
def exactIntegers : Rat := (2 : Rat) ^ (53 : Int)

/-- Whether a bound is finite and too large to be moved by one. -/
def isInexact : Bound → Bool
  | .fin q => exactIntegers ≤ q.abs
  | _ => false

/-- The parts of a region of whole numbers that lie below and above an interval inside it. -/
def around (r : Region) (inner : Interval) : List Region :=
  let below := if r.interval.lower < inner.lower
    then [⟨.of r.interval.lower (inner.lower.sub 1), r.integral⟩] else []
  let above := if inner.upper < r.interval.upper
    then [⟨.of (inner.upper.add 1) r.interval.upper, r.integral⟩] else []
  (below ++ above).filter fun piece => !piece.isBottom

/-- The parts of `r` outside `s`, none if they are not a list of regions. -/
def without? (r s : Region) : Option (List Region) :=
  if r.integral then
    let shared := (r.interval.meet s.interval).integral
    if shared.isBottom then some [r]
    else if isInexact shared.lower || isInexact shared.upper then none
    else some (r.around shared)
  else none

def text (r : Region) : String := r.interval.text

end Region

end FlowAnalysis
