/-!
Bounds of numeric ranges, and their arithmetic in double precision.

A bound is a rational number or one of the two infinities. Every operation computes the exact
rational result and then rounds it to the nearest double, so that a sum of two doubles is the
double nearest to their sum, and a result past the largest double is an infinity. Negative zero
and the undefined results of `∞ - ∞` have no place here: a range never ends at either of them.
-/
namespace FlowAnalysis

/-- An end of a numeric range. -/
inductive Bound where
  | negInf
  | fin (value : Rat)
  | posInf
  deriving DecidableEq

namespace Bound

protected def le : Bound → Bound → Bool
  | negInf, _ => true
  | _, posInf => true
  | fin a, fin b => decide (a ≤ b)
  | _, _ => false

instance : LE Bound := ⟨fun a b => a.le b = true⟩

instance : LT Bound := ⟨fun a b => b.le a = false⟩

instance (a b : Bound) : Decidable (a ≤ b) := inferInstanceAs (Decidable (a.le b = true))

instance (a b : Bound) : Decidable (a < b) := inferInstanceAs (Decidable (b.le a = false))

instance (n : Nat) : OfNat Bound n := ⟨fin (n : Int)⟩

protected def min (a b : Bound) : Bound := if a ≤ b then a else b

protected def max (a b : Bound) : Bound := if a ≤ b then b else a

/-- The integer nearest to `q`, and the even one of two that are equally near. -/
def nearestInt (q : Rat) : Int :=
  let low := q.floor
  let rest := 2 * (q - low)
  if rest < 1 then low
  else if 1 < rest then low + 1
  else if low % 2 = 0 then low
  else low + 1

/-- The exponent `e` of the binade `2 ^ e ≤ |q| < 2 ^ (e + 1)` of a nonzero `q`. -/
def binade (q : Rat) : Int :=
  let e : Int := (q.num.natAbs.log2 : Int) - (q.den.log2 : Int)
  if (2 : Rat) ^ e ≤ q.abs then e else e - 1

/-- Doubles near `q` are the multiples of `2 ^ ulpExponent q`: 53 significant bits, and nothing
finer than `2 ^ (-1074)`. -/
def ulpExponent (q : Rat) : Int :=
  let e := binade q - 52
  if e < -1074 then -1074 else e

/-- The magnitude at which rounding leaves the finite doubles. -/
def overflow : Rat := (2 : Rat) ^ (1024 : Int)

/-- The double nearest to `q`, ties to the even significand, an infinity past the largest one. -/
def round (q : Rat) : Bound :=
  let ulp := (2 : Rat) ^ ulpExponent q
  let nearest := (nearestInt (q / ulp) : Rat) * ulp
  if overflow ≤ nearest then posInf
  else if nearest ≤ -overflow then negInf
  else fin nearest

protected def neg : Bound → Bound
  | negInf => posInf
  | fin a => fin (-a)
  | posInf => negInf

/-- The rounded sum. Opposite infinities are never added. -/
protected def add : Bound → Bound → Bound
  | negInf, _ => negInf
  | _, negInf => negInf
  | posInf, _ => posInf
  | _, posInf => posInf
  | fin a, fin b => round (a + b)

protected def sub (a b : Bound) : Bound := a.add b.neg

/-- An infinity of the sign of `q`, or zero. -/
def scaledInfinity (q : Rat) : Bound :=
  if q = 0 then 0 else if q < 0 then negInf else posInf

/-- The rounded product, where zero times an infinity is zero. -/
protected def mul : Bound → Bound → Bound
  | fin a, fin b => round (a * b)
  | fin a, posInf => scaledInfinity a
  | fin a, negInf => scaledInfinity (-a)
  | posInf, fin b => scaledInfinity b
  | negInf, fin b => scaledInfinity (-b)
  | posInf, posInf => posInf
  | negInf, negInf => posInf
  | posInf, negInf => negInf
  | negInf, posInf => negInf

/-- The rounded quotient by a finite nonzero number. -/
def divBy (a : Bound) (d : Rat) : Bound :=
  match a with
  | fin a => round (a / d)
  | posInf => scaledInfinity d
  | negInf => scaledInfinity (-d)

def floor : Bound → Bound
  | fin a => fin (a.floor : Rat)
  | a => a

def ceil : Bound → Bound
  | fin a => fin (a.ceil : Rat)
  | a => a

end Bound

end FlowAnalysis
