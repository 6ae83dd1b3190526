import FlowAnalysis.Proofs.Interval.Arithmetic

/-!
Arithmetic of doubles, and that intervals follow it. Results are rounded to the nearest double. They have signed
zeros and infinities, and some are not a number: a sum of opposite infinities, a product of zero and an infinity, a
quotient of zeros or of infinities. Bounds leave these cases out, so here the operations are written out with them.

Whatever the bounds of two intervals are, a finite result on finite members of them is a member of the result on the
intervals. Between finite members an operation rounds the exact result, and rounding is monotone.
-/

namespace FlowAnalysis

namespace Double

variable {x y : Double} {p q : Rat}

/-- Whether the sign bit is set. Of the zeros only the negative one has it. -/
def isNegative : Double → Bool
  | nan => false
  | negZero => true
  | number b => b < 0

def isFinite (x : Double) : Bool :=
  match x.bound? with
  | some (.fin _) => true
  | _ => false

/-- The double nearest to `q`, where a zero has the given sign. -/
def nearest (negative : Bool) (q : Rat) : Double :=
  match Bound.round q with
  | .fin r => if negative && r = 0 then negZero else number (.fin r)
  | b => number b

def infinity (negative : Bool) : Double := number (if negative then .negInf else .posInf)

protected def neg : Double → Double
  | nan => nan
  | negZero => number 0
  | number b => if b = 0 then negZero else number b.neg

/-- The rounded sum. A sum that is zero is positive unless both summands are negative. -/
protected def add (x y : Double) : Double :=
  match x.bound?, y.bound? with
  | some (.fin p), some (.fin q) => nearest (x.isNegative && y.isNegative) (p + q)
  | some b, some c => if b = c.neg then nan else number (b.add c)
  | _, _ => nan

protected def sub (x y : Double) : Double := x.add y.neg

protected def mul (x y : Double) : Double :=
  let negative := x.isNegative != y.isNegative
  match x.bound?, y.bound? with
  | some (.fin p), some (.fin q) => nearest negative (p * q)
  | some b, some c => if b = 0 || c = 0 then nan else infinity negative
  | _, _ => nan

/-- The rounded quotient. What is not zero has an infinite quotient by zero, and what is finite a zero one by an
infinity. -/
protected def div (x y : Double) : Double :=
  let negative := x.isNegative != y.isNegative
  match x.bound?, y.bound? with
  | some (.fin p), some (.fin q) =>
    if q ≠ 0 then nearest negative (p / q) else if p = 0 then nan else infinity negative
  | some (.fin _), some _ => nearest negative 0
  | some _, some (.fin _) => infinity negative
  | _, _ => nan

theorem isFinite_iff : x.isFinite = true ↔ ∃ q, x.bound? = some (.fin q) := by
  unfold isFinite
  split
  · rename_i q h
    exact ⟨fun _ => ⟨q, h⟩, fun _ => rfl⟩
  · rename_i h
    exact ⟨fun hfalse => absurd hfalse Bool.false_ne_true, fun ⟨q, hq⟩ => absurd hq (h q)⟩

theorem bound?_nearest (negative : Bool) (q : Rat) : (nearest negative q).bound? = some (Bound.round q) := by
  unfold nearest
  split
  · rename_i r hr
    rw [hr]
    split
    · rename_i hzero
      rw [Bool.and_eq_true, decide_eq_true_iff] at hzero
      rw [hzero.2]
      rfl
    · rfl
  · rfl

theorem bound?_neg (hx : x.bound? = some (.fin p)) : x.neg.bound? = some (.fin (-p)) := by
  cases x with
  | nan => cases hx
  | negZero =>
      obtain rfl : 0 = p := Bound.fin.inj (Option.some.inj hx)
      rfl
  | number b =>
      obtain rfl : b = .fin p := Option.some.inj hx
      rw [Double.neg]
      split
      · rename_i hzero
        obtain rfl : p = 0 := Bound.fin.inj hzero
        rfl
      · rfl

theorem bound?_add (hx : x.bound? = some (.fin p)) (hy : y.bound? = some (.fin q)) :
    (x.add y).bound? = some (Bound.round (p + q)) := by
  rw [Double.add, hx, hy]
  exact bound?_nearest _ _

theorem bound?_sub (hx : x.bound? = some (.fin p)) (hy : y.bound? = some (.fin q)) :
    (x.sub y).bound? = some (Bound.round (p - q)) := by
  rw [Double.sub, sub_eq_add_neg]
  exact bound?_add hx (bound?_neg hy)

theorem bound?_mul (hx : x.bound? = some (.fin p)) (hy : y.bound? = some (.fin q)) :
    (x.mul y).bound? = some (Bound.round (p * q)) := by
  rw [Double.mul, hx, hy]
  exact bound?_nearest _ _

end Double

namespace Interval

variable {a b : Interval} {lower upper lower' upper' x y : Double} {q : Rat}

/-- Whether a double lies between the bounds. What is not a number never does. -/
def holds (a : Interval) (x : Double) : Bool := x.bound?.any a.contains

theorem holds_iff (hx : x.bound? = some (.fin q)) : a.holds x = true ↔ q ∈ a := by
  rw [holds, hx]
  exact Iff.rfl

/-- A double that is finite and has the given bound is held where each finite number with that bound is. -/
theorem holds_of_finite {bound : Bound} (hbound : x.bound? = some bound) (hfinite : x.isFinite = true)
    (h : ∀ z, bound = .fin z → z ∈ a) : a.holds x = true := by
  obtain ⟨z, hz⟩ := Double.isFinite_iff.1 hfinite
  exact (holds_iff hz).2 (h z (Option.some.inj (hbound.symm.trans hz)))

/-- Arithmetic of intervals follows arithmetic of doubles: with finite members as operands, a finite result is a
member of the result on the intervals. -/
theorem holds_arithmetic (hx : x.isFinite = true) (hy : y.isFinite = true)
    (hxa : (ofDoubles lower upper).holds x = true) (hyb : (ofDoubles lower' upper').holds y = true) :
    let a := ofDoubles lower upper
    let b := ofDoubles lower' upper'
    ((x.add y).isFinite = true → (a.add b).holds (x.add y) = true) ∧
    ((x.sub y).isFinite = true → (a.sub b).holds (x.sub y) = true) ∧
    ((x.mul y).isFinite = true → (a.mul b).holds (x.mul y) = true) ∧
    a.neg.holds x.neg = true ∧
    ((x.div y).isFinite = true → (a.div b).holds (x.div y) = true) := by
  obtain ⟨p, hp⟩ := Double.isFinite_iff.1 hx
  obtain ⟨q, hq⟩ := Double.isFinite_iff.1 hy
  rw [holds_iff hp] at hxa
  rw [holds_iff hq] at hyb
  refine ⟨fun h => ?_, fun h => ?_, fun h => ?_, ?_, fun h => ?_⟩
  · exact holds_of_finite (Double.bound?_add hp hq) h fun z hz => mem_add hxa hyb hz
  · exact holds_of_finite (Double.bound?_sub hp hq) h fun z hz => mem_sub hxa hyb hz
  · exact holds_of_finite (Double.bound?_mul hp hq) h fun z hz => mem_mul hxa hyb hz
  · exact (holds_iff (Double.bound?_neg hp)).2 (mem_neg hxa)
  · -- Quotients are not followed, and all that is finite is held.
    obtain ⟨z, hz⟩ := Double.isFinite_iff.1 h
    exact (holds_iff hz).2 (mem_div hxa hyb z)

/-- From negative zero up to `2 ^ 53` and from an infinity up to one: at the upper ends the sum is rounded back, and
negative zero times a negative number is zero. -/
theorem holds_arithmetic_halfInfinite :
    let a := ofDoubles .negZero (.number (.fin (2 ^ 53)))
    let b := ofDoubles (.number .negInf) (.number 1)
    let x := Double.number (.fin (2 ^ 53))
    (x.add (.number 1) = x ∧ (a.add b).upper = .fin (2 ^ 53) ∧ (a.add b).holds x = true) ∧
    (Double.negZero.mul (.number (.fin (-3))) = .number 0 ∧ (a.mul b).lower = .negInf ∧
      (a.mul b).holds (.number 0) = true ∧ a.neg.holds (.number 0) = true) := by
  intro a b x
  obtain ⟨hadd, -⟩ := holds_arithmetic (x := x) (y := .number 1) rfl rfl
    (show a.holds x = true by decide +kernel) (show b.holds (.number 1) = true by decide +kernel)
  obtain ⟨-, -, hmul, hneg, -⟩ := holds_arithmetic (x := .negZero) (y := .number (.fin (-3))) rfl rfl
    (show a.holds .negZero = true by decide +kernel) (show b.holds (.number (.fin (-3))) = true by decide +kernel)
  have hsum : x.add (.number 1) = x := by decide +kernel
  have hproduct : Double.negZero.mul (.number (.fin (-3))) = .number 0 := by decide +kernel
  rw [hsum] at hadd
  rw [hproduct] at hmul
  exact ⟨⟨hsum, by decide +kernel, hadd rfl⟩, hproduct, by decide +kernel, hmul rfl, hneg⟩

end Interval

end FlowAnalysis
