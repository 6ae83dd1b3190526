import FlowAnalysis.Interval.Arithmetic
import FlowAnalysis.Proofs.Interval.Order
import FlowAnalysis.Proofs.Number.Arithmetic

/-!
Soundness of the arithmetic of intervals. Whatever an operation gives on members of intervals, as
long as it is a finite double, is a member of what the operation gives on the intervals. The same holds
of truth values, with zero for false and one for true, and of comparisons.
-/

namespace FlowAnalysis

/-- The number of a truth value. -/
def truthNumber (holds : Bool) : Rat := if holds then 1 else 0

/-- Whether a comparison holds between two numbers. No number is a member of another. -/
def Comparison.holds : Comparison → Rat → Rat → Bool
  | eq, x, y | is, x, y => x = y
  | ne, x, y | isNot, x, y => x ≠ y
  | lt, x, y => x < y
  | le, x, y => x ≤ y
  | gt, x, y => y < x
  | ge, x, y => y ≤ x
  | isIn, _, _ => false
  | notIn, _, _ => true

theorem Comparison.holds_negated (op : Comparison) (x y : Rat) :
    op.negated.holds x y = !op.holds x y := by
  rw [Bool.eq_iff_iff]
  cases op <;> simp [negated, holds]

/-- A comparison or its opposite holds. -/
theorem Comparison.holds_answered (op : Comparison) (x y : Rat) :
    (if op.holds x y then op else op.negated).holds x y = true := by
  cases h : op.holds x y with
  | true => exact h
  | false =>
      rw [if_neg Bool.false_ne_true, holds_negated, h]
      rfl

def Connective.holds : Connective → Bool → Bool → Bool
  | and, p, q => p && q
  | or, p, q => p || q

namespace Interval

variable {a b : Interval} {x y z : Rat}

/-! ### Arithmetic -/

theorem isBottom_or_eq_false (hx : x ∈ a) (hy : y ∈ b) : (a.isBottom || b.isBottom) = false := by
  rw [isBottom_eq_false_of_mem hx, isBottom_eq_false_of_mem hy]
  rfl

theorem mem_neg (hx : x ∈ a) : -x ∈ a.neg := by
  rw [Interval.neg, isBottom_eq_false_of_mem hx]
  obtain ⟨hlower, hupper⟩ := mem_iff.1 hx
  exact mem_of.2 ⟨Bound.neg_le_neg hupper, Bound.neg_le_neg hlower⟩

theorem mem_add (hx : x ∈ a) (hy : y ∈ b) (h : Bound.round (x + y) = .fin z) : z ∈ a.add b := by
  rw [Interval.add, isBottom_or_eq_false hx hy]
  rw [mem_iff] at hx hy
  refine mem_of.2 ?_
  rw [← h]
  exact ⟨Bound.add_le_round hx.1 hy.1, Bound.round_le_add hx.2 hy.2⟩

theorem mem_sub (hx : x ∈ a) (hy : y ∈ b) (h : Bound.round (x - y) = .fin z) : z ∈ a.sub b := by
  rw [Interval.sub, isBottom_or_eq_false hx hy]
  rw [mem_iff] at hx hy
  refine mem_of.2 ?_
  rw [← h, sub_eq_add_neg]
  exact ⟨Bound.add_le_round hx.1 (Bound.neg_le_neg hy.2),
    Bound.round_le_add hx.2 (Bound.neg_le_neg hy.1)⟩

/-- A product of bounds that lie inside two intervals lies between two of the products of their bounds. -/
theorem corners_between {p q : Bound} (hp : a.lower ≤ p ∧ p ≤ a.upper) (hq : b.lower ≤ q ∧ q ≤ b.upper) :
    (corners a b).foldl .min .posInf ≤ p.mul q ∧ p.mul q ≤ (corners a b).foldl .max .negInf := by
  -- first the second operand moves to a bound, then the first one
  have houter : ∀ c : Bound, min (a.lower.mul c) (a.upper.mul c) ≤ p.mul c ∧
      p.mul c ≤ max (a.lower.mul c) (a.upper.mul c) := by
    intro c
    rw [Bound.mul_comm a.lower, Bound.mul_comm a.upper, Bound.mul_comm p]
    exact Bound.mul_between hp.1 hp.2
  obtain ⟨hmin, hmax⟩ := Bound.mul_between (p := p) hq.1 hq.2
  have hlower := houter b.lower
  have hupper := houter b.upper
  simp only [corners, List.foldl_cons, List.foldl_nil, Bound.min_eq, Bound.max_eq]
  constructor
  · refine le_trans (le_min ?_ ?_) hmin
    · refine le_trans (le_min ?_ ?_) hlower.1
      · simp
      · simp
    · refine le_trans (le_min ?_ ?_) hupper.1
      · simp
      · simp
  · refine le_trans hmax (max_le ?_ ?_)
    · refine le_trans hlower.2 (max_le ?_ ?_)
      · simp
      · simp
    · refine le_trans hupper.2 (max_le ?_ ?_)
      · simp
      · simp

theorem corners_bound (hx : x ∈ a) (hy : y ∈ b) :
    (corners a b).foldl .min .posInf ≤ Bound.round (x * y) ∧
      Bound.round (x * y) ≤ (corners a b).foldl .max .negInf :=
  corners_between (mem_iff.1 hx) (mem_iff.1 hy)

theorem mem_mul (hx : x ∈ a) (hy : y ∈ b) (h : Bound.round (x * y) = .fin z) : z ∈ a.mul b := by
  rw [Interval.mul, isBottom_or_eq_false hx hy]
  refine mem_of.2 ?_
  rw [← h]
  exact corners_bound hx hy

theorem mem_div (hx : x ∈ a) (hy : y ∈ b) (z : Rat) : z ∈ a.div b := by
  rw [Interval.div, isBottom_or_eq_false hx hy]
  exact mem_top

/-! ### Truth values -/

theorem mem_falsity : x ∈ falsity ↔ x = 0 := by
  rw [falsity]
  exact mem_point.trans (by simp)

theorem mem_truth : x ∈ truth ↔ x = 1 := by
  rw [truth]
  exact mem_point.trans (by simp)

theorem mem_maybe : x ∈ maybe ↔ 0 ≤ x ∧ x ≤ 1 := by
  rw [maybe, mem_of]
  exact and_congr (Bound.fin_le_fin.trans (by simp)) (Bound.fin_le_fin.trans (by simp))

theorem truthNumber_mem_maybe (p : Bool) : truthNumber p ∈ maybe := by
  rw [mem_maybe]
  cases p <;> simp [truthNumber]

theorem truthNumber_mem_truth {p : Bool} : truthNumber p ∈ truth ↔ p = true := by
  rw [mem_truth]
  cases p <;> simp [truthNumber]

theorem truthNumber_mem_falsity {p : Bool} : truthNumber p ∈ falsity ↔ p = false := by
  rw [mem_falsity]
  cases p <;> simp [truthNumber]

theorem mem_truthValue (hx : x ∈ a) : truthNumber (decide (x ≠ 0)) ∈ a.truthValue := by
  unfold truthValue
  rw [isBottom_eq_false_of_mem hx, Bool.false_or]
  split_ifs with hfalse hzero
  · have ha : a = falsity := of_decide_eq_true hfalse
    subst ha
    rw [truthNumber_mem_falsity, mem_falsity.1 hx]
    rfl
  · exact truthNumber_mem_maybe _
  · have hne : x ≠ 0 := by
      rintro rfl
      exact hzero hx
    rw [truthNumber_mem_truth]
    exact decide_eq_true hne

/-- A truth value is certain, unknown or that of no number. -/
theorem truthValue_cases (a : Interval) :
    a.truthValue = bottom ∨ a.truthValue = falsity ∨ a.truthValue = truth ∨
      a.truthValue = maybe := by
  unfold truthValue
  split_ifs with hsettled
  · rw [Bool.or_eq_true, isBottom_iff, decide_eq_true_iff] at hsettled
    rcases hsettled with hsettled | hsettled
    · exact Or.inl hsettled
    · exact Or.inr (Or.inl hsettled)
  · exact Or.inr (Or.inr (Or.inr rfl))
  · exact Or.inr (Or.inr (Or.inl rfl))

theorem mem_negation {p : Bool} (hp : truthNumber p ∈ a.truthValue) :
    truthNumber (!p) ∈ a.truthValue.negation := by
  rcases truthValue_cases a with h | h | h | h <;> rw [h] at hp ⊢
  · exact absurd hp not_mem_bottom
  · rw [truthNumber_mem_falsity.1 hp]
    exact truthNumber_mem_truth.2 rfl
  · rw [truthNumber_mem_truth.1 hp]
    exact truthNumber_mem_falsity.2 rfl
  · exact truthNumber_mem_maybe _

theorem mem_connective {p q : Bool} (op : Connective) (hp : truthNumber p ∈ a)
    (hq : truthNumber q ∈ b) : truthNumber (op.holds p q) ∈ connective op a b := by
  unfold connective
  rw [isBottom_or_eq_false hp hq]
  cases op with
  | and =>
      simp only [Bool.false_eq_true, if_false, Bool.or_eq_true, Bool.and_eq_true,
        decide_eq_true_iff]
      split_ifs with hfalse htrue
      · rw [truthNumber_mem_falsity, Connective.holds, Bool.and_eq_false_iff]
        rcases hfalse with rfl | rfl
        · exact Or.inl (truthNumber_mem_falsity.1 hp)
        · exact Or.inr (truthNumber_mem_falsity.1 hq)
      · obtain ⟨rfl, rfl⟩ := htrue
        rw [truthNumber_mem_truth] at hp hq ⊢
        rw [hp, hq]
        rfl
      · exact truthNumber_mem_maybe _
  | or =>
      simp only [Bool.false_eq_true, if_false, Bool.or_eq_true, Bool.and_eq_true,
        decide_eq_true_iff]
      split_ifs with htrue hfalse
      · rw [truthNumber_mem_truth, Connective.holds, Bool.or_eq_true]
        rcases htrue with rfl | rfl
        · exact Or.inl (truthNumber_mem_truth.1 hp)
        · exact Or.inr (truthNumber_mem_truth.1 hq)
      · obtain ⟨rfl, rfl⟩ := hfalse
        rw [truthNumber_mem_falsity] at hp hq ⊢
        rw [hp, hq]
        rfl
      · exact truthNumber_mem_maybe _

/-! ### Comparisons -/

theorem eq_of_mem_singleton (hsingle : a.isSingleton = true) (hx : x ∈ a) (hy : y ∈ a) : x = y := by
  have hbounds : a.lower = a.upper := of_decide_eq_true hsingle
  rw [mem_iff, hbounds] at hx hy
  exact le_antisymm (Bound.fin_le_fin.1 (hx.2.trans hy.1)) (Bound.fin_le_fin.1 (hy.2.trans hx.1))

/-- A comparison fails for all members exactly if its opposite holds for all of them. -/
theorem verdict_negated (op : Comparison) (a b : Interval) : verdict op.negated a b = (verdict op a b).swap := by
  cases op <;> rfl

/-- What holds for all members of two intervals holds between any two of them. -/
theorem holds_of_verdict {op : Comparison} (h : (verdict op a b).1 = true) (hx : x ∈ a)
    (hy : y ∈ b) : op.holds x y = true := by
  have heq : (a.isSingleton && decide (a = b)) = true → x = y := by
    intro h
    rw [Bool.and_eq_true, decide_eq_true_iff] at h
    exact eq_of_mem_singleton h.1 hx (h.2 ▸ hy)
  have hne : (a.meet b).isBottom = true → x ≠ y := by
    rintro h rfl
    exact Bool.eq_false_iff.1 (isBottom_eq_false_of_mem (mem_meet.2 ⟨hx, hy⟩)) h
  have hx' := mem_iff.1 hx
  have hy' := mem_iff.1 hy
  cases op with
  | lt =>
      have hlt : a.upper < b.lower := of_decide_eq_true h
      exact decide_eq_true (Bound.fin_lt_fin.1 ((hx'.2.trans_lt hlt).trans_le hy'.1))
  | le =>
      have hle : a.upper ≤ b.lower := of_decide_eq_true h
      exact decide_eq_true (Bound.fin_le_fin.1 ((hx'.2.trans hle).trans hy'.1))
  | gt =>
      have hlt : b.upper < a.lower := of_decide_eq_true h
      exact decide_eq_true (Bound.fin_lt_fin.1 ((hy'.2.trans_lt hlt).trans_le hx'.1))
  | ge =>
      have hle : b.upper ≤ a.lower := of_decide_eq_true h
      exact decide_eq_true (Bound.fin_le_fin.1 ((hy'.2.trans hle).trans hx'.1))
  | eq => exact decide_eq_true (heq h)
  | is => exact decide_eq_true (heq h)
  | ne => exact decide_eq_true (hne h)
  | isNot => exact decide_eq_true (hne h)
  | isIn => cases h
  | notIn => cases h

theorem fails_of_verdict {op : Comparison} (h : (verdict op a b).2 = true) (hx : x ∈ a)
    (hy : y ∈ b) : op.holds x y = false := by
  have hnegated : (verdict op.negated a b).1 = true := by
    rw [verdict_negated]
    exact h
  have hholds := holds_of_verdict hnegated hx hy
  rwa [Comparison.holds_negated, Bool.not_eq_true'] at hholds

theorem mem_comparison (op : Comparison) (hx : x ∈ a) (hy : y ∈ b) :
    truthNumber (op.holds x y) ∈ comparison op a b := by
  rw [comparison, isBottom_or_eq_false hx hy]
  simp only [Bool.false_eq_true, if_false]
  split_ifs with hholds hfails
  · exact truthNumber_mem_truth.2 (holds_of_verdict hholds hx hy)
  · exact truthNumber_mem_falsity.2 (fails_of_verdict hfails hx hy)
  · exact truthNumber_mem_maybe _

end Interval

end FlowAnalysis
