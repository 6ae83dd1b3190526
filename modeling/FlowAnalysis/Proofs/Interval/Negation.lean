import FlowAnalysis.Interval.Evaluate
import FlowAnalysis.Proofs.Interval.Arithmetic
import FlowAnalysis.Proofs.Outcome

/-!
The negation of a condition evaluates to the opposite truth value. Pushing a negation inwards turns connectives into
their duals and comparisons into their opposites; what is certain changes its side, and what is unknown or infeasible
stays so. Nothing is lost on the way: a condition and its negation read the same variables and fail alike.
-/

namespace FlowAnalysis

namespace Interval

variable {a b c d : Interval}

/-- Truth values with true and false exchanged. -/
inductive Opposite : Interval → Interval → Prop where
  | ofTrue : Opposite truth falsity
  | ofFalse : Opposite falsity truth
  | ofMaybe : Opposite maybe maybe
  | ofBottom : Opposite bottom bottom

/-- A truth value is read as itself. -/
theorem truthValue_truthValue (a : Interval) : a.truthValue.truthValue = a.truthValue := by
  rcases truthValue_cases a with h | h | h | h <;> rw [h] <;> rfl

theorem Opposite.symm (h : a.Opposite b) : b.Opposite a := by
  cases h <;> constructor

theorem Opposite.truthValue (h : a.Opposite b) : a.truthValue.Opposite b.truthValue := by
  cases h <;> constructor

theorem opposite_negation (a : Interval) : a.truthValue.Opposite a.truthValue.negation := by
  rcases truthValue_cases a with h | h | h | h <;> rw [h]
  · exact .ofBottom
  · exact .ofFalse
  · exact .ofTrue
  · exact .ofMaybe

/-- A connective of truth values is opposite to its dual between the opposite ones. -/
theorem Opposite.connective (ha : a.Opposite b) (hc : c.Opposite d) (op : Connective) :
    (connective op a c).Opposite (connective op.dual b d) := by
  cases ha <;> cases hc <;> cases op <;> constructor

/-- No comparison both holds for all members and fails for all of them. -/
theorem verdict_exclusive {op : Comparison} (ha : a.isBottom = false) (hb : b.isBottom = false)
    (h : (verdict op a b).1 = true) : (verdict op a b).2 = false := by
  obtain ⟨x, hx⟩ := exists_mem ha
  obtain ⟨y, hy⟩ := exists_mem hb
  rw [Bool.eq_false_iff]
  intro hfails
  exact Bool.false_ne_true ((fails_of_verdict hfails hx hy).symm.trans (holds_of_verdict h hx hy))

theorem opposite_comparison (op : Comparison) (a b : Interval) :
    (comparison op a b).Opposite (comparison op.negated a b) := by
  unfold comparison
  rw [verdict_negated, Prod.fst_swap, Prod.snd_swap]
  cases hbottom : a.isBottom || b.isBottom with
  | true => exact .ofBottom
  | false =>
      rw [Bool.or_eq_false_iff] at hbottom
      cases hholds : (verdict op a b).1 with
      | true =>
          rw [verdict_exclusive hbottom.1 hbottom.2 hholds]
          exact .ofTrue
      | false =>
          cases (verdict op a b).2 with
          | true => exact .ofFalse
          | false => exact .ofMaybe

end Interval

/-- Two evaluations that fail with the same error or have opposite truth values. -/
def Opposed : Outcome Interval → Outcome Interval → Prop
  | .error e, .error f => e = f
  | .ok a, .ok b => a.truthValue.Opposite b.truthValue
  | _, _ => False

namespace Opposed

variable {x x' y y' : Outcome Interval}

theorem symm (h : Opposed x y) : Opposed y x := by
  cases x with
  | error e =>
      cases y with
      | error f => exact Eq.symm h
      | ok b => exact h
  | ok a =>
      cases y with
      | error f => exact h
      | ok b => exact Interval.Opposite.symm h

/-- Exchanging true and false after an evaluation. -/
theorem not (x : Outcome Interval) : Opposed x (do let value ← x; return value.truthValue.negation) := by
  cases x with
  | error e => rfl
  | ok a =>
      have hopposite := (Interval.opposite_negation a).truthValue
      rw [Interval.truthValue_truthValue] at hopposite
      exact hopposite

/-- A connective and its dual after opposed evaluations; the left side fails first in both. -/
theorem connective (hx : Opposed x x') (hy : Opposed y y') (op : Connective) :
    Opposed (do let a ← x; let b ← y; return .connective op a.truthValue b.truthValue)
      (do let a ← x'; let b ← y'; return .connective op.dual a.truthValue b.truthValue) := by
  cases x with
  | error e =>
      cases x' with
      | error f => exact hx
      | ok a' => exact hx.elim
  | ok a =>
      cases x' with
      | error f => exact hx.elim
      | ok a' =>
          cases y with
          | error e =>
              cases y' with
              | error f => exact hy
              | ok b' => exact hy.elim
          | ok b =>
              cases y' with
              | error f => exact hy.elim
              | ok b' =>
                  have hopposite : (Interval.connective op a.truthValue b.truthValue).Opposite
                      (.connective op.dual a'.truthValue b'.truthValue) := Interval.Opposite.connective hx hy op
                  exact hopposite.truthValue

/-- A comparison and its opposite after the same evaluations. -/
theorem comparison (x y : Outcome Interval) (op : Comparison) :
    Opposed (do let a ← x; let b ← y; return .comparison op a b)
      (do let a ← x; let b ← y; return .comparison op.negated a b) := by
  cases x with
  | error e => rfl
  | ok a =>
      cases y with
      | error e => rfl
      | ok b => exact (Interval.opposite_comparison op a b).truthValue

end Opposed

theorem evaluate_negate_opposed (env : Environment) (e : Expr) : Opposed (evaluate env e) (evaluate env e.negate) := by
  induction e using Expr.negate.induct with
  | case1 value =>
      cases value with
      | false => exact Interval.Opposite.ofFalse
      | true => exact Interval.Opposite.ofTrue
  | case2 operand =>
      rw [Expr.negate, evaluate]
      exact (Opposed.not _).symm
  | case3 left op right ihleft ihright =>
      rw [Expr.negate, evaluate, evaluate]
      exact ihleft.connective ihright op
  | case4 left op right =>
      rw [Expr.negate, evaluate, evaluate]
      split
      · exact .comparison _ _ op
      · exact Interval.Opposite.ofMaybe
  | case5 e hbool hnot hconnective hcompare =>
      rw [Expr.negate, evaluate]
      · exact .not _
      all_goals assumption

theorem Expr.occurrences_negate (e : Expr) : e.negate.occurrences = e.occurrences := by
  induction e using Expr.negate.induct with
  | case1 value => rfl
  | case2 operand => rfl
  | case3 left op right ihleft ihright =>
      rw [negate, occurrences, occurrences, ihleft, ihright]
  | case4 left op right => rfl
  | case5 e hbool hnot hconnective hcompare =>
      rw [negate, occurrences]
      all_goals assumption

/-- Negation is exact: a condition and its negation fail alike or have opposite truth values, and they read the same
variables in the same order. -/
theorem evaluate_negate (env : Environment) (e : Expr) :
    Opposed (evaluate env e) (evaluate env e.negate) ∧ e.negate.vars = e.vars := by
  refine ⟨evaluate_negate_opposed env e, ?_⟩
  rw [Expr.vars, Expr.vars, Expr.occurrences_negate]

end FlowAnalysis
