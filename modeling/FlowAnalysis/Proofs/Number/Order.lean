import FlowAnalysis.Number.Bound
import Mathlib.Algebra.Order.Ring.Rat
import Mathlib.Order.MinMax

/-!
The order of bounds. Bounds lie on a line from `-∞` to `∞`, so that the laws of linear orders and of
their minima and maxima hold for them.
-/

namespace FlowAnalysis.Bound

theorem fin_le_fin {a b : Rat} : fin a ≤ fin b ↔ a ≤ b := decide_eq_true_iff

@[simp] theorem negInf_le (a : Bound) : negInf ≤ a := by cases a <;> rfl

@[simp] theorem le_posInf (a : Bound) : a ≤ posInf := by cases a <;> rfl

theorem le_negInf {a : Bound} : a ≤ negInf ↔ a = negInf := by
  cases a with
  | negInf => simp
  | fin a => simp [LE.le, Bound.le]
  | posInf => simp [LE.le, Bound.le]

theorem posInf_le {a : Bound} : posInf ≤ a ↔ a = posInf := by
  cases a with
  | negInf => simp [LE.le, Bound.le]
  | fin a => simp [LE.le, Bound.le]
  | posInf => simp

protected theorem le_total (a b : Bound) : a ≤ b ∨ b ≤ a := by
  cases a with
  | negInf => exact Or.inl (negInf_le b)
  | posInf => exact Or.inr (le_posInf b)
  | fin a =>
      cases b with
      | negInf => exact Or.inr (negInf_le _)
      | posInf => exact Or.inl (le_posInf _)
      | fin b =>
          rw [fin_le_fin, fin_le_fin]
          exact le_total a b

protected theorem le_trans {a b c : Bound} (hab : a ≤ b) (hbc : b ≤ c) : a ≤ c := by
  cases a with
  | negInf => exact negInf_le c
  | posInf =>
      rw [posInf_le] at hab
      exact hab ▸ hbc
  | fin a =>
      cases c with
      | negInf =>
          rw [le_negInf] at hbc
          exact hbc ▸ hab
      | posInf => exact le_posInf _
      | fin c =>
          cases b with
          | negInf => exact absurd (le_negInf.1 hab) nofun
          | posInf => exact absurd (posInf_le.1 hbc) nofun
          | fin b =>
              rw [fin_le_fin] at hab hbc ⊢
              exact hab.trans hbc

protected theorem le_antisymm {a b : Bound} (hab : a ≤ b) (hba : b ≤ a) : a = b := by
  cases a with
  | negInf => exact (le_negInf.1 hba).symm
  | posInf => exact (posInf_le.1 hab).symm
  | fin a =>
      cases b with
      | negInf => exact absurd (le_negInf.1 hab) nofun
      | posInf => exact absurd (posInf_le.1 hba) nofun
      | fin b =>
          rw [fin_le_fin] at hab hba
          rw [le_antisymm hab hba]

theorem lt_iff_not_le {a b : Bound} : a < b ↔ ¬ b ≤ a := Bool.eq_false_iff

instance : LinearOrder Bound where
  le_refl a := (Bound.le_total a a).elim id id
  le_trans _ _ _ := Bound.le_trans
  lt_iff_le_not_ge a b := by
    rw [lt_iff_not_le]
    exact ⟨fun h => ⟨(Bound.le_total a b).resolve_right h, h⟩, And.right⟩
  le_antisymm _ _ := Bound.le_antisymm
  le_total := Bound.le_total
  toDecidableLE := inferInstance
  toDecidableLT := inferInstance
  toDecidableEq := inferInstance
  min := Bound.min
  max := Bound.max
  min_def _ _ := rfl
  max_def _ _ := rfl

theorem fin_lt_fin {a b : Rat} : fin a < fin b ↔ a < b := by
  rw [lt_iff_not_le, fin_le_fin, not_le]

theorem fin_ne_posInf {a : Rat} : fin a ≠ posInf := nofun

theorem fin_ne_negInf {a : Rat} : fin a ≠ negInf := nofun

theorem zero_eq : (0 : Bound) = fin 0 := rfl

theorem one_eq : (1 : Bound) = fin 1 := rfl

theorem min_eq (a b : Bound) : a.min b = min a b := rfl

theorem max_eq (a b : Bound) : a.max b = max a b := rfl

/-- A bound that is not below a finite one is not `-∞`. -/
theorem ne_negInf_of_fin_le {a : Bound} {q : Rat} (h : fin q ≤ a) : a ≠ negInf := by
  rintro rfl
  exact fin_ne_negInf (le_negInf.1 h)

theorem ne_posInf_of_le_fin {a : Bound} {q : Rat} (h : a ≤ fin q) : a ≠ posInf := by
  rintro rfl
  exact fin_ne_posInf (posInf_le.1 h)

protected theorem neg_le_neg {a b : Bound} (h : a ≤ b) : b.neg ≤ a.neg := by
  cases a with
  | negInf => exact le_posInf _
  | posInf =>
      rw [posInf_le] at h
      exact h ▸ le_refl _
  | fin a =>
      cases b with
      | negInf => exact absurd (le_negInf.1 h) nofun
      | posInf => exact negInf_le _
      | fin b => exact fin_le_fin.2 (Rat.neg_le_neg (fin_le_fin.1 h))

end FlowAnalysis.Bound
