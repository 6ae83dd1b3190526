import FlowAnalysis.Interval.Refine
import FlowAnalysis.Proofs.Interval.Arithmetic

/-!
Soundness of the refinement of comparisons. If a comparison holds between members of two intervals,
then each of them lies in the range that the refinement leaves for it. Where different numbers are at
least a step apart, strict comparisons may move a bound by that step; the members are doubles, so that
rounding the moved bound does not pass them.
-/

namespace FlowAnalysis

/-- Whole numbers that differ are at least one apart. -/
theorem whole_apart {k l : Int} (h : (k : Rat) ≠ l) : (k : Rat) + 1 ≤ l ∨ (l : Rat) + 1 ≤ k := by
  rcases lt_or_gt_of_ne h with h | h
  · exact Or.inl (by exact_mod_cast Int.add_one_le_of_lt (by exact_mod_cast h))
  · exact Or.inr (by exact_mod_cast Int.add_one_le_of_lt (by exact_mod_cast h))

namespace Bound

variable {a : Bound} {x y step : Rat}

theorem le_sub_of_add_le (hx : round x = fin x) (h : x + step ≤ y) (hy : fin y ≤ a) :
    fin x ≤ a.sub (fin step) := by
  have hle : x ≤ y + -step := by linarith
  calc fin x = round x := hx.symm
    _ ≤ round (y + -step) := round_mono hle
    _ ≤ a.sub (fin step) := round_le_add hy (le_refl _)

theorem add_le_of_add_le (hx : round x = fin x) (h : y + step ≤ x) (hy : a ≤ fin y) :
    a.add (fin step) ≤ fin x :=
  calc a.add (fin step) ≤ round (y + step) := add_le_round hy (le_refl _)
    _ ≤ round x := round_mono h
    _ = fin x := hx

end Bound

namespace Interval

variable {a b : Interval} {x y step : Rat}

/-- A single member is what both bounds are. -/
theorem bounds_of_singleton (hsingle : a.isSingleton = true) (hx : x ∈ a) :
    a.lower = .fin x ∧ a.upper = .fin x := by
  have hbounds : a.lower = a.upper := of_decide_eq_true hsingle
  rw [mem_iff] at hx
  have hupper : a.upper = .fin x := le_antisymm (hbounds ▸ hx.1) hx.2
  exact ⟨hbounds.trans hupper, hupper⟩

theorem mem_excluding (hdouble : Bound.round x = .fin x) (hx : x ∈ a) (hy : y ∈ b) (hne : x ≠ y)
    (hapart : x + step ≤ y ∨ y + step ≤ x) (hstep : 0 ≤ step) :
    x ∈ excluding a b (.fin step) := by
  unfold excluding
  split_ifs with hskip hlower hupper
  · exact mem_top
  · rw [Bool.or_eq_true, not_or, Bool.not_eq_true', Bool.not_eq_false] at hskip
    have hy' := (bounds_of_singleton hskip.2 hy).1
    rw [mem_of, ← hlower, hy']
    have hle : y ≤ x := Bound.fin_le_fin.1 (hy' ▸ hlower ▸ (mem_iff.1 hx).1)
    have hlt : y < x := lt_of_le_of_ne hle (Ne.symm hne)
    exact ⟨Bound.add_le_of_add_le hdouble (hapart.resolve_left (by linarith)) (le_refl _),
      Bound.le_posInf _⟩
  · rw [Bool.or_eq_true, not_or, Bool.not_eq_true', Bool.not_eq_false] at hskip
    have hy' := (bounds_of_singleton hskip.2 hy).2
    rw [mem_of, ← hupper, hy']
    have hle : x ≤ y := Bound.fin_le_fin.1 (hy' ▸ hupper ▸ (mem_iff.1 hx).2)
    have hlt : x < y := lt_of_le_of_ne hle hne
    exact ⟨Bound.negInf_le _,
      Bound.le_sub_of_add_le hdouble (hapart.resolve_right (by linarith)) (le_refl _)⟩
  · exact mem_top

/-- A comparison that holds is not refined to nothing, and both members stay. -/
theorem refineComparison?_sound {op : Comparison} (hx : x ∈ a) (hy : y ∈ b)
    (hxdouble : Bound.round x = .fin x) (hydouble : Bound.round y = .fin y)
    (hholds : op.holds x y = true) (hstep : 0 ≤ step)
    (hapart : x ≠ y → x + step ≤ y ∨ y + step ≤ x) :
    ∃ left right, refineComparison? op a b (.fin step) = some (left, right) ∧
      x ∈ left ∧ y ∈ right := by
  have hx' := mem_iff.1 hx
  have hy' := mem_iff.1 hy
  cases op with
  | lt =>
      have hlt : x < y := of_decide_eq_true hholds
      have hgap : x + step ≤ y := (hapart hlt.ne).resolve_right (by linarith)
      exact ⟨_, _, rfl,
        mem_of.2 ⟨Bound.negInf_le _, Bound.le_sub_of_add_le hxdouble hgap hy'.2⟩,
        mem_of.2 ⟨Bound.add_le_of_add_le hydouble hgap hx'.1, Bound.le_posInf _⟩⟩
  | le =>
      have hle : Bound.fin x ≤ .fin y := Bound.fin_le_fin.2 (of_decide_eq_true hholds)
      exact ⟨_, _, rfl, mem_of.2 ⟨Bound.negInf_le _, hle.trans hy'.2⟩,
        mem_of.2 ⟨hx'.1.trans hle, Bound.le_posInf _⟩⟩
  | gt =>
      have hlt : y < x := of_decide_eq_true hholds
      have hgap : y + step ≤ x := (hapart hlt.ne').resolve_left (by linarith)
      exact ⟨_, _, rfl,
        mem_of.2 ⟨Bound.add_le_of_add_le hxdouble hgap hy'.1, Bound.le_posInf _⟩,
        mem_of.2 ⟨Bound.negInf_le _, Bound.le_sub_of_add_le hydouble hgap hx'.2⟩⟩
  | ge =>
      have hle : Bound.fin y ≤ .fin x := Bound.fin_le_fin.2 (of_decide_eq_true hholds)
      exact ⟨_, _, rfl, mem_of.2 ⟨hy'.1.trans hle, Bound.le_posInf _⟩,
        mem_of.2 ⟨Bound.negInf_le _, hle.trans hx'.2⟩⟩
  | eq =>
      have heq : x = y := of_decide_eq_true hholds
      exact ⟨_, _, rfl, heq ▸ hy, heq ▸ hx⟩
  | ne =>
      have hne : x ≠ y := of_decide_eq_true hholds
      have hdiffer : (a.isSingleton && decide (a = b)) = false := by
        rw [Bool.eq_false_iff]
        intro h
        rw [Bool.and_eq_true, decide_eq_true_iff] at h
        exact hne (eq_of_mem_singleton h.1 hx (h.2 ▸ hy))
      refine ⟨_, _, ?_, mem_excluding hxdouble hx hy hne (hapart hne) hstep,
        mem_excluding hydouble hy hx hne.symm (hapart hne).symm hstep⟩
      rw [refineComparison?, hdiffer]
      rfl
  | is => exact ⟨_, _, rfl, mem_top, mem_top⟩
  | isNot => exact ⟨_, _, rfl, mem_top, mem_top⟩
  | isIn => exact ⟨_, _, rfl, mem_top, mem_top⟩
  | notIn => exact ⟨_, _, rfl, mem_top, mem_top⟩

end Interval

end FlowAnalysis
