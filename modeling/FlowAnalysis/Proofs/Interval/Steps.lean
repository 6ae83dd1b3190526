import FlowAnalysis.Interval.Evaluate
import FlowAnalysis.Proofs.Interval.Arithmetic
import FlowAnalysis.Proofs.Interval.Refine

/-!
Whole numbers step by step. From one number towards another, but without it, a step leads through as many
numbers as the quotient of the distance by the step, rounded up. The ranges that are computed for how many
there are and for where they lie hold these, rounding included, as long as the distance is at most `2 ^ 53`.
-/

namespace FlowAnalysis

/-- The whole numbers from `start` up or down to `stop`, without `stop`, each a `step` from the last. -/
def steps (start stop step : Int) : List Int :=
  (List.range ⌈((stop - start : Int) : Rat) / step⌉.toNat).map fun i : Nat => start + (i : Int) * step

section Steps

variable {start stop step k : Int}

theorem length_steps : (steps start stop step).length = ⌈((stop - start : Int) : Rat) / step⌉.toNat := by
  rw [steps, List.length_map, List.length_range]

theorem nodup_steps (hstep : step ≠ 0) : (steps start stop step).Nodup := by
  refine List.Nodup.map (fun i j hij => ?_) List.nodup_range
  have hmul : (i : Int) * step = j * step := Int.add_left_cancel hij
  exact_mod_cast mul_right_cancel₀ hstep hmul

/-- Steps upwards lie between the two ends. -/
theorem mem_steps (hstep : 0 < step) (h : k ∈ steps start stop step) : start ≤ k ∧ k < stop := by
  obtain ⟨i, hi, rfl⟩ := List.mem_map.1 h
  have hpos : (0 : Rat) < step := Int.cast_pos.2 hstep
  have hlt : (i : Int) < ⌈((stop - start : Int) : Rat) / step⌉ := by
    have := List.mem_range.1 hi
    omega
  rw [Int.lt_ceil, lt_div_iff₀ hpos] at hlt
  have hdistance : i * step < stop - start := by exact_mod_cast hlt
  constructor
  · have := Int.mul_nonneg (Int.natCast_nonneg i) hstep.le
    omega
  · omega

/-- Steps downwards are steps upwards between the opposite ends. -/
theorem neg_mem_steps (h : k ∈ steps start stop step) : -k ∈ steps (-start) (-stop) (-step) := by
  obtain ⟨i, hi, rfl⟩ := List.mem_map.1 h
  have hquotient : ((-stop - -start : Int) : Rat) / (-step : Int) = ((stop - start : Int) : Rat) / step := by
    rw [neg_sub_neg, ← neg_sub, Int.cast_neg, Int.cast_neg, neg_div_neg_eq]
  refine List.mem_map.2 ⟨i, by rwa [hquotient], ?_⟩
  ring

/-- Steps do not leave the ends behind. -/
theorem abs_le_of_mem_steps (hstep : step ≠ 0) (h : k ∈ steps start stop step) : |k| ≤ max |start| |stop| := by
  rcases lt_or_gt_of_ne hstep with hneg | hpos
  · obtain ⟨hstart, hstop⟩ := mem_steps (by omega) (neg_mem_steps h)
    rw [max_comm]
    exact abs_le_max_abs_abs (by omega) (by omega)
  · obtain ⟨hstart, hstop⟩ := mem_steps hpos h
    exact abs_le_max_abs_abs hstart hstop.le

/-- There are no more steps than the distance. -/
theorem length_steps_le (start stop : Int) (hstep : step ≠ 0) :
    ((steps start stop step).length : Int) ≤ |stop - start| := by
  have hone : (1 : Rat) ≤ |(step : Rat)| := by exact_mod_cast Int.one_le_abs hstep
  have hceil : ⌈((stop - start : Int) : Rat) / step⌉ ≤ |stop - start| := by
    rw [Int.ceil_le, Int.cast_abs]
    calc ((stop - start : Int) : Rat) / step ≤ |((stop - start : Int) : Rat) / step| := le_abs_self _
      _ = |((stop - start : Int) : Rat)| / |(step : Rat)| := abs_div _ _
      _ ≤ |((stop - start : Int) : Rat)| := div_le_self (abs_nonneg _) hone
  rw [length_steps]
  have := abs_nonneg (stop - start)
  omega

end Steps

namespace Interval

variable {a b c : Interval} {start stop step : Int}

/-- The rounded quotient, rounded up, is the number of steps. -/
theorem ceil_divBy (hdistance : |stop - start| ≤ 2 ^ 53) (hstep : |(step : Rat)| < Bound.overflow) (hne : step ≠ 0) :
    ((((Bound.fin stop).sub (.fin start)).divBy step).ceil).max 0 =
      .fin (steps start stop step).length := by
  have hexact : (Bound.fin stop).sub (.fin start) = .fin ((stop - start : Int) : Rat) := by
    have hround := Bound.round_intCast hdistance
    rw [Int.cast_sub, sub_eq_add_neg] at hround ⊢
    exact hround
  rw [hexact, Bound.divBy, length_steps]
  rcases le_or_gt (((stop - start : Int) : Rat) / step) 0 with hnonpos | hpos
  · -- no step at all
    have hceil : ⌈((stop - start : Int) : Rat) / step⌉ ≤ 0 :=
      by exact_mod_cast Int.ceil_le.2 (by exact_mod_cast hnonpos)
    have hround := (Bound.ceil_le_iff (m := 0)).2
      ((Bound.round_mono hnonpos).trans_eq (by exact_mod_cast Bound.round_zero))
    rw [Bound.max_eq, max_eq_right (by exact_mod_cast hround), Int.toNat_of_nonpos hceil]
    rfl
  · -- the distance and the step have the same sign
    have hquotient : ((stop - start : Int) : Rat) / step = (|stop - start| : Int) / (|step| : Int) := by
      rw [Int.cast_abs, Int.cast_abs, ← abs_div, abs_of_pos hpos]
    have hne' : stop - start ≠ 0 := by
      rintro hzero
      rw [hzero, Int.cast_zero, zero_div] at hpos
      exact lt_irrefl _ hpos
    have hceil := Bound.ceil_round_div (abs_pos.2 hne') hdistance (abs_pos.2 hne)
      (by rwa [Int.cast_abs])
    rw [← hquotient] at hceil
    have hposCeil : 0 < ⌈((stop - start : Int) : Rat) / step⌉ := Int.ceil_pos.2 hpos
    have hcast : ((⌈((stop - start : Int) : Rat) / step⌉.toNat : Nat) : Rat) =
        (⌈((stop - start : Int) : Rat) / step⌉ : Int) := by
      exact_mod_cast Int.toNat_of_nonneg hposCeil.le
    rw [hceil, Bound.max_eq, hcast, max_eq_left]
    exact Bound.fin_le_fin.2 (by exact_mod_cast hposCeil.le)

/-- The range for the number of steps holds it. -/
theorem mem_stepCount (hdistance : |stop - start| ≤ 2 ^ 53) (hstep : |(step : Rat)| < Bound.overflow)
    (hne : step ≠ 0) (ha : (start : Rat) ∈ a) (hb : (stop : Rat) ∈ b) (hc : (step : Rat) ∈ c) :
    ((steps start stop step).length : Rat) ∈ stepCount a b c := by
  have hnonNegative : ((steps start stop step).length : Rat) ∈ nonNegative :=
    mem_of.2 ⟨Bound.fin_le_fin.2 (Nat.cast_nonneg _), Bound.le_posInf _⟩
  unfold stepCount
  split
  · rename_i hsingle
    rw [Bool.and_eq_true, Bool.and_eq_true] at hsingle
    obtain ⟨⟨hsa, hsb⟩, hsc⟩ := hsingle
    rw [(bounds_of_singleton hsa ha).1, (bounds_of_singleton hsb hb).1, (bounds_of_singleton hsc hc).1]
    dsimp only
    rw [if_neg (Int.cast_ne_zero.2 hne), ceil_divBy hdistance hstep hne]
    exact mem_point.2 rfl
  · exact hnonNegative

/-- The range for the numbers that steps upwards lead through holds them. -/
theorem mem_stepsWithin {k : Int} (hdouble : Bound.round k = .fin k) (hk : k ∈ steps start stop step)
    (ha : (start : Rat) ∈ a) (hb : (stop : Rat) ∈ b) (hc : (step : Rat) ∈ c) :
    (k : Rat) ∈ stepsWithin a b c := by
  unfold stepsWithin
  split
  · rename_i hlower
    have hstep : 0 < step := by
      have hlt : (0 : Bound) < .fin step := lt_of_lt_of_le hlower (mem_iff.1 hc).1
      exact_mod_cast Bound.fin_lt_fin.1 hlt
    obtain ⟨hstart, hlt⟩ := mem_steps hstep hk
    have hnext : (k : Rat) + 1 ≤ stop := by exact_mod_cast Int.add_one_le_of_lt hlt
    exact mem_of.2 ⟨(mem_iff.1 ha).1.trans (Bound.fin_le_fin.2 (Int.cast_le.2 hstart)),
      Bound.le_sub_of_add_le hdouble hnext (mem_iff.1 hb).2⟩
  · exact mem_top

end Interval

end FlowAnalysis
