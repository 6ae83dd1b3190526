import FlowAnalysis.Proofs.Number.Order
import Mathlib.Algebra.Order.Field.Power
import Mathlib.Data.Rat.Floor
import Mathlib.Tactic.FieldSimp
import Mathlib.Tactic.Linarith
import Mathlib.Tactic.NormNum
import Mathlib.Tactic.Positivity
import Mathlib.Tactic.Ring

/-!
Rounding to doubles. Rounding takes a number to a multiple of a power of two that depends on the
binade of the number. It is monotone, because the powers of two that separate binades are multiples of
the units on both of their sides, and it leaves a number alone that is a small multiple of a unit.
These two facts are all that is used of doubles elsewhere.
-/

namespace FlowAnalysis.Bound

/-! ### The nearest integer -/

theorem nearestInt_eq (q : Rat) :
    nearestInt q =
      if 2 * (q - ⌊q⌋) < 1 then ⌊q⌋
      else if 1 < 2 * (q - ⌊q⌋) then ⌊q⌋ + 1
      else if ⌊q⌋ % 2 = 0 then ⌊q⌋
      else ⌊q⌋ + 1 := rfl

theorem floor_le_nearestInt (q : Rat) : ⌊q⌋ ≤ nearestInt q := by
  rw [nearestInt_eq]
  split_ifs <;> omega

theorem nearestInt_le_floor_add_one (q : Rat) : nearestInt q ≤ ⌊q⌋ + 1 := by
  rw [nearestInt_eq]
  split_ifs <;> omega

theorem nearestInt_intCast (k : Int) : nearestInt (k : Rat) = k := by
  rw [nearestInt_eq, Int.floor_intCast]
  simp

theorem nearestInt_mono {q r : Rat} (h : q ≤ r) : nearestInt q ≤ nearestInt r := by
  rcases (Int.floor_le_floor h).lt_or_eq with hfloor | hfloor
  · have := nearestInt_le_floor_add_one q
    have := floor_le_nearestInt r
    omega
  · -- in the same unit the distance from the floor decides, and ties are the same number
    have hlow := floor_le_nearestInt r
    have hhigh := nearestInt_le_floor_add_one q
    by_cases hq : 2 * (q - ⌊q⌋) < 1
    · have hdown : nearestInt q = ⌊q⌋ := by rw [nearestInt_eq, if_pos hq]
      omega
    · by_cases hr : 1 < 2 * (r - ⌊r⌋)
      · have hup : nearestInt r = ⌊r⌋ + 1 := by
          rw [nearestInt_eq, if_neg (not_lt.2 hr.le), if_pos hr]
        omega
      · have hqr : q = r := by
          rw [hfloor] at hq
          linarith
        rw [hqr]

/-- Ties go to the even neighbour on both sides of zero. -/
theorem nearestInt_neg (q : Rat) : nearestInt (-q) = -nearestInt q := by
  by_cases hwhole : (⌊q⌋ : Rat) = q
  · rw [← hwhole, ← Int.cast_neg, nearestInt_intCast, nearestInt_intCast]
  · have hlow : (⌊q⌋ : Rat) < q := lt_of_le_of_ne (Int.floor_le q) hwhole
    have hhigh : q < ⌊q⌋ + 1 := Int.lt_floor_add_one q
    have hfloor : ⌊-q⌋ = -⌊q⌋ - 1 := by
      rw [Int.floor_eq_iff]
      push_cast
      constructor <;> linarith
    have hrest : 2 * (-q - ⌊-q⌋) = 2 - 2 * (q - ⌊q⌋) := by
      rw [hfloor]
      push_cast
      ring
    rcases lt_trichotomy (2 * (q - ⌊q⌋)) 1 with hlt | heq | hgt
    · rw [nearestInt_eq q, if_pos hlt, nearestInt_eq, hrest, if_neg (by linarith),
        if_pos (by linarith), hfloor]
      omega
    · -- of the two neighbours of a tie one is even, and negation keeps it so
      have htie : nearestInt q = if ⌊q⌋ % 2 = 0 then ⌊q⌋ else ⌊q⌋ + 1 := by
        rw [nearestInt_eq, if_neg heq.not_lt, if_neg heq.not_gt]
      rw [htie, nearestInt_eq, hrest, if_neg (by linarith), if_neg (by linarith), hfloor]
      split_ifs <;> omega
    · rw [nearestInt_eq q, if_neg hgt.not_gt, if_pos hgt, nearestInt_eq, hrest,
        if_pos (by linarith), hfloor]
      omega

/-! ### Multiples of a power of two -/

/-- The number rounded to a multiple of `2 ^ e`. -/
def onGrid (e : Int) (q : Rat) : Rat := (nearestInt (q / 2 ^ e) : Rat) * 2 ^ e

theorem onGrid_mono (e : Int) {q r : Rat} (h : q ≤ r) : onGrid e q ≤ onGrid e r := by
  have hpow : (0 : Rat) < 2 ^ e := by positivity
  have hdiv : q / 2 ^ e ≤ r / 2 ^ e := div_le_div_of_nonneg_right h hpow.le
  have hcast : (nearestInt (q / 2 ^ e) : Rat) ≤ nearestInt (r / 2 ^ e) :=
    Int.cast_le.2 (nearestInt_mono hdiv)
  exact mul_le_mul_of_nonneg_right hcast hpow.le

theorem onGrid_multiple (e : Int) (k : Int) : onGrid e (k * 2 ^ e) = k * 2 ^ e := by
  have hpow : (2 : Rat) ^ e ≠ 0 := by positivity
  rw [onGrid, mul_div_cancel_right₀ _ hpow, nearestInt_intCast]

/-- A multiple of a power of two is a multiple of every smaller one. -/
theorem exists_multiple {e f : Int} (hef : e ≤ f) (k : Int) :
    ∃ m : Int, (k : Rat) * 2 ^ f = m * 2 ^ e := by
  refine ⟨k * 2 ^ (f - e).toNat, ?_⟩
  have hsum : f = (f - e).toNat + e := by omega
  rw [Int.cast_mul, Int.cast_pow, Int.cast_ofNat, mul_assoc, ← zpow_natCast,
    ← zpow_add₀ (by norm_num), ← hsum]

theorem onGrid_of_multiple {e f : Int} (hef : e ≤ f) (k : Int) :
    onGrid e (k * 2 ^ f) = k * 2 ^ f := by
  obtain ⟨m, hm⟩ := exists_multiple hef k
  rw [hm, onGrid_multiple]

theorem onGrid_zero (e : Int) : onGrid e 0 = 0 := by
  have h := onGrid_multiple e 0
  rwa [Int.cast_zero, zero_mul] at h

theorem onGrid_neg (e : Int) (q : Rat) : onGrid e (-q) = -onGrid e q := by
  rw [onGrid, onGrid, neg_div, nearestInt_neg, Int.cast_neg, neg_mul]

/-! ### Binades -/

theorem abs_eq (q : Rat) : q.abs = |q| := by
  rcases le_total 0 q with h | h
  · rw [Rat.abs_of_nonneg h, abs_of_nonneg h]
  · rw [Rat.abs_of_nonpos h, abs_of_nonpos h]

/-- A quotient lies within a factor of two of the quotient of the leading powers of two. -/
theorem quotient_bounds {n d : Rat} {i j : Int} (hn : (2 : Rat) ^ i ≤ n ∧ n < 2 ^ (i + 1))
    (hd : (2 : Rat) ^ j ≤ d ∧ d < 2 ^ (j + 1)) :
    (2 : Rat) ^ (i - j - 1) ≤ n / d ∧ n / d < 2 ^ (i - j + 1) := by
  have hpos : (0 : Rat) < d := lt_of_lt_of_le (by positivity) hd.1
  constructor
  · rw [le_div_iff₀ hpos]
    calc (2 : Rat) ^ (i - j - 1) * d ≤ 2 ^ (i - j - 1) * 2 ^ (j + 1) :=
          mul_le_mul_of_nonneg_left hd.2.le (by positivity)
      _ = 2 ^ i := by
          rw [← zpow_add₀ (by norm_num)]
          congr 1
          omega
      _ ≤ n := hn.1
  · rw [div_lt_iff₀ hpos]
    calc n < 2 ^ (i + 1) := hn.2
      _ = 2 ^ (i - j + 1) * 2 ^ j := by
          rw [← zpow_add₀ (by norm_num)]
          congr 1
          omega
      _ ≤ 2 ^ (i - j + 1) * d := mul_le_mul_of_nonneg_left hd.1 (by positivity)

theorem log2_bounds {n : Nat} (hn : n ≠ 0) :
    (2 : Rat) ^ (n.log2 : Int) ≤ n ∧ (n : Rat) < 2 ^ ((n.log2 : Int) + 1) := by
  constructor
  · rw [zpow_natCast]
    exact_mod_cast Nat.log2_self_le hn
  · rw [← Nat.cast_succ, zpow_natCast]
    exact_mod_cast Nat.lt_log2_self

theorem abs_eq_div (q : Rat) : |q| = (q.num.natAbs : Rat) / q.den := by
  have hpos : (0 : Rat) < q.den := Nat.cast_pos.2 q.den_pos
  conv_lhs => rw [← Rat.num_div_den q]
  rw [abs_div, abs_of_pos hpos, ← Int.cast_abs, Int.abs_eq_natAbs, Int.cast_natCast]

/-- The binade of a number other than zero. -/
theorem binade_bounds {q : Rat} (hq : q ≠ 0) :
    (2 : Rat) ^ binade q ≤ |q| ∧ |q| < 2 ^ (binade q + 1) := by
  have hnum : q.num.natAbs ≠ 0 := Int.natAbs_ne_zero.2 (Rat.num_ne_zero.2 hq)
  have hquotient := quotient_bounds (log2_bounds hnum) (log2_bounds q.den_nz)
  rw [← abs_eq_div] at hquotient
  dsimp only [binade]
  rw [abs_eq]
  split_ifs with hlow
  · exact ⟨hlow, hquotient.2⟩
  · rw [sub_add_cancel]
    exact ⟨hquotient.1, not_le.1 hlow⟩

theorem binade_neg (q : Rat) : binade (-q) = binade q := by
  unfold binade
  rw [abs_eq, abs_eq, abs_neg, Rat.neg_num, Int.natAbs_neg, Rat.neg_den]

theorem ulpExponent_neg (q : Rat) : ulpExponent (-q) = ulpExponent q := by
  unfold ulpExponent
  rw [binade_neg]

theorem ulpExponent_eq (q : Rat) : ulpExponent q = max (binade q - 52) (-1074) := by
  unfold ulpExponent
  dsimp only
  split_ifs <;> omega

theorem binade_lt_of_abs_lt {q : Rat} {e : Int} (hq : q ≠ 0) (h : |q| < 2 ^ e) : binade q < e := by
  have hlt : (2 : Rat) ^ binade q < 2 ^ e := (binade_bounds hq).1.trans_lt h
  exact (zpow_lt_zpow_iff_right₀ (by norm_num)).1 hlt

/-! ### Monotonicity -/

/-- Between two binades of larger numbers there is a power of two that both units divide. -/
theorem onGrid_le_of_finer {q r : Rat} (hr : r ≠ 0) (h : q ≤ r)
    (hexponent : ulpExponent q < ulpExponent r) :
    onGrid (ulpExponent q) q ≤ onGrid (ulpExponent r) r := by
  rw [ulpExponent_eq, ulpExponent_eq] at hexponent ⊢
  have hbinade : binade q < binade r := by omega
  have hr' := (binade_bounds hr).1
  have hq' : |q| < 2 ^ binade r := by
    by_cases hq : q = 0
    · rw [hq, abs_zero]
      positivity
    · exact (binade_bounds hq).2.trans_le (zpow_le_zpow_right₀ (by norm_num) (by omega))
  have hpos : 0 < r := by
    by_contra hneg
    rw [abs_of_nonpos (not_lt.1 hneg)] at hr'
    have := neg_abs_le q
    linarith
  rw [abs_of_pos hpos] at hr'
  have hone : ((1 : Int) : Rat) * 2 ^ binade r = 2 ^ binade r := by simp
  calc onGrid (max (binade q - 52) (-1074)) q
      ≤ onGrid (max (binade q - 52) (-1074)) (2 ^ binade r) :=
        onGrid_mono _ ((le_abs_self q).trans hq'.le)
    _ = 2 ^ binade r := by
        rw [← hone, onGrid_of_multiple (by omega)]
    _ = onGrid (max (binade r - 52) (-1074)) (2 ^ binade r) := by
        rw [← hone, onGrid_of_multiple (by omega)]
    _ ≤ onGrid (max (binade r - 52) (-1074)) r := onGrid_mono _ hr'

/-- The multiple of the unit in the last place that is nearest to a number. -/
def nearest (q : Rat) : Rat := onGrid (ulpExponent q) q

theorem nearest_neg (q : Rat) : nearest (-q) = -nearest q := by
  rw [nearest, ulpExponent_neg, onGrid_neg, nearest]

theorem nearest_mono {q r : Rat} (h : q ≤ r) : nearest q ≤ nearest r := by
  by_cases hr : r = 0
  · subst hr
    calc nearest q ≤ onGrid (ulpExponent q) 0 := onGrid_mono _ h
      _ = onGrid (ulpExponent 0) 0 := by rw [onGrid_zero, onGrid_zero]
  by_cases hq : q = 0
  · subst hq
    calc nearest 0 = onGrid (ulpExponent r) 0 := by rw [nearest, onGrid_zero, onGrid_zero]
      _ ≤ nearest r := onGrid_mono _ h
  rcases lt_trichotomy (ulpExponent q) (ulpExponent r) with hlt | heq | hlt
  · exact onGrid_le_of_finer hr h hlt
  · rw [nearest, heq]
    exact onGrid_mono _ h
  · -- the other way round it is the same statement about the negated numbers
    have hneg := onGrid_le_of_finer (q := -r) (r := -q) (neg_ne_zero.2 hq) (neg_le_neg h)
      (by rwa [ulpExponent_neg, ulpExponent_neg])
    change nearest (-r) ≤ nearest (-q) at hneg
    rw [nearest_neg, nearest_neg] at hneg
    exact neg_le_neg_iff.1 hneg

/-! ### Overflow -/

theorem round_eq (q : Rat) :
    round q = if overflow ≤ nearest q then posInf
      else if nearest q ≤ -overflow then negInf else fin (nearest q) := rfl

theorem overflow_pos : 0 < overflow := by
  unfold overflow
  positivity

/-- Rounding is monotone. -/
theorem round_mono {q r : Rat} (h : q ≤ r) : round q ≤ round r := by
  have hnearest := nearest_mono h
  by_cases hr : overflow ≤ nearest r
  · rw [round_eq r, if_pos hr]
    exact le_posInf _
  · have hq : ¬ overflow ≤ nearest q := fun hq => hr (hq.trans hnearest)
    by_cases hq' : nearest q ≤ -overflow
    · rw [round_eq q, if_neg hq, if_pos hq']
      exact negInf_le _
    · have hr' : ¬ nearest r ≤ -overflow := fun hr' => hq' (hnearest.trans hr')
      rw [round_eq, round_eq, if_neg hq, if_neg hq', if_neg hr, if_neg hr']
      exact fin_le_fin.2 hnearest

theorem round_neg (q : Rat) : round (-q) = (round q).neg := by
  have hpos := overflow_pos
  rw [round_eq, round_eq, nearest_neg]
  by_cases hhigh : overflow ≤ nearest q
  · rw [if_neg (by linarith), if_pos (neg_le_neg hhigh), if_pos hhigh]
    rfl
  · by_cases hlow : nearest q ≤ -overflow
    · rw [if_pos (le_neg.1 hlow), if_neg hhigh, if_pos hlow]
      rfl
    · rw [if_neg fun h => hlow (le_neg.1 h), if_neg fun h => hhigh (neg_le_neg_iff.1 h),
        if_neg hhigh, if_neg hlow]
      rfl

/-- A finite result is the nearest multiple of the unit in the last place. -/
theorem round_eq_fin {q r : Rat} (h : round q = fin r) : r = nearest q ∧ |r| < overflow := by
  rw [round_eq] at h
  split_ifs at h with hhigh hlow
  cases h
  exact ⟨rfl, abs_lt.2 ⟨not_le.1 hlow, not_le.1 hhigh⟩⟩

/-! ### Doubles -/

/-- A multiple of a unit with at most 53 significant bits is not changed by rounding. -/
theorem nearest_of_multiple {k e : Int} (he : -1074 ≤ e) (hk : |k| ≤ 2 ^ 53) :
    nearest (k * 2 ^ e) = k * 2 ^ e := by
  by_cases hzero : k = 0
  · subst hzero
    simp [nearest, onGrid_zero]
  have hpow : (0 : Rat) < 2 ^ e := by positivity
  have hne : (k : Rat) * 2 ^ e ≠ 0 := mul_ne_zero (Int.cast_ne_zero.2 hzero) hpow.ne'
  have habs : |(k : Rat) * 2 ^ e| = (|k| : Int) * 2 ^ e := by
    rw [abs_mul, abs_of_pos hpow, Int.cast_abs]
  have hbound : |(k : Rat) * 2 ^ e| ≤ 2 ^ (e + 53) := by
    rw [habs, add_comm, zpow_add₀ (by norm_num)]
    exact mul_le_mul_of_nonneg_right (by exact_mod_cast hk) hpow.le
  rcases hbound.lt_or_eq with hlt | heq
  · -- below the next binade the unit divides `2 ^ e`
    have hbinade := binade_lt_of_abs_lt hne hlt
    rw [nearest, ulpExponent_eq, onGrid_of_multiple (by omega)]
  · -- the number is a power of two, so its unit divides it whatever `e` is
    have hbinade : binade ((k : Rat) * 2 ^ e) = e + 53 := by
      have hlow := binade_lt_of_abs_lt (e := e + 53 + 1) hne
        (heq ▸ (zpow_lt_zpow_iff_right₀ (by norm_num)).2 (by omega))
      have hhigh := (binade_bounds hne).2
      rw [heq, zpow_lt_zpow_iff_right₀ (by norm_num)] at hhigh
      omega
    have hsign : ∃ m : Int, (k : Rat) * 2 ^ e = m * 2 ^ (e + 53) := by
      rcases abs_eq_abs.1 (heq.trans (abs_of_pos (by positivity)).symm) with h | h
      · exact ⟨1, by simpa using h⟩
      · exact ⟨-1, by simpa using h⟩
    obtain ⟨m, hm⟩ := hsign
    rw [nearest, ulpExponent_eq, hbinade, hm, onGrid_of_multiple (by omega)]

theorem round_eq_fin_of_nearest {q : Rat} (h : nearest q = q) (hoverflow : |q| < overflow) :
    round q = fin q := by
  rw [abs_lt] at hoverflow
  rw [round_eq, h, if_neg (not_le.2 hoverflow.2), if_neg (not_le.2 hoverflow.1)]

/-- Whole numbers up to `2 ^ 53` are doubles. -/
theorem round_intCast {k : Int} (hk : |k| ≤ 2 ^ 53) : round k = fin k := by
  have hnearest := nearest_of_multiple (e := 0) (by omega) hk
  rw [zpow_zero, mul_one] at hnearest
  apply round_eq_fin_of_nearest hnearest
  calc |(k : Rat)| = ((|k| : Int) : Rat) := (Int.cast_abs).symm
    _ ≤ 2 ^ (53 : Int) := by exact_mod_cast hk
    _ < overflow := (zpow_lt_zpow_iff_right₀ (by norm_num)).2 (by norm_num)

/-- The double nearest to a whole number is whole. -/
theorem round_whole {k : Int} {q : Rat} (h : round k = fin q) : ∃ m : Int, q = m := by
  by_cases hk : |k| ≤ 2 ^ 53
  · rw [round_intCast hk] at h
    exact ⟨k, (fin.inj h).symm⟩
  · -- past `2 ^ 53` the unit in the last place is whole
    have hlarge : (2 : Rat) ^ (53 : Int) < |(k : Rat)| := by
      rw [← Int.cast_abs]
      exact_mod_cast not_le.1 hk
    have hne : (k : Rat) ≠ 0 := by
      rintro hzero
      rw [hzero, abs_zero] at hlarge
      exact absurd hlarge (by norm_num)
    have hbinade : 53 < binade k + 1 :=
      (zpow_lt_zpow_iff_right₀ (by norm_num)).1 (hlarge.trans (binade_bounds hne).2)
    obtain ⟨n, hn⟩ : ∃ n : Nat, ulpExponent k = n := by
      refine Int.eq_ofNat_of_zero_le ?_
      rw [ulpExponent_eq]
      omega
    refine ⟨nearestInt (k / 2 ^ ulpExponent k) * 2 ^ n, ?_⟩
    rw [(round_eq_fin h).1, nearest, onGrid, hn, zpow_natCast]
    push_cast
    rfl

/-- A number has at most 53 significant bits on its grid. -/
theorem abs_nearestInt_le (q : Rat) : |nearestInt (q / 2 ^ ulpExponent q)| ≤ 2 ^ 53 := by
  have hpow : (0 : Rat) < 2 ^ ulpExponent q := by positivity
  have hsize : |q| ≤ 2 ^ (53 : Int) * 2 ^ ulpExponent q := by
    by_cases hq : q = 0
    · rw [hq, abs_zero]
      positivity
    · rw [← zpow_add₀ (by norm_num)]
      refine (binade_bounds hq).2.le.trans (zpow_le_zpow_right₀ (by norm_num) ?_)
      rw [ulpExponent_eq]
      omega
  obtain ⟨hlow, hhigh⟩ := abs_le.1 hsize
  have hcast : (((2 ^ 53 : Int)) : Rat) = 2 ^ (53 : Int) := by norm_num
  rw [abs_le, ← nearestInt_intCast (2 ^ 53), ← nearestInt_neg, hcast]
  constructor
  · exact nearestInt_mono ((le_div_iff₀ hpow).2 (by rwa [neg_mul]))
  · exact nearestInt_mono ((div_le_iff₀ hpow).2 hhigh)

/-- A rounded number is not changed by rounding it again. -/
theorem round_round {q r : Rat} (h : round q = fin r) : round r = fin r := by
  obtain ⟨hr, hoverflow⟩ := round_eq_fin h
  refine round_eq_fin_of_nearest ?_ hoverflow
  have hexponent : -1074 ≤ ulpExponent q := by
    rw [ulpExponent_eq]
    omega
  rw [hr]
  exact nearest_of_multiple hexponent (abs_nearestInt_le q)

/-- Whole numbers of 64 bits are rounded to finite doubles. -/
theorem exists_round_eq_fin {k : Int} (h : |k| ≤ 2 ^ 63) : ∃ q, round k = fin q := by
  have hlimit : round ((2 ^ 63 : Int) : Rat) = fin ((2 ^ 63 : Int) : Rat) := by decide +kernel
  obtain ⟨hlow, hhigh⟩ := abs_le.1 h
  have hupper : round k ≤ fin ((2 ^ 63 : Int) : Rat) := hlimit ▸ round_mono (Int.cast_le.2 hhigh)
  have hlower : fin (-((2 ^ 63 : Int) : Rat)) ≤ round k := by
    have hmono := round_mono (Int.cast_le (R := Rat).2 hlow)
    rwa [Int.cast_neg, round_neg, hlimit] at hmono
  cases hround : round k with
  | negInf => exact absurd hround (ne_negInf_of_fin_le hlower)
  | fin q => exact ⟨q, rfl⟩
  | posInf => exact absurd hround (ne_posInf_of_le_fin hupper)

/-! ### Quotients of whole numbers -/

/-- Past the middle between two whole numbers the greater one is nearest. -/
theorem lt_nearestInt {k : Int} {q : Rat} (h : k + 1 / 2 < q) : k < nearestInt q := by
  have hfloor : k ≤ ⌊q⌋ := Int.le_floor.2 (by linarith)
  rcases hfloor.lt_or_eq with hlt | heq
  · exact hlt.trans_le (floor_le_nearestInt q)
  · rw [nearestInt_eq, ← heq, if_neg (by linarith), if_pos (by linarith)]
    omega

/-- Around a quotient of whole numbers that is no power of two the unit in the last place is less than twice the
distance that such a quotient can have from a whole number. -/
theorem ulp_mul_lt_two {a d : Int} (ha : 0 < a) (ha' : a ≤ 2 ^ 53) (hd : 0 < d) (hd' : (d : Rat) < overflow)
    (hpower : (2 : Rat) ^ binade (a / d) ≠ a / d) : (2 : Rat) ^ ulpExponent (a / d) * d < 2 := by
  have hdpos : (0 : Rat) < d := Int.cast_pos.2 hd
  have hq : (0 : Rat) < a / d := div_pos (Int.cast_pos.2 ha) hdpos
  have ha53 : (a : Rat) ≤ 2 ^ (53 : Int) := by exact_mod_cast ha'
  rw [ulpExponent_eq]
  rcases max_choice (binade ((a : Rat) / d) - 52) (-1074) with hmax | hmax
  · have hbinade := (binade_bounds hq.ne').1
    rw [abs_of_pos hq] at hbinade
    have hstrict : (2 : Rat) ^ binade (a / d) * d < a := (lt_div_iff₀ hdpos).1 (lt_of_le_of_ne hbinade hpower)
    rw [hmax, zpow_sub₀ (by norm_num)]
    calc (2 : Rat) ^ binade (a / d) / 2 ^ (52 : Int) * d
        = 2 ^ binade (a / d) * d / 2 ^ (52 : Int) := by ring
      _ < a / 2 ^ (52 : Int) := by gcongr
      _ ≤ 2 ^ (53 : Int) / 2 ^ (52 : Int) := by gcongr
      _ = 2 := by norm_num
  · rw [hmax]
    calc (2 : Rat) ^ (-1074 : Int) * d < 2 ^ (-1074 : Int) * 2 ^ (1024 : Int) := by gcongr; exact hd'
      _ < 2 := by
        rw [← zpow_add₀ (by norm_num)]
        exact (zpow_lt_zpow_iff_right₀ (by norm_num : (1 : Rat) < 2)).2 (by norm_num : (-1074 + 1024 : Int) < 1)

/-- A quotient of whole numbers that is a power of two is a double. -/
theorem nearest_div_of_power {a d : Int} (ha : 0 < a) (hd : 0 < d) (hd' : (d : Rat) < overflow)
    (hpower : (2 : Rat) ^ binade (a / d) = a / d) : nearest (a / d) = a / d := by
  have hdpos : (0 : Rat) < d := Int.cast_pos.2 hd
  have hq : (0 : Rat) < a / d := div_pos (Int.cast_pos.2 ha) hdpos
  have hone : (1 : Rat) ≤ a := by exact_mod_cast ha
  have hlower : (2 : Rat) ^ (-1024 : Int) < a / d := by
    rw [lt_div_iff₀ hdpos]
    calc (2 : Rat) ^ (-1024 : Int) * d < 2 ^ (-1024 : Int) * 2 ^ (1024 : Int) := by gcongr; exact hd'
      _ = 1 := by rw [← zpow_add₀ (by norm_num)]; norm_num
      _ ≤ a := hone
  have hbinade : -1024 < binade ((a : Rat) / d) :=
    (zpow_lt_zpow_iff_right₀ (by norm_num : (1 : Rat) < 2)).1 (hlower.trans_eq hpower.symm)
  have hnearest := nearest_of_multiple (k := 1) (e := binade ((a : Rat) / d)) (by omega) (by norm_num)
  rwa [Int.cast_one, one_mul, hpower] at hnearest

/-- A quotient of whole numbers that is above a whole number is not rounded down to it. -/
theorem lt_nearest_div {a d n : Int} (ha : 0 < a) (ha' : a ≤ 2 ^ 53) (hd : 0 < d) (hd' : (d : Rat) < overflow)
    (h : (n : Rat) < a / d) : (n : Rat) < nearest (a / d) := by
  by_cases hpower : (2 : Rat) ^ binade (a / d) = a / d
  · rwa [nearest_div_of_power ha hd hd' hpower]
  have hdpos : (0 : Rat) < d := Int.cast_pos.2 hd
  have hq : (0 : Rat) < a / d := div_pos (Int.cast_pos.2 ha) hdpos
  have hulp := ulp_mul_lt_two ha ha' hd hd' hpower
  -- whole numbers are multiples of the unit
  have hsmall : ulpExponent ((a : Rat) / d) ≤ 0 := by
    have hbinade : binade ((a : Rat) / d) < 53 := by
      refine (zpow_lt_zpow_iff_right₀ (by norm_num : (1 : Rat) < 2)).1 ?_
      have hlower := (binade_bounds hq.ne').1
      rw [abs_of_pos hq] at hlower
      have hone : (1 : Rat) ≤ d := by exact_mod_cast hd
      have ha53 : (a : Rat) ≤ 2 ^ (53 : Int) := by exact_mod_cast ha'
      calc (2 : Rat) ^ binade (a / d) < a / d := lt_of_le_of_ne hlower hpower
        _ ≤ a := div_le_self (Int.cast_nonneg ha.le) hone
        _ ≤ 2 ^ (53 : Int) := ha53
    rw [ulpExponent_eq]
    omega
  obtain ⟨k, hk⟩ := exists_multiple hsmall n
  rw [zpow_zero, mul_one] at hk
  have hpow : (0 : Rat) < 2 ^ ulpExponent ((a : Rat) / d) := by positivity
  -- the quotient has at least the distance of one part in `d`, which is more than half a unit
  have hdistance : (n : Rat) + 1 / d ≤ a / d := by
    rw [lt_div_iff₀ hdpos] at h
    have hint : n * d + 1 ≤ a := by exact_mod_cast h
    rw [le_div_iff₀ hdpos, add_mul, one_div_mul_cancel hdpos.ne']
    exact_mod_cast hint
  have hhalf : (2 : Rat) ^ ulpExponent ((a : Rat) / d) * (1 / 2) < 1 / d := by
    rw [lt_div_iff₀ hdpos]
    linarith
  have hmiddle : (k : Rat) + 1 / 2 < a / d / 2 ^ ulpExponent ((a : Rat) / d) := by
    rw [lt_div_iff₀ hpow, add_mul, ← hk]
    linarith
  have hnearest := lt_nearestInt hmiddle
  rw [hk, nearest, onGrid]
  gcongr

theorem ceil_eq (q : Rat) : q.ceil = ⌈q⌉ :=
  eq_of_forall_ge_iff fun k => by rw [Rat.ceil_le_iff, Int.ceil_le]

/-- Rounding a positive quotient of whole numbers does not change which whole number is next above it. -/
theorem ceil_round_div {a d : Int} (ha : 0 < a) (ha' : a ≤ 2 ^ 53) (hd : 0 < d) (hd' : (d : Rat) < overflow) :
    (round (a / d)).ceil = fin (⌈(a : Rat) / d⌉ : Int) := by
  have hdpos : (0 : Rat) < d := Int.cast_pos.2 hd
  have hq : (0 : Rat) < a / d := div_pos (Int.cast_pos.2 ha) hdpos
  have hceil : ⌈(a : Rat) / d⌉ ≤ a := by
    rw [Int.ceil_le, div_le_iff₀ hdpos]
    have hone : (1 : Rat) ≤ d := by exact_mod_cast hd
    have hapos : (0 : Rat) < a := Int.cast_pos.2 ha
    nlinarith
  have hpos : 0 < ⌈(a : Rat) / d⌉ := Int.ceil_pos.2 hq
  have hupper := round_mono (Int.le_ceil ((a : Rat) / d))
  rw [round_intCast (abs_le.2 ⟨by omega, by omega⟩)] at hupper
  have hlower := round_mono hq.le
  cases hround : round ((a : Rat) / d) with
  | negInf =>
      rw [hround, show round 0 = fin 0 by exact_mod_cast round_intCast (k := 0) (by decide)] at hlower
      cases hlower
  | posInf =>
      rw [hround] at hupper
      cases hupper
  | fin r =>
      rw [hround, fin_le_fin] at hupper
      obtain ⟨rfl, -⟩ := round_eq_fin hround
      have hbelow : ((⌈(a : Rat) / d⌉ - 1 : Int) : Rat) < a / d := by
        have := Int.ceil_lt_add_one ((a : Rat) / d)
        push_cast
        linarith
      have habove := lt_nearest_div ha ha' hd hd' hbelow
      have heq : ⌈nearest ((a : Rat) / d)⌉ = ⌈(a : Rat) / d⌉ := by
        rw [Int.ceil_eq_iff]
        push_cast at habove
        exact ⟨habove, hupper⟩
      rw [ceil, ceil_eq, heq]

end FlowAnalysis.Bound
