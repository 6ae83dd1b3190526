import FlowAnalysis.Proofs.Number.Rounding

/-!
Arithmetic of bounds. Sums of bounds are monotone in both operands. A product is monotone or antitone
in each operand, depending on the sign of the other one, so that a product of numbers between bounds
lies between products of the bounds.
-/

namespace FlowAnalysis.Bound

variable {a b c p : Bound} {x y : Rat}

theorem round_zero : round 0 = 0 := by
  have h := round_intCast (k := 0) (by decide)
  rwa [Int.cast_zero] at h

/-! ### Sums -/

theorem add_le_round (ha : a ≤ fin x) (hb : b ≤ fin y) : a.add b ≤ round (x + y) := by
  cases a with
  | negInf => exact negInf_le _
  | posInf => exact absurd rfl (ne_posInf_of_le_fin ha)
  | fin a =>
      cases b with
      | negInf => exact negInf_le _
      | posInf => exact absurd rfl (ne_posInf_of_le_fin hb)
      | fin b => exact round_mono (add_le_add (fin_le_fin.1 ha) (fin_le_fin.1 hb))

theorem round_le_add (ha : fin x ≤ a) (hb : fin y ≤ b) : round (x + y) ≤ a.add b := by
  cases b with
  | negInf => exact absurd rfl (ne_negInf_of_fin_le hb)
  | posInf =>
      cases a with
      | negInf => exact absurd rfl (ne_negInf_of_fin_le ha)
      | posInf => exact le_posInf _
      | fin a => exact le_posInf _
  | fin b =>
      cases a with
      | negInf => exact absurd rfl (ne_negInf_of_fin_le ha)
      | posInf => exact le_posInf _
      | fin a => exact round_mono (add_le_add (fin_le_fin.1 ha) (fin_le_fin.1 hb))

/-! ### Whole numbers -/

section Whole

variable {m : Int}

theorem ceil_le_iff : b.ceil ≤ fin m ↔ b ≤ fin m := by
  cases b with
  | fin q => rw [ceil, fin_le_fin, fin_le_fin, Int.cast_le, Rat.ceil_le_iff]
  | _ => exact Iff.rfl

theorem le_floor_iff : fin m ≤ b.floor ↔ fin m ≤ b := by
  cases b with
  | fin q => rw [floor, fin_le_fin, fin_le_fin, Int.cast_le, Rat.le_floor_iff]
  | _ => exact Iff.rfl

theorem add_one_eq (hm : |m| < 2 ^ 53) : (fin m).add 1 = fin (m + 1 : Int) := by
  obtain ⟨hleft, hright⟩ := abs_lt.1 hm
  have hround := round_intCast (k := m + 1) (abs_le.2 ⟨by omega, by omega⟩)
  rw [Int.cast_add, Int.cast_one] at hround ⊢
  exact hround

theorem sub_one_eq (hm : |m| < 2 ^ 53) : (fin m).sub 1 = fin (m - 1 : Int) := by
  obtain ⟨hleft, hright⟩ := abs_lt.1 hm
  have hround := round_intCast (k := m - 1) (abs_le.2 ⟨by omega, by omega⟩)
  rw [Int.cast_sub, Int.cast_one, sub_eq_add_neg] at hround ⊢
  exact hround

theorem le_sub_one (hm : |m| < 2 ^ 53) (h : fin m ≤ b) : fin (m - 1 : Int) ≤ b.sub 1 :=
  (sub_one_eq hm).symm.trans_le (round_le_add h le_rfl)

theorem le_add_one (hm : |m| < 2 ^ 53) (h : fin m ≤ b) : fin (m + 1 : Int) ≤ b.add 1 :=
  (add_one_eq hm).symm.trans_le (round_le_add h le_rfl)

theorem add_one_le (hm : |m| < 2 ^ 53) (h : b ≤ fin m) : b.add 1 ≤ fin (m + 1 : Int) :=
  (add_le_round h le_rfl).trans_eq (add_one_eq hm)

end Whole

/-! ### Products -/

protected theorem neg_neg (a : Bound) : a.neg.neg = a := by
  cases a with
  | negInf => rfl
  | posInf => rfl
  | fin a => exact congrArg fin (neg_neg a)

protected theorem mul_comm (a b : Bound) : a.mul b = b.mul a := by
  cases a with
  | negInf => cases b <;> rfl
  | posInf => cases b <;> rfl
  | fin a =>
      cases b with
      | negInf => rfl
      | posInf => rfl
      | fin b => exact congrArg round (mul_comm a b)

theorem scaledInfinity_neg (q : Rat) : scaledInfinity (-q) = (scaledInfinity q).neg := by
  unfold scaledInfinity
  rcases lt_trichotomy q 0 with hq | rfl | hq
  · rw [if_neg (by linarith), if_neg (by linarith), if_neg hq.ne, if_pos hq]
    rfl
  · rw [neg_zero, if_pos rfl]
    rfl
  · rw [if_neg (by linarith), if_pos (by linarith), if_neg hq.ne', if_neg (by linarith)]
    rfl

theorem scaledInfinity_mono (h : x ≤ y) : scaledInfinity x ≤ scaledInfinity y := by
  unfold scaledInfinity
  rcases lt_trichotomy x 0 with hx | rfl | hx
  · rw [if_neg hx.ne, if_pos hx]
    exact negInf_le _
  · rcases h.eq_or_lt with rfl | hy
    · exact le_refl _
    · rw [if_pos rfl, if_neg hy.ne', if_neg hy.not_gt]
      exact le_posInf _
  · have hy : 0 < y := hx.trans_le h
    rw [if_neg hy.ne', if_neg hy.not_gt]
    exact le_posInf _

protected theorem neg_mul (a b : Bound) : a.neg.mul b = (a.mul b).neg := by
  cases a with
  | negInf =>
      cases b with
      | negInf => rfl
      | posInf => rfl
      | fin b => exact (congrArg scaledInfinity (neg_neg b)).symm.trans (scaledInfinity_neg (-b))
  | posInf =>
      cases b with
      | negInf => rfl
      | posInf => rfl
      | fin b => exact scaledInfinity_neg b
  | fin a =>
      cases b with
      | negInf => exact scaledInfinity_neg (-a)
      | posInf => exact scaledInfinity_neg a
      | fin b => exact (congrArg round (neg_mul a b)).trans (round_neg (a * b))

/-- An infinity of a positive number is `∞`, and zero has none. -/
theorem scaledInfinity_of_nonneg (hx : 0 ≤ x) :
    scaledInfinity (-x) ≤ round (x * y) ∧ round (x * y) ≤ scaledInfinity x := by
  rcases hx.eq_or_lt with rfl | hpos
  · rw [zero_mul, neg_zero, round_zero, scaledInfinity, if_pos rfl]
    exact ⟨le_refl _, le_refl _⟩
  · rw [scaledInfinity_neg, scaledInfinity, if_neg hpos.ne', if_neg hpos.not_gt]
    exact ⟨negInf_le _, le_posInf _⟩

/-- A product grows with its second operand if the first one is not negative. -/
protected theorem mul_le_mul_left (hp : 0 ≤ p) (h : b ≤ c) : p.mul b ≤ p.mul c := by
  cases p with
  | negInf => exact absurd (le_negInf.1 hp) nofun
  | posInf =>
      cases b with
      | negInf => exact negInf_le _
      | posInf =>
          rw [posInf_le.1 h]
      | fin b =>
          cases c with
          | negInf => exact absurd (le_negInf.1 h) nofun
          | posInf => exact le_posInf _
          | fin c => exact scaledInfinity_mono (fin_le_fin.1 h)
  | fin p =>
      have hp : 0 ≤ p := by simpa using fin_le_fin.1 hp
      cases b with
      | negInf =>
          cases c with
          | negInf => exact le_refl _
          | posInf => exact scaledInfinity_mono (by linarith)
          | fin c => exact (scaledInfinity_of_nonneg hp).1
      | posInf => rw [posInf_le.1 h]
      | fin b =>
          cases c with
          | negInf => exact absurd (le_negInf.1 h) nofun
          | posInf => exact (scaledInfinity_of_nonneg hp).2
          | fin c => exact round_mono (mul_le_mul_of_nonneg_left (fin_le_fin.1 h) hp)

theorem neg_nonneg_of_nonpos (hp : p ≤ 0) : 0 ≤ p.neg := Bound.neg_le_neg hp

/-- Between two bounds a product lies between the products of the bounds. -/
theorem mul_between (hb : b ≤ c) {d : Bound} (hc : c ≤ d) :
    min (p.mul b) (p.mul d) ≤ p.mul c ∧ p.mul c ≤ max (p.mul b) (p.mul d) := by
  rcases le_total 0 p with hp | hp
  · exact ⟨(min_le_left _ _).trans (Bound.mul_le_mul_left hp hb),
      (Bound.mul_le_mul_left hp hc).trans (le_max_right _ _)⟩
  · have hmono : ∀ {b c : Bound}, b ≤ c → p.mul c ≤ p.mul b := by
      intro b c h
      have hneg := Bound.neg_le_neg (Bound.mul_le_mul_left (neg_nonneg_of_nonpos hp) h)
      rwa [Bound.neg_mul, Bound.neg_mul, Bound.neg_neg, Bound.neg_neg] at hneg
    exact ⟨(min_le_right _ _).trans (hmono hc), (hmono hb).trans (le_max_left _ _)⟩

end FlowAnalysis.Bound
