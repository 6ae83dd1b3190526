import FlowAnalysis.Proofs.Evaluation.Soundness

/-!
Arithmetic that leaves the doubles. A range that lies at one infinity holds no finite number and counts as empty. So a
sum, difference or product of ranges is empty not only where an operand is, but also where every result on members of
the operands is rounded to the same infinity. Evaluation empties a range in no other way: an expression is infeasible
exactly if one of the literals, variables, items and lengths that it is made of is, or if one of its operations
overflows like this.
-/

namespace FlowAnalysis

/-! ### Rounding to an infinity -/

namespace Bound

variable {x y : Rat} {infinity : Bound}

theorem scaledInfinity_of_pos (h : 0 < x) : scaledInfinity x = posInf := by
  rw [scaledInfinity, if_neg h.ne', if_neg h.not_gt]

theorem scaledInfinity_of_neg (h : x < 0) : scaledInfinity x = negInf := by
  rw [scaledInfinity, if_neg h.ne, if_pos h]

theorem pos_of_round (h : round x = posInf) : 0 < x := by
  by_contra hneg
  have hle := round_mono (not_lt.1 hneg)
  rw [h, round_zero, posInf_le] at hle
  cases hle

theorem neg_of_round (h : round x = negInf) : x < 0 := by
  by_contra hpos
  have hle := round_mono (not_lt.1 hpos)
  rw [h, round_zero, le_negInf] at hle
  cases hle

/-- What is rounded to an infinity has the sign of it. -/
theorem scaledInfinity_of_round (hinfinity : infinity = posInf ∨ infinity = negInf) (h : round x = infinity) :
    scaledInfinity x = infinity := by
  rcases hinfinity with rfl | rfl
  · exact scaledInfinity_of_pos (pos_of_round h)
  · exact scaledInfinity_of_neg (neg_of_round h)

theorem scaledInfinity_pos_mul (hx : 0 < x) (y : Rat) : scaledInfinity (x * y) = scaledInfinity y := by
  rcases lt_trichotomy y 0 with hy | rfl | hy
  · rw [scaledInfinity_of_neg hy, scaledInfinity_of_neg (mul_neg_of_pos_of_neg hx hy)]
  · rw [mul_zero]
  · rw [scaledInfinity_of_pos hy, scaledInfinity_of_pos (mul_pos hx hy)]

/-- An infinity multiplies a number as a number of its sign does, apart from the magnitude. -/
theorem scaledInfinity_mul_fin (hx : x ≠ 0) (y : Rat) :
    (scaledInfinity x).mul (fin y) = scaledInfinity (x * y) := by
  rcases lt_or_gt_of_ne hx with hneg | hpos
  · rw [scaledInfinity_of_neg hneg, ← neg_mul_neg, scaledInfinity_pos_mul (neg_pos.2 hneg)]
    rfl
  · rw [scaledInfinity_of_pos hpos, scaledInfinity_pos_mul hpos]
    rfl

theorem mul_scaledInfinity (hinfinity : infinity = posInf ∨ infinity = negInf) (hy : y ≠ 0) :
    infinity.mul (scaledInfinity y) = infinity.mul (fin y) := by
  have hpos : posInf.mul (scaledInfinity y) = posInf.mul (fin y) := by
    rcases lt_or_gt_of_ne hy with hneg | hpos
    · change _ = scaledInfinity y
      rw [scaledInfinity_of_neg hneg]
      rfl
    · change _ = scaledInfinity y
      rw [scaledInfinity_of_pos hpos]
      rfl
  rcases hinfinity with rfl | rfl
  · exact hpos
  · calc negInf.mul (scaledInfinity y) = (posInf.mul (scaledInfinity y)).neg := Bound.neg_mul posInf _
      _ = (posInf.mul (fin y)).neg := by rw [hpos]
      _ = negInf.mul (fin y) := (Bound.neg_mul posInf _).symm

theorem scaledInfinity_mul (hx : x ≠ 0) (hy : y ≠ 0) :
    (scaledInfinity x).mul (scaledInfinity y) = scaledInfinity (x * y) := by
  have hinfinity : scaledInfinity x = posInf ∨ scaledInfinity x = negInf :=
    (lt_or_gt_of_ne hx).symm.imp scaledInfinity_of_pos scaledInfinity_of_neg
  rw [mul_scaledInfinity hinfinity hy, scaledInfinity_mul_fin hx]

/-- Bounds above `-∞` are negated one by one in a sum. -/
theorem neg_add_neg {a b : Bound} (ha : a ≠ negInf) (hb : b ≠ negInf) : a.neg.add b.neg = (a.add b).neg := by
  cases a with
  | negInf => exact absurd rfl ha
  | posInf =>
      cases b with
      | negInf => exact absurd rfl hb
      | posInf => rfl
      | fin b => rfl
  | fin a =>
      cases b with
      | negInf => exact absurd rfl hb
      | posInf => rfl
      | fin b => exact (congrArg round (neg_add a b).symm).trans (round_neg (a + b))

end Bound

/-! ### Intervals -/

namespace Interval

variable {a b : Interval} {c d infinity : Bound} {x y : Rat} {op : Arithmetic}

theorem isBottom_of_iff {lower upper : Bound} (h : lower ≤ upper) :
    (of lower upper).isBottom = true ↔ lower = .posInf ∨ upper = .negInf := by
  unfold of
  split_ifs with hproper
  · refine iff_of_false (fun hbottom => ?_) fun hends => hends.elim hproper.2.1 hproper.2.2
    rw [isBottom_iff] at hbottom
    exact hproper.2.1 (congrArg Interval.lower hbottom)
  · refine iff_of_true rfl ?_
    by_contra hends
    rw [not_or] at hends
    exact hproper ⟨h, hends⟩

theorem exists_mem_le (ha : a.isBottom = false) (hlower : a.lower = .negInf) (q : Rat) : ∃ x ∈ a, x ≤ q := by
  obtain ⟨x, hx⟩ := exists_mem ha
  refine ⟨min x q, mem_iff.2 ⟨hlower ▸ Bound.negInf_le _, ?_⟩, min_le_right x q⟩
  exact (Bound.fin_le_fin.2 (min_le_left x q)).trans (mem_iff.1 hx).2

theorem exists_le_mem (ha : a.isBottom = false) (hupper : a.upper = .posInf) (q : Rat) : ∃ x ∈ a, q ≤ x := by
  obtain ⟨x, hx⟩ := exists_mem ha
  refine ⟨max x q, mem_iff.2 ⟨?_, hupper ▸ Bound.le_posInf _⟩, le_max_right x q⟩
  exact (mem_iff.1 hx).1.trans (Bound.fin_le_fin.2 (le_max_left x q))

/-- An end of an interval is a member, or the infinity of the sign of a member. -/
theorem end_cases (ha : a.isBottom = false) (hc : c = a.lower ∨ c = a.upper) :
    ∃ x ∈ a, c = .fin x ∨ (x ≠ 0 ∧ c = Bound.scaledInfinity x) := by
  obtain ⟨hle, hlower, hupper⟩ := isBottom_eq_false_iff.1 ha
  rcases hc with rfl | rfl
  · cases hl : a.lower with
    | posInf => exact absurd hl hlower
    | fin x => exact ⟨x, mem_iff.2 ⟨hl.le, hl ▸ hle⟩, Or.inl rfl⟩
    | negInf =>
        obtain ⟨x, hx, hneg⟩ := exists_mem_le ha hl (-1)
        have hneg : x < 0 := by linarith
        exact ⟨x, hx, Or.inr ⟨hneg.ne, (Bound.scaledInfinity_of_neg hneg).symm⟩⟩
  · cases hu : a.upper with
    | negInf => exact absurd hu hupper
    | fin x => exact ⟨x, mem_iff.2 ⟨hu ▸ hle, hu.ge⟩, Or.inl rfl⟩
    | posInf =>
        obtain ⟨x, hx, hpos⟩ := exists_le_mem ha hu 1
        have hpos : 0 < x := by linarith
        exact ⟨x, hx, Or.inr ⟨hpos.ne', (Bound.scaledInfinity_of_pos hpos).symm⟩⟩

/-- Whether an operation on members of two intervals is always rounded to the given infinity. -/
def AllRoundTo (infinity : Bound) (op : Arithmetic) (a b : Interval) : Prop :=
  ∀ x ∈ a, ∀ y ∈ b, (op.unrounded? x y).map Bound.round = some infinity

/-- Every result of an operation on members of two intervals is past the largest double, all of them on the same side.
Quotients are not followed, so that nothing is lost there. -/
def Overflows (op : Arithmetic) (a b : Interval) : Prop :=
  op ≠ .div ∧ (AllRoundTo .posInf op a b ∨ AllRoundTo .negInf op a b)

/-! ### Sums and differences -/

theorem lower_add_eq_posInf_iff (ha : a.isBottom = false) (hb : b.isBottom = false) :
    a.lower.add b.lower = .posInf ↔ AllRoundTo .posInf .add a b := by
  constructor
  · intro h x hx y hy
    have hle := Bound.add_le_round (mem_iff.1 hx).1 (mem_iff.1 hy).1
    rw [h, Bound.posInf_le] at hle
    exact congrArg some hle
  · intro h
    have hpos : ∀ x ∈ a, ∀ y ∈ b, 0 < x + y := fun x hx y hy => Bound.pos_of_round (Option.some.inj (h x hx y hy))
    obtain ⟨hlea, hlowera, -⟩ := isBottom_eq_false_iff.1 ha
    obtain ⟨hleb, hlowerb, -⟩ := isBottom_eq_false_iff.1 hb
    -- with an end at `-∞` there would be a sum that is not positive
    cases hl : a.lower with
    | posInf => exact absurd hl hlowera
    | negInf =>
        obtain ⟨y, hy⟩ := exists_mem hb
        obtain ⟨x, hx, hle⟩ := exists_mem_le ha hl (-y)
        exact absurd (hpos x hx y hy) (by linarith)
    | fin x =>
        have hx : x ∈ a := mem_iff.2 ⟨hl.le, hl ▸ hlea⟩
        cases hm : b.lower with
        | posInf => exact absurd hm hlowerb
        | negInf =>
            obtain ⟨y, hy, hle⟩ := exists_mem_le hb hm (-x)
            exact absurd (hpos x hx y hy) (by linarith)
        | fin y => exact Option.some.inj (h x hx y (mem_iff.2 ⟨hm.le, hm ▸ hleb⟩))

theorem mem_neg_iff : x ∈ a.neg ↔ -x ∈ a := by
  refine ⟨fun h => ?_, fun h => neg_neg x ▸ mem_neg h⟩
  unfold Interval.neg at h
  split at h
  · rename_i hbottom
    rw [isBottom_iff.1 hbottom] at h
    exact absurd h not_mem_bottom
  · obtain ⟨hupper, hlower⟩ := mem_of.1 h
    have hlower := Bound.neg_le_neg hlower
    have hupper := Bound.neg_le_neg hupper
    rw [Bound.neg_neg] at hlower hupper
    exact mem_iff.2 ⟨hlower, hupper⟩

theorem isBottom_neg (a : Interval) : a.neg.isBottom = a.isBottom := by
  cases ha : a.isBottom with
  | true => rwa [Interval.neg, if_pos ha]
  | false =>
      obtain ⟨x, hx⟩ := exists_mem ha
      exact isBottom_eq_false_of_mem (mem_neg hx)

theorem neg_bounds (ha : a.isBottom = false) : a.neg.lower = a.upper.neg ∧ a.neg.upper = a.lower.neg := by
  have hproper := (isBottom_neg a).trans ha
  rw [Interval.neg, if_neg (Bool.eq_false_iff.1 ha)] at hproper ⊢
  exact of_bounds hproper

/-- Negating the operands of a sum turns to the other infinity. -/
theorem allRoundTo_neg_neg : AllRoundTo .posInf .add a.neg b.neg ↔ AllRoundTo .negInf .add a b := by
  have hround : ∀ x y : Rat, Bound.round (-x + -y) = .posInf ↔ Bound.round (x + y) = .negInf := by
    intro x y
    rw [← neg_add, Bound.round_neg]
    cases Bound.round (x + y) <;> simp [Bound.neg]
  constructor
  · intro h x hx y hy
    exact congrArg some ((hround x y).1 (Option.some.inj (h _ (mem_neg hx) _ (mem_neg hy))))
  · intro h x hx y hy
    have hnegated := (hround (-x) (-y)).2 (Option.some.inj (h _ (mem_neg_iff.1 hx) _ (mem_neg_iff.1 hy)))
    rw [neg_neg, neg_neg] at hnegated
    exact congrArg some hnegated

theorem upper_add_eq_negInf_iff (ha : a.isBottom = false) (hb : b.isBottom = false) :
    a.upper.add b.upper = .negInf ↔ AllRoundTo .negInf .add a b := by
  have hnegated := lower_add_eq_posInf_iff ((isBottom_neg a).trans ha) ((isBottom_neg b).trans hb)
  rw [(neg_bounds ha).1, (neg_bounds hb).1, Bound.neg_add_neg (isBottom_eq_false_iff.1 ha).2.2
    (isBottom_eq_false_iff.1 hb).2.2, allRoundTo_neg_neg] at hnegated
  rw [← hnegated]
  cases a.upper.add b.upper <;> simp [Bound.neg]

theorem isBottom_add_iff (ha : a.isBottom = false) (hb : b.isBottom = false) :
    (a.add b).isBottom = true ↔ AllRoundTo .posInf .add a b ∨ AllRoundTo .negInf .add a b := by
  obtain ⟨x, hx⟩ := exists_mem ha
  obtain ⟨y, hy⟩ := exists_mem hb
  have hle : a.lower.add b.lower ≤ a.upper.add b.upper :=
    (Bound.add_le_round (mem_iff.1 hx).1 (mem_iff.1 hy).1).trans
      (Bound.round_le_add (mem_iff.1 hx).2 (mem_iff.1 hy).2)
  rw [Interval.add, isBottom_or_eq_false hx hy, if_neg Bool.false_ne_true, isBottom_of_iff hle,
    lower_add_eq_posInf_iff ha hb, upper_add_eq_negInf_iff ha hb]

theorem sub_eq_add_neg (ha : a.isBottom = false) (hb : b.isBottom = false) : a.sub b = a.add b.neg := by
  rw [Interval.sub, Interval.add, isBottom_neg, ha, hb, Bool.or_false, if_neg Bool.false_ne_true,
    if_neg Bool.false_ne_true, (neg_bounds hb).1, (neg_bounds hb).2]
  rfl

theorem allRoundTo_sub_iff : AllRoundTo infinity .sub a b ↔ AllRoundTo infinity .add a b.neg := by
  constructor
  · intro h x hx y hy
    have hresult := h x hx (-y) (mem_neg_iff.1 hy)
    rwa [Arithmetic.unrounded?, sub_neg_eq_add] at hresult
  · intro h x hx y hy
    have hresult := h x hx (-y) (mem_neg hy)
    rwa [Arithmetic.unrounded?, ← Rat.sub_eq_add_neg] at hresult

theorem isBottom_sub_iff (ha : a.isBottom = false) (hb : b.isBottom = false) :
    (a.sub b).isBottom = true ↔ AllRoundTo .posInf .sub a b ∨ AllRoundTo .negInf .sub a b := by
  rw [Interval.sub_eq_add_neg ha hb, isBottom_add_iff ha ((isBottom_neg b).trans hb), allRoundTo_sub_iff,
    allRoundTo_sub_iff]

/-! ### Products -/

/-- If all products of members are rounded to one infinity, so are the products of the ends. -/
theorem mul_ends_eq (ha : a.isBottom = false) (hb : b.isBottom = false)
    (hinfinity : infinity = .posInf ∨ infinity = .negInf) (h : AllRoundTo infinity .mul a b)
    (hc : c = a.lower ∨ c = a.upper) (hd : d = b.lower ∨ d = b.upper) : c.mul d = infinity := by
  obtain ⟨x, hx, hx'⟩ := end_cases ha hc
  obtain ⟨y, hy, hy'⟩ := end_cases hb hd
  have hround : Bound.round (x * y) = infinity := Option.some.inj (h x hx y hy)
  have hscaled := Bound.scaledInfinity_of_round hinfinity hround
  rcases hx' with rfl | ⟨hx0, rfl⟩
  · rcases hy' with rfl | ⟨hy0, rfl⟩
    · exact hround
    · rw [Bound.mul_comm, Bound.scaledInfinity_mul_fin hy0, mul_comm, hscaled]
  · rcases hy' with rfl | ⟨hy0, rfl⟩
    · rw [Bound.scaledInfinity_mul_fin hx0, hscaled]
    · rw [Bound.scaledInfinity_mul hx0 hy0, hscaled]

theorem corners_eq (ha : a.isBottom = false) (hb : b.isBottom = false)
    (hinfinity : infinity = .posInf ∨ infinity = .negInf) (h : AllRoundTo infinity .mul a b) :
    corners a b = [infinity, infinity, infinity, infinity] := by
  have hends : ∀ c d, c = a.lower ∨ c = a.upper → d = b.lower ∨ d = b.upper → c.mul d = infinity :=
    fun c d => mul_ends_eq ha hb hinfinity h
  rw [corners, hends _ _ (Or.inl rfl) (Or.inl rfl), hends _ _ (Or.inl rfl) (Or.inr rfl),
    hends _ _ (Or.inr rfl) (Or.inl rfl), hends _ _ (Or.inr rfl) (Or.inr rfl)]

theorem isBottom_mul_iff (ha : a.isBottom = false) (hb : b.isBottom = false) :
    (a.mul b).isBottom = true ↔ AllRoundTo .posInf .mul a b ∨ AllRoundTo .negInf .mul a b := by
  obtain ⟨x, hx⟩ := exists_mem ha
  obtain ⟨y, hy⟩ := exists_mem hb
  rw [Interval.mul, isBottom_or_eq_false hx hy, if_neg Bool.false_ne_true,
    isBottom_of_iff ((corners_bound hx hy).1.trans (corners_bound hx hy).2)]
  refine or_congr ⟨fun h x hx y hy => ?_, fun h => ?_⟩ ⟨fun h x hx y hy => ?_, fun h => ?_⟩
  · exact congrArg some (Bound.posInf_le.1 (h ▸ (corners_bound hx hy).1))
  · rw [corners_eq ha hb (Or.inl rfl) h]
    rfl
  · exact congrArg some (Bound.le_negInf.1 (h ▸ (corners_bound hx hy).2))
  · rw [corners_eq ha hb (Or.inr rfl) h]
    rfl

theorem isBottom_arithmetic_of_isBottom (h : (a.isBottom || b.isBottom) = true) :
    (arithmetic op a b).isBottom = true := by
  cases op with
  | add => rw [arithmetic, Interval.add, if_pos h]; rfl
  | sub => rw [arithmetic, Interval.sub, if_pos h]; rfl
  | mul => rw [arithmetic, Interval.mul, if_pos h]; rfl
  | div => rw [arithmetic, Interval.div, if_pos h]; rfl

/-- An operation gives the empty range exactly if an operand is empty or it overflows. -/
theorem isBottom_arithmetic_iff : (arithmetic op a b).isBottom = true ↔
    a.isBottom = true ∨ b.isBottom = true ∨ Overflows op a b := by
  cases h : a.isBottom || b.isBottom with
  | true =>
      refine iff_of_true (isBottom_arithmetic_of_isBottom h) ?_
      rw [← or_assoc]
      exact Or.inl (Bool.or_eq_true_iff.1 h)
  | false =>
      obtain ⟨ha, hb⟩ := Bool.or_eq_false_iff.1 h
      rw [or_iff_right (Bool.eq_false_iff.1 ha), or_iff_right (Bool.eq_false_iff.1 hb)]
      cases op with
      | add => exact (isBottom_add_iff ha hb).trans (and_iff_right (by decide)).symm
      | sub => exact (isBottom_sub_iff ha hb).trans (and_iff_right (by decide)).symm
      | mul => exact (isBottom_mul_iff ha hb).trans (and_iff_right (by decide)).symm
      | div =>
          refine iff_of_false ?_ fun h => h.1 rfl
          rw [arithmetic, Interval.div, h]
          decide

end Interval

/-! ### Expressions -/

namespace Expr

variable {env : Environment} {e f : Expr} {r : Interval}

/-- The operands whose ranges evaluation combines. -/
def operands : Expr → List Expr
  | signed _ _ operand => [operand]
  | not operand => [operand]
  | arithmetic type left _ right => if type.isNumeric then [left, right] else []
  | connective left _ right => [left, right]
  | compare left _ right => if left.type.isNumeric && right.type.isNumeric then [left, right] else []
  | _ => []

/-- The expression itself, its operands, their operands and so on. -/
inductive Part : Expr → Expr → Prop where
  | self (e : Expr) : Part e e
  | operand {e f p : Expr} (hf : f ∈ e.operands) (h : Part f p) : Part e p

/-- Infeasible whatever stands around it: the range that is looked up for it is empty, or it is an operation between
feasible operands that overflows. -/
inductive Fails (env : Environment) : Expr → Prop where
  | leaf {e : Expr} (hleaf : e.operands = []) (h : evaluate env e = .ok .bottom) : Fails env e
  | overflow {type : Ty} {left right : Expr} {op : Arithmetic} {a b : Interval} (htype : type.isNumeric = true)
      (hleft : evaluate env left = .ok a) (hright : evaluate env right = .ok b) (ha : a.isBottom = false)
      (hb : b.isBottom = false) (h : Interval.Overflows op a b) : Fails env (.arithmetic type left op right)

theorem sizeOf_lt_of_mem_operands (hf : f ∈ e.operands) : sizeOf f < sizeOf e := by
  cases e with
  | signed type sign operand =>
      rw [signed.sizeOf_spec, List.mem_singleton.1 hf]
      omega
  | not operand =>
      rw [not.sizeOf_spec, List.mem_singleton.1 hf]
      omega
  | arithmetic type left op right =>
      rw [arithmetic.sizeOf_spec]
      rcases List.mem_pair.1 (List.mem_ite_nil_right.1 hf).2 with rfl | rfl <;> omega
  | connective left op right =>
      rw [connective.sizeOf_spec]
      rcases List.mem_pair.1 hf with rfl | rfl <;> omega
  | compare left op right =>
      rw [compare.sizeOf_spec]
      rcases List.mem_pair.1 (List.mem_ite_nil_right.1 hf).2 with rfl | rfl <;> omega
  | _ => cases hf

/-- What is looked up fails if its range is empty. -/
theorem fails_iff_of_leaf (hleaf : e.operands = []) : e.Fails env ↔ evaluate env e = .ok .bottom := by
  refine ⟨fun h => ?_, .leaf hleaf⟩
  cases h with
  | leaf _ h => exact h
  | overflow htype _ _ _ _ _ =>
      rw [operands, if_pos htype] at hleaf
      cases hleaf

theorem exists_part_iff : (∃ p, e.Part p ∧ p.Fails env) ↔
    e.Fails env ∨ ∃ f ∈ e.operands, ∃ p, f.Part p ∧ p.Fails env := by
  constructor
  · rintro ⟨p, hpart, hfails⟩
    cases hpart with
    | self => exact Or.inl hfails
    | operand hf hpart => exact Or.inr ⟨_, hf, p, hpart, hfails⟩
  · rintro (hfails | ⟨f, hf, p, hpart, hfails⟩)
    · exact ⟨e, .self e, hfails⟩
    · exact ⟨p, .operand hf hpart, hfails⟩

end Expr

namespace Interval

variable {a b : Interval}

theorem isBottom_negation_truthValue (a : Interval) : a.truthValue.negation.isBottom = a.isBottom := by
  rw [← isBottom_truthValue a]
  rcases truthValue_cases a with h | h | h | h <;> rw [h] <;> decide

theorem isBottom_connective (op : Connective) (a b : Interval) :
    (connective op a b).isBottom = (a.isBottom || b.isBottom) := by
  unfold connective
  cases h : a.isBottom || b.isBottom with
  | true => rfl
  | false =>
      rw [if_neg Bool.false_ne_true]
      cases op with
      | and => dsimp only; split_ifs <;> rfl
      | or => dsimp only; split_ifs <;> rfl

theorem isBottom_comparison (op : Comparison) (a b : Interval) :
    (comparison op a b).isBottom = (a.isBottom || b.isBottom) := by
  unfold comparison
  split_ifs with h
  · rw [h]
    rfl
  all_goals
    rw [Bool.not_eq_true] at h
    rw [h]
    rfl

end Interval

namespace Expr

variable {env : Environment} {e f : Expr} {r : Interval}

theorem exists_infeasible_single {a : Interval} (ha : evaluate env e = .ok a) :
    (∃ g ∈ [e], evaluate env g = .ok .bottom) ↔ a.isBottom = true := by
  simp only [List.mem_singleton, exists_eq_left, ha, Except.ok.injEq, Interval.isBottom_iff]

theorem exists_infeasible_pair {a b : Interval} (ha : evaluate env e = .ok a) (hb : evaluate env f = .ok b) :
    (∃ g ∈ [e, f], evaluate env g = .ok .bottom) ↔ (a.isBottom || b.isBottom) = true := by
  simp only [List.mem_pair, exists_eq_or_imp, exists_eq_left, ha, hb, Except.ok.injEq, Bool.or_eq_true,
    Interval.isBottom_iff]

/-- What combines operands and is no operation fails only through them. -/
theorem not_fails (hoperands : e.operands ≠ []) (h : ∀ type left op right, e ≠ .arithmetic type left op right) :
    ¬ e.Fails env := by
  intro hfails
  cases hfails with
  | leaf hleaf _ => exact hoperands hleaf
  | overflow _ _ _ _ _ _ => exact h _ _ _ _ rfl

theorem fails_arithmetic_iff {type : Ty} {left right : Expr} {op : Arithmetic} {a b : Interval}
    (htype : type.isNumeric = true) (hleft : evaluate env left = .ok a) (hright : evaluate env right = .ok b) :
    (arithmetic type left op right).Fails env ↔
      a.isBottom = false ∧ b.isBottom = false ∧ Interval.Overflows op a b := by
  refine ⟨fun h => ?_, fun ⟨ha, hb, h⟩ => .overflow htype hleft hright ha hb h⟩
  cases h with
  | leaf hleaf _ =>
      rw [operands, if_pos htype] at hleaf
      cases hleaf
  | overflow _ hleft' hright' ha hb h =>
      cases hleft.symm.trans hleft'
      cases hright.symm.trans hright'
      exact ⟨ha, hb, h⟩

/-- Evaluation has outcomes for all operands if it has one for the expression, which is infeasible exactly if it fails
by itself or an operand is infeasible. -/
theorem evaluate_operands (h : evaluate env e = .ok r) :
    (∀ f ∈ e.operands, ∃ a, evaluate env f = .ok a) ∧
      (r.isBottom = true ↔ e.Fails env ∨ ∃ f ∈ e.operands, evaluate env f = .ok .bottom) := by
  by_cases hleaf : e.operands = []
  · rw [fails_iff_of_leaf hleaf, hleaf, h, Except.ok.injEq, Interval.isBottom_iff]
    simp
  · cases e with
    | signed type sign operand =>
        rw [evaluate] at h
        obtain ⟨a, ha, h⟩ := bind_eq_ok.1 h
        refine ⟨by simp [operands, ha], ?_⟩
        rw [or_iff_right (not_fails hleaf (by simp)), operands, exists_infeasible_single ha]
        cases sign with
        | plus => rw [← pure_eq_ok.1 h]
        | minus => rw [← pure_eq_ok.1 h, Interval.isBottom_neg]
    | not operand =>
        rw [evaluate] at h
        obtain ⟨a, ha, h⟩ := bind_eq_ok.1 h
        refine ⟨by simp [operands, ha], ?_⟩
        rw [or_iff_right (not_fails hleaf (by simp)), operands, exists_infeasible_single ha, ← pure_eq_ok.1 h,
          Interval.isBottom_negation_truthValue]
    | arithmetic type left op right =>
        have htype : type.isNumeric = true := by
          by_contra htype
          exact hleaf (if_neg htype)
        rw [evaluate, if_pos htype] at h
        obtain ⟨a, ha, h⟩ := bind_eq_ok.1 h
        obtain ⟨b, hb, h⟩ := bind_eq_ok.1 h
        rw [operands, if_pos htype]
        refine ⟨by simp [ha, hb], ?_⟩
        rw [fails_arithmetic_iff htype ha hb, exists_infeasible_pair ha hb, ← pure_eq_ok.1 h,
          Interval.isBottom_arithmetic_iff]
        cases a.isBottom <;> cases b.isBottom <;> simp
    | connective left op right =>
        rw [evaluate] at h
        obtain ⟨a, ha, h⟩ := bind_eq_ok.1 h
        obtain ⟨b, hb, h⟩ := bind_eq_ok.1 h
        refine ⟨by simp [operands, ha, hb], ?_⟩
        rw [or_iff_right (not_fails hleaf (by simp)), operands, exists_infeasible_pair ha hb, ← pure_eq_ok.1 h,
          Interval.isBottom_connective, Interval.isBottom_truthValue, Interval.isBottom_truthValue]
    | compare left op right =>
        have htypes : (left.type.isNumeric && right.type.isNumeric) = true := by
          by_contra htypes
          exact hleaf (if_neg htypes)
        rw [evaluate, if_pos htypes] at h
        obtain ⟨a, ha, h⟩ := bind_eq_ok.1 h
        obtain ⟨b, hb, h⟩ := bind_eq_ok.1 h
        rw [or_iff_right (not_fails hleaf (by simp)), operands, if_pos htypes]
        refine ⟨by simp [ha, hb], ?_⟩
        rw [exists_infeasible_pair ha hb, ← pure_eq_ok.1 h, Interval.isBottom_comparison]
    | _ => exact absurd rfl hleaf

/-- An expression is infeasible exactly if a part of it fails. -/
theorem isBottom_iff_parts {e : Expr} {r : Interval} (h : evaluate env e = .ok r) :
    r.isBottom = true ↔ ∃ p, e.Part p ∧ p.Fails env := by
  obtain ⟨hoperands, hbottom⟩ := evaluate_operands h
  rw [hbottom, exists_part_iff]
  refine or_congr_right (exists_congr fun f => and_congr_right fun hf => ?_)
  obtain ⟨a, ha⟩ := hoperands f hf
  have hlt := sizeOf_lt_of_mem_operands hf
  rw [← isBottom_iff_parts ha, ha, Except.ok.injEq, Interval.isBottom_iff]
termination_by sizeOf e

end Expr

namespace Doubling

def amount : Identifier := ⟨"x", .float, .variable⟩

/-- The double nearest to `10 ^ 308`, more than half of the largest one. -/
def large : Double := .ofRat (10 ^ 308)

def environment : Environment := ⟨fun _ => .ofDoubles large large, fun _ _ => .top, fun _ _ => .top⟩

def doubled : Expr := .arithmetic .float (.var amount) .add (.var amount)

end Doubling

/-- Arithmetic gives the empty range exactly if an operand is empty or every result is rounded to the same infinity,
negation only if its operand is empty, and an expression is infeasible exactly if a literal, variable, item or length
among its parts is or an operation among them overflows in this way. -/
theorem arithmetic_infeasible_iff (op : Arithmetic) (a b : Interval) (env : Environment) (e : Expr) :
    ((Interval.arithmetic op a b).isBottom = true ↔
      a.isBottom = true ∨ b.isBottom = true ∨ Interval.Overflows op a b) ∧
    (a.neg.isBottom = true ↔ a.isBottom = true) ∧
    ∀ r, evaluate env e = .ok r → (r.isBottom = true ↔ ∃ p, e.Part p ∧ p.Fails env) :=
  ⟨Interval.isBottom_arithmetic_iff, by rw [Interval.isBottom_neg], fun _ => Expr.isBottom_iff_parts⟩

/-- A part of `x + x` fails if `x` is large, although `x` does not. -/
theorem arithmetic_infeasible_doubled :
    evaluate Doubling.environment Doubling.doubled = .ok .bottom ∧
      (∃ p, Doubling.doubled.Part p ∧ p.Fails Doubling.environment) ∧
      ¬ (Expr.var Doubling.amount).Fails Doubling.environment := by
  have hsum : evaluate Doubling.environment Doubling.doubled = .ok .bottom := by decide +kernel
  have hvariable : evaluate Doubling.environment (.var Doubling.amount) ≠ .ok .bottom := by decide +kernel
  exact ⟨hsum, ((arithmetic_infeasible_iff .add .top .top _ _).2.2 _ hsum).1 rfl,
    fun hfails => hvariable ((Expr.fails_iff_of_leaf rfl).1 hfails)⟩

/-- Sums and products of large numbers are empty ranges, though no operand is: the sum `x + x` is infeasible in an
environment that has a value for every variable. -/
theorem doubled_infeasible :
    let a := Interval.ofDoubles Doubling.large Doubling.large
    a.isBottom = false ∧ (a.add a).isBottom = true ∧ (a.mul a).isBottom = true ∧ (a.sub a.neg).isBottom = true ∧
      (∀ x, (Doubling.environment.value x).isBottom = false) ∧
      evaluate Doubling.environment Doubling.doubled = .ok .bottom := by
  intro a
  have hproper : a.isBottom = false := by decide +kernel
  exact ⟨hproper, by decide +kernel, by decide +kernel, by decide +kernel, fun _ => hproper, by decide +kernel⟩

end FlowAnalysis
