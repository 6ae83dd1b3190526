import FlowAnalysis.Proofs.Interval.Constraints

/-!
Comparisons of integer literals. An integer literal counts as the double nearest to it, and both the truth value and
the refinement of a comparison of two literals are those of their doubles. Rounding keeps the order of numbers, so
that the answer is the one of the integers unless two different integers have the same nearest double and the
comparison tells them apart. No two integers of magnitude at most `2 ^ 53` have the same nearest double, and below
`2 ^ 53` a comparison is found infeasible exactly if it is false.
-/

namespace FlowAnalysis

namespace Comparison

def bySize : List Comparison := [.eq, .ne, .lt, .le, .gt, .ge]

variable {op : Comparison} {a b : Int} {p q : Rat}

theorem mem_bySize :
    op ∈ bySize ↔ op = .eq ∨ op = .ne ∨ op = .lt ∨ op = .le ∨ op = .gt ∨ op = .ge := by
  simp [bySize]

/-- Rounding two integers keeps the answer of a comparison: if it takes different ones to the same double, the answer
has to be the one between equal numbers. -/
def Kept (op : Comparison) (a b : Int) : Prop :=
  a ≠ b → Bound.round a = Bound.round b → op.holds a b = op.holds a a

/-- Integers up to `2 ^ 53` are doubles, so that rounding keeps all answers. -/
theorem kept_of_abs_le (ha : |a| ≤ 2 ^ 53) (hb : |b| ≤ 2 ^ 53) : op.Kept a b := by
  intro hne hround
  rw [Bound.round_intCast ha, Bound.round_intCast hb] at hround
  exact absurd (Int.cast_injective (Bound.fin.inj hround)) hne

/-- A comparison only depends on which of the numbers is the smaller one. -/
theorem holds_congr {x y x' y' : Rat} (hlt : x < y ↔ x' < y') (hgt : y < x ↔ y' < x') :
    op.holds x y = op.holds x' y' := by
  have heq : x = y ↔ x' = y' := by
    rw [← not_iff_not, ← Ne, ← Ne, ← lt_or_lt_iff_ne, ← lt_or_lt_iff_ne, hlt, hgt]
  cases op <;> simp [holds, heq, hlt, hgt, ← not_lt]

/-- Rounding keeps an answer exactly if it is the one of the rounded numbers. -/
theorem kept_iff (ha : Bound.round a = .fin p) (hb : Bound.round b = .fin q) :
    op.Kept a b ↔ op.holds a b = op.holds p q := by
  have hmono : ∀ {k l : Int} {x y : Rat}, Bound.round k = .fin x → Bound.round l = .fin y → x < y →
      (k : Rat) < l := by
    intro k l x y hk hl hlt
    by_contra hge
    have hle := Bound.round_mono (not_lt.1 hge)
    rw [hk, hl, Bound.fin_le_fin] at hle
    exact absurd hle (not_le.2 hlt)
  by_cases heq : p = q
  · have hround : Bound.round a = Bound.round b := by rw [ha, hb, heq]
    have hself : op.holds a a = op.holds p q := holds_congr (by simp [heq]) (by simp [heq])
    rw [← hself]
    refine ⟨fun hkept => ?_, fun hholds _ _ => hholds⟩
    by_cases hab : a = b
    · rw [hab]
    · exact hkept hab hround
  · refine iff_of_true (fun _ hround => ?_) ?_
    · rw [ha, hb] at hround
      exact absurd (Bound.fin.inj hround) heq
    · rcases lt_or_gt_of_ne heq with hlt | hgt
      · have hlt' := hmono ha hb hlt
        exact holds_congr (iff_of_true hlt' hlt) (iff_of_false hlt'.not_gt hlt.not_gt)
      · have hgt' := hmono hb ha hgt
        exact holds_congr (iff_of_false hgt'.not_gt hgt.not_gt) (iff_of_true hgt' hgt)

end Comparison

namespace Interval

variable {op : Comparison} {p q : Rat} {a b : Interval}

/-! ### Comparisons of single numbers -/

theorem isSingleton_point (p : Rat) : (point (.fin p)).isSingleton = true :=
  decide_eq_true ((point_bounds p).1.trans (point_bounds p).2.symm)

theorem point_inj : point (.fin p) = point (.fin q) ↔ p = q := by
  refine ⟨fun h => ?_, fun h => h ▸ rfl⟩
  have hmem : p ∈ point (.fin q) := h ▸ mem_point.2 rfl
  exact mem_point.1 hmem

/-- A number meets a range exactly if it lies in it. -/
theorem isBottom_point_meet : ((point (.fin p)).meet a).isBottom = false ↔ p ∈ a := by
  constructor
  · intro h
    obtain ⟨r, hr⟩ := exists_mem h
    obtain ⟨hpoint, ha⟩ := mem_meet.1 hr
    exact mem_point.1 hpoint ▸ ha
  · intro h
    exact isBottom_eq_false_of_mem (mem_meet.2 ⟨mem_point.2 rfl, h⟩)

theorem verdict_point_fst (hop : op ∈ Comparison.bySize) :
    (verdict op (point (.fin p)) (point (.fin q))).1 = op.holds p q := by
  have hmeet : ((point (.fin p)).meet (point (.fin q))).isBottom = decide (p ≠ q) := by
    rw [Bool.eq_iff_iff, decide_eq_true_iff, ← Bool.not_eq_false, isBottom_point_meet, mem_point]
  have hp := point_bounds p
  have hq := point_bounds q
  rcases Comparison.mem_bySize.1 hop with rfl | rfl | rfl | rfl | rfl | rfl
  · simp [verdict, Comparison.holds, isSingleton_point, point_inj]
  · simp [verdict, Comparison.holds, hmeet]
  · simp [verdict, Comparison.holds, hp, hq, Bound.fin_lt_fin]
  · simp [verdict, Comparison.holds, hp, hq, Bound.fin_le_fin]
  · simp [verdict, Comparison.holds, hp, hq, Bound.fin_lt_fin]
  · simp [verdict, Comparison.holds, hp, hq, Bound.fin_le_fin]

theorem verdict_point_snd (hop : op ∈ Comparison.bySize) :
    (verdict op (point (.fin p)) (point (.fin q))).2 = !op.holds p q := by
  have hnegated : op.negated ∈ Comparison.bySize := by
    revert hop
    cases op <;> decide
  rw [← Comparison.holds_negated, ← verdict_point_fst hnegated, verdict_negated, Prod.fst_swap]

/-- The truth value of a comparison of two numbers is its answer alone. -/
theorem truthNumber_mem_comparison_point (hop : op ∈ Comparison.bySize) {holds : Bool} :
    truthNumber holds ∈ comparison op (point (.fin p)) (point (.fin q)) ↔ holds = op.holds p q := by
  have hproper := isBottom_or_eq_false (mem_point.2 (Eq.refl p)) (mem_point.2 (Eq.refl q))
  rw [comparison, hproper, verdict_point_fst hop, verdict_point_snd hop]
  cases hholds : op.holds p q with
  | true => exact truthNumber_mem_truth
  | false => exact truthNumber_mem_falsity

/-! ### Refinement of single numbers -/

/-- Below `2 ^ 53` a comparison that leaves room for the first number holds. -/
theorem holds_of_refineComparison? {a b : Int} {left right : Interval} (hop : op ∈ Comparison.bySize)
    (hb : |b| < 2 ^ 53)
    (h : refineComparison? op (point (.fin a)) (point (.fin b)) 1 = some (left, right))
    (hleft : (a : Rat) ∈ left) : op.holds a b = true := by
  have hpb := point_bounds b
  rcases Comparison.mem_bySize.1 hop with rfl | rfl | rfl | rfl | rfl | rfl
  · cases h
    exact decide_eq_true (mem_point.1 hleft)
  · rw [refineComparison?, isSingleton_point, Bool.true_and] at h
    split_ifs at h with hsame
    refine decide_eq_true fun heq => hsame (decide_eq_true (point_inj.2 heq))
  · cases h
    rw [mem_of, hpb.2, Bound.sub_one_eq hb, Bound.fin_le_fin, Int.cast_le] at hleft
    exact decide_eq_true (Int.cast_lt.2 (by omega))
  · cases h
    rw [mem_of, hpb.2, Bound.fin_le_fin] at hleft
    exact decide_eq_true hleft.2
  · cases h
    rw [mem_of, hpb.1, Bound.add_one_eq hb, Bound.fin_le_fin, Int.cast_le] at hleft
    exact decide_eq_true (Int.cast_lt.2 (by omega))
  · cases h
    rw [mem_of, hpb.1, Bound.fin_le_fin] at hleft
    exact decide_eq_true hleft.1

end Interval

/-- The refinement by two ranges of no identifier is infeasible exactly if one of them is empty. -/
theorem Refinement.and_single_none (a b : Interval) :
    (single none a).and (single none b) = .infeasible ↔ ¬ (a.isBottom = false ∧ b.isBottom = false) := by
  unfold single
  cases a.isBottom <;> cases b.isBottom <;> simp [Refinement.and, unconstrained, narrow, OrderedMap.empty]

/-! ### Literals -/

/-- A comparison of two integer literals. -/
def comparing (a : Int) (op : Comparison) (b : Int) : Expr := .compare (.literal (.int a)) op (.literal (.int b))

section

variable {env : Environment} {op : Comparison} {a b : Int} {p q : Rat}

theorem evaluate_int (ha : Bound.round a = .fin p) : evaluate env (.literal (.int a)) = .ok (.point (.fin p)) := by
  rw [evaluate, Literal.number?, Double.ofRat, ha]
  rfl

theorem evaluate_comparing (ha : Bound.round a = .fin p) (hb : Bound.round b = .fin q) :
    evaluate env (comparing a op b) = .ok (.comparison op (.point (.fin p)) (.point (.fin q))) := by
  have htypes : ((Expr.literal (.int a)).type.isNumeric && (Expr.literal (.int b)).type.isNumeric) = true := rfl
  rw [comparing, evaluate, if_pos htypes, evaluate_int ha, evaluate_int hb]
  rfl

/-- A comparison of literals is infeasible exactly if it leaves no room for one of the doubles. -/
theorem refine_comparing (env : Environment) (hop : op ∈ Comparison.bySize) (ha : Bound.round a = .fin p)
    (hb : Bound.round b = .fin q) : ∃ r, refine env (comparing a op b) = .ok r ∧
      (r ≠ .infeasible ↔ ∃ left right,
        Interval.refineComparison? op (.point (.fin p)) (.point (.fin q)) 1 = some (left, right) ∧
          p ∈ left ∧ q ∈ right) := by
  have hnumeric : refine env (comparing a op b) =
      refineNumeric env (.literal (.int a)) op (.literal (.int b)) := by
    rcases Comparison.mem_bySize.1 hop with rfl | rfl | rfl | rfl | rfl | rfl <;> rfl
  have hproper := Interval.isBottom_or_eq_false (Interval.mem_point.2 (Eq.refl p)) (Interval.mem_point.2 (Eq.refl q))
  have hnumbers : ((Expr.literal (.int a)).type.isNumeric && (Expr.literal (.int b)).type.isNumeric) = true := rfl
  have hwhole : ((Expr.literal (.int a)).type.isIntegral && (Expr.literal (.int b)).type.isIntegral) = true := rfl
  rw [hnumeric, refineNumeric, if_pos hnumbers, evaluate_int ha, evaluate_int hb]
  simp only [bind, Except.bind, hproper, hwhole, Bool.false_eq_true, if_false, if_true]
  cases hrefine : Interval.refineComparison? op (.point (.fin p)) (.point (.fin q)) 1 with
  | none => exact ⟨_, rfl, iff_of_false (fun h => h rfl) (by simp)⟩
  | some ranges =>
      refine ⟨_, rfl, ?_⟩
      have hliteral : ∀ value, (Expr.literal value).refinable? = none := fun _ => rfl
      rw [Ne, hliteral, hliteral, Refinement.and_single_none, not_not, Interval.isBottom_point_meet,
        Interval.isBottom_point_meet]
      refine ⟨fun h => ⟨_, _, rfl, h⟩, ?_⟩
      rintro ⟨left, right, heq, h⟩
      cases heq
      exact h

/-- A comparison that holds between the doubles is feasible: they are whole, so that different ones are apart. -/
theorem refineComparison?_of_round (ha : Bound.round a = .fin p) (hb : Bound.round b = .fin q)
    (hholds : op.holds p q = true) :
    ∃ left right, Interval.refineComparison? op (.point (.fin p)) (.point (.fin q)) 1 = some (left, right) ∧
      p ∈ left ∧ q ∈ right := by
  obtain ⟨k, rfl⟩ := Bound.round_whole ha
  obtain ⟨l, rfl⟩ := Bound.round_whole hb
  exact Interval.refineComparison?_sound (Interval.mem_point.2 rfl) (Interval.mem_point.2 rfl) (Bound.round_round ha)
    (Bound.round_round hb) hholds zero_le_one whole_apart

end

/-- A comparison of two literals of 64 bits is the one of the integers exactly if rounding keeps its answer, which it
does up to `2 ^ 53`: then the truth value is the answer and the comparison is infeasible only if it is false. Below
`2 ^ 53` every comparison that is false is found infeasible. -/
theorem literals_compared (env : Environment) {op : Comparison} (hop : op ∈ Comparison.bySize) {a b : Int}
    (ha : -2 ^ 63 ≤ a ∧ a < 2 ^ 63) (hb : -2 ^ 63 ≤ b ∧ b < 2 ^ 63) :
    ∃ range r, evaluate env (comparing a op b) = .ok range ∧ refine env (comparing a op b) = .ok r ∧
      (truthNumber (op.holds a b) ∈ range ↔ op.Kept a b) ∧
      (truthNumber (!op.holds a b) ∈ range ↔ ¬ op.Kept a b) ∧
      (op.Kept a b → r = .infeasible → op.holds a b = false) ∧
      (|a| ≤ 2 ^ 53 → |b| ≤ 2 ^ 53 → op.Kept a b) ∧
      (|a| < 2 ^ 53 → |b| < 2 ^ 53 → op.holds a b = false → r = .infeasible) := by
  obtain ⟨p, hp⟩ := Bound.exists_round_eq_fin (abs_le.2 ⟨ha.1, ha.2.le⟩)
  obtain ⟨q, hq⟩ := Bound.exists_round_eq_fin (abs_le.2 ⟨hb.1, hb.2.le⟩)
  have hkept : op.Kept a b ↔ op.holds a b = op.holds p q := Comparison.kept_iff hp hq
  obtain ⟨r, hr, hfeasible⟩ := refine_comparing env hop hp hq
  refine ⟨_, r, evaluate_comparing hp hq, hr, ?_, ?_, ?_, Comparison.kept_of_abs_le, ?_⟩
  · rw [hkept, Interval.truthNumber_mem_comparison_point hop]
  · rw [hkept, Interval.truthNumber_mem_comparison_point hop]
    cases op.holds a b <;> cases op.holds p q <;> decide
  · intro hexact hinfeasible
    rw [hkept.1 hexact, ← Bool.not_eq_true]
    intro hholds
    exact hfeasible.2 (refineComparison?_of_round hp hq hholds) hinfeasible
  · intro ha' hb' hfalse
    by_contra hr'
    obtain ⟨left, right, hrefine, hleft, -⟩ := hfeasible.1 hr'
    obtain rfl := Bound.fin.inj (hp.symm.trans (Bound.round_intCast ha'.le))
    obtain rfl := Bound.fin.inj (hq.symm.trans (Bound.round_intCast hb'.le))
    rw [Interval.holds_of_refineComparison? hop hb' hrefine hleft] at hfalse
    cases hfalse

def Environment.unknown : Environment := ⟨fun _ => .top, fun _ _ => .top, fun _ _ => .top⟩

/-- The two largest literals have the same nearest double, but `9223372036854775807 >= 9223372036854775806` is true of
equal numbers as well and keeps its answer. -/
theorem literals_compared_largest :
    Bound.round (2 ^ 63 - 1 : Int) = Bound.round (2 ^ 63 - 2 : Int) ∧
      ∃ range r, evaluate .unknown (comparing (2 ^ 63 - 1) .ge (2 ^ 63 - 2)) = .ok range ∧
        refine .unknown (comparing (2 ^ 63 - 1) .ge (2 ^ 63 - 2)) = .ok r ∧
        truthNumber true ∈ range ∧ r ≠ .infeasible := by
  have hkept : Comparison.ge.Kept (2 ^ 63 - 1) (2 ^ 63 - 2) := fun _ _ => by decide +kernel
  have hholds : Comparison.ge.holds (2 ^ 63 - 1 : Int) (2 ^ 63 - 2 : Int) = true := by decide +kernel
  obtain ⟨range, r, hrange, hr, htrue, -, hfeasible, -⟩ := literals_compared .unknown
    (show .ge ∈ Comparison.bySize by decide) (a := 2 ^ 63 - 1) (b := 2 ^ 63 - 2) (by decide) (by decide)
  rw [hholds] at htrue hfeasible
  exact ⟨by decide +kernel, range, r, hrange, hr, htrue.2 hkept, fun h => Bool.noConfusion (hfeasible hkept h)⟩

/-- Literals are not compared exactly: `9007199254740992 < 9007199254740993` is true, but both count as the same double,
so that it is found false and infeasible, and `9007199254740992 == 9007199254740993` is found true. -/
theorem literals_conflated :
    Comparison.lt.holds (2 ^ 53 : Int) (2 ^ 53 + 1 : Int) = true ∧
      evaluate .unknown (comparing (2 ^ 53) .lt (2 ^ 53 + 1)) = .ok .falsity ∧
      refine .unknown (comparing (2 ^ 53) .lt (2 ^ 53 + 1)) = .ok .infeasible ∧
      evaluate .unknown (comparing (2 ^ 53) .eq (2 ^ 53 + 1)) = .ok .truth := by
  have hsame : (refine .unknown (comparing (2 ^ 53) .lt (2 ^ 53 + 1))).toOption.any (Refinement.same .infeasible) =
      true := by decide +kernel
  obtain ⟨r, hr, hsame⟩ := (Option.any_eq_true _ _).1 hsame
  cases r with
  | infeasible => exact ⟨by decide +kernel, by decide +kernel, toOption_eq_some.1 hr, by decide +kernel⟩
  | constrain ranges => cases hsame

end FlowAnalysis
