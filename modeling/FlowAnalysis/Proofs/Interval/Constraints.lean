import FlowAnalysis.Proofs.Interval.Refine
import FlowAnalysis.Proofs.Store

/-!
The constraints that conditions lead to. A refinement admits the numbers that identifiers amount to if it is not
infeasible and each identifier that it constrains has its number in the range that is left for it. Each step of the
refinement of a condition admits them as soon as the ranges that it starts from hold them.
-/

namespace FlowAnalysis

/-- The numbers that identifiers amount to, at most one for each. -/
structure Quantities where
  Has : Identifier → Rat → Prop
  unique : ∀ {x q r}, Has x q → Has x r → q = r

variable {known : Quantities} {env : Environment} {left right : Expr} {answer : Bool} {a : Interval}

/-- Every constrained identifier has its number in the range. -/
def Refinement.Admits (known : Quantities) : Refinement → Prop
  | infeasible => False
  | constrain ranges => ∀ x range, ranges.get? x = some range → ∃ q, known.Has x q ∧ q ∈ range

namespace Refinement

variable {p q : Refinement}

theorem unconstrained_admits : unconstrained.Admits known := by
  intro x range h
  cases h

theorem single_admits {target : Option Identifier} {range : Interval} {r : Rat} (hr : r ∈ range)
    (h : ∀ x, target = some x → known.Has x r) : (single target range).Admits known := by
  unfold single
  rw [Interval.isBottom_eq_false_of_mem hr]
  cases target with
  | none => exact unconstrained_admits
  | some x =>
      intro y range' hget
      rw [OrderedMap.get?_insert] at hget
      split_ifs at hget with hxy
      · cases hget
        exact ⟨r, hxy ▸ h x rfl, hr⟩
      · cases hget

/-- Further ranges that hold the numbers keep a refinement feasible. -/
theorem narrow_admits {ranges : OrderedMap Identifier Interval} {rest : List (Identifier × Interval)}
    (hranges : (constrain ranges).Admits known)
    (hrest : ∀ x range, (x, range) ∈ rest → ∃ q, known.Has x q ∧ q ∈ range) :
    (narrow ranges rest).Admits known := by
  induction rest generalizing ranges with
  | nil => exact hranges
  | cons entry rest ih =>
      obtain ⟨x, range⟩ := entry
      obtain ⟨r, hr, hrange⟩ := hrest x range List.mem_cons_self
      have hstep : ∀ merged : Interval, r ∈ merged →
          (if merged.isBottom then infeasible else narrow (ranges.insert x merged) rest).Admits known := by
        intro merged hmerged
        rw [Interval.isBottom_eq_false_of_mem hmerged]
        refine ih ?_ fun y range' hy => hrest y range' (List.mem_cons_of_mem _ hy)
        intro y range' hget
        rw [OrderedMap.get?_insert] at hget
        split_ifs at hget with hyx
        · cases hget
          exact ⟨r, hyx ▸ hr, hmerged⟩
        · exact hranges y range' hget
      rw [narrow]
      cases hget : ranges.get? x with
      | none => exact hstep range hrange
      | some existing =>
          obtain ⟨r', hr', hexisting⟩ := hranges x existing hget
          obtain rfl := known.unique hr hr'
          exact hstep _ (Interval.mem_meet.2 ⟨hexisting, hrange⟩)

theorem and_admits (hp : p.Admits known) (hq : q.Admits known) : (p.and q).Admits known := by
  cases p with
  | infeasible => exact hp.elim
  | constrain ranges =>
      cases q with
      | infeasible => exact hq.elim
      | constrain others =>
          exact narrow_admits hp fun x range h => hq x range (OrderedMap.mem_entries_iff.1 h)

/-- What one side of a disjunction admits, the disjunction admits. -/
theorem or_admits (h : p.Admits known ∨ q.Admits known) : (p.or q).Admits known := by
  cases p with
  | infeasible => exact h.resolve_left id
  | constrain ranges =>
      cases q with
      | infeasible => exact h.resolve_right id
      | constrain others =>
          intro x range hget
          rw [OrderedMap.get?_filterMap] at hget
          obtain ⟨first, hfirst, hget⟩ := Option.bind_eq_some_iff.1 hget
          obtain ⟨second, hsecond, rfl⟩ := Option.map_eq_some_iff.1 hget
          rcases h with h | h
          · obtain ⟨r, hr, hmem⟩ := h x first hfirst
            exact ⟨r, hr, Interval.mem_of_le (Interval.le_join_left first second) hmem⟩
          · obtain ⟨r, hr, hmem⟩ := h x second hsecond
            exact ⟨r, hr, Interval.mem_of_le (Interval.le_join_right first second) hmem⟩

/-- A connective of conditions that should have an answer: both parts have to have it, or one. -/
theorem connective_admits {op : Connective} {holdsLeft holdsRight answer : Bool}
    (h : op.holds holdsLeft holdsRight = answer) (hp : holdsLeft = answer → p.Admits known)
    (hq : holdsRight = answer → q.Admits known) :
    (connective (if answer then op else op.dual) p q).Admits known := by
  cases answer with
  | true =>
      cases op with
      | and =>
          obtain ⟨hl, hr⟩ := Bool.and_eq_true_iff.1 h
          exact and_admits (hp hl) (hq hr)
      | or => exact or_admits ((Bool.or_eq_true_iff.1 h).imp hp hq)
  | false =>
      cases op with
      | and => exact or_admits ((Bool.and_eq_false_iff.1 h).imp hp hq)
      | or =>
          obtain ⟨hl, hr⟩ := Bool.or_eq_false_iff.1 h
          exact and_admits (hp hl) (hq hr)

end Refinement

/-! ### Conditions -/

/-- What is known of a numeric operand: its range holds its number, a double that is whole if the type says so, and the
identifier that a condition on it can narrow amounts to the same number. -/
structure Expr.Amounts (env : Environment) (known : Quantities) (e : Expr) (q : Rat) : Prop where
  mem : ∀ a, evaluate env e = .ok a → q ∈ a
  isDouble : Bound.round q = .fin q
  whole : e.type.isIntegral = true → ∃ k : Int, q = k
  refinable : ∀ x, e.refinable? = some x → known.Has x q

/-- Numbers of integral types that differ are at least one apart. -/
theorem Expr.Amounts.apart {x y : Rat} (hx : left.Amounts env known x) (hy : right.Amounts env known y)
    (hintegral : (left.type.isIntegral && right.type.isIntegral) = true) (hne : x ≠ y) : x + 1 ≤ y ∨ y + 1 ≤ x := by
  rw [Bool.and_eq_true] at hintegral
  obtain ⟨k, rfl⟩ := hx.whole hintegral.1
  obtain ⟨l, rfl⟩ := hy.whole hintegral.2
  exact whole_apart hne

/-- A comparison that holds between two numbers admits them. -/
theorem refineNumeric_admits {op : Comparison} {x y : Rat} {r : Refinement} (hx : left.Amounts env known x)
    (hy : right.Amounts env known y) (hholds : op.holds x y = true)
    (h : refineNumeric env left op right = .ok r) : r.Admits known := by
  unfold refineNumeric at h
  split at h
  · obtain ⟨a, ha, h⟩ := bind_eq_ok.1 h
    obtain ⟨b, hb, h⟩ := bind_eq_ok.1 h
    have hxa := hx.mem a ha
    have hyb := hy.mem b hb
    rw [Interval.isBottom_or_eq_false hxa hyb] at h
    obtain ⟨step, hstep, hnonneg, hapart⟩ : ∃ step : Rat,
        (if left.type.isIntegral && right.type.isIntegral then (1 : Bound) else 0) = .fin step ∧
          0 ≤ step ∧ (x ≠ y → x + step ≤ y ∨ y + step ≤ x) := by
      split_ifs with hintegral
      · exact ⟨1, Bound.one_eq, by norm_num, hx.apart hy hintegral⟩
      · refine ⟨0, Bound.zero_eq, le_refl 0, fun _ => ?_⟩
        rw [add_zero, add_zero]
        exact le_total _ _
    obtain ⟨l, m, hrefine, hl, hm⟩ := Interval.refineComparison?_sound hxa hyb hx.isDouble hy.isDouble hholds
      hnonneg hapart
    simp only [Bool.false_eq_true, if_false, hstep, hrefine] at h
    obtain rfl := pure_eq_ok.1 h
    exact Refinement.and_admits (Refinement.single_admits (Interval.mem_meet.2 ⟨hxa, hl⟩) hx.refinable)
      (Refinement.single_admits (Interval.mem_meet.2 ⟨hyb, hm⟩) hy.refinable)
  · obtain rfl := pure_eq_ok.1 h
    exact Refinement.unconstrained_admits

/-- A comparison of anything but numbers constrains nothing. -/
theorem refineNumeric_eq_unconstrained {op : Comparison} {r : Refinement}
    (htypes : ¬ (left.type.isNumeric && right.type.isNumeric) = true) (h : refineNumeric env left op right = .ok r) :
    r = .unconstrained := by
  rw [refineNumeric, if_neg htypes] at h
  exact (pure_eq_ok.1 h).symm

/-- A condition whose range holds the answer that it should have is feasible. -/
theorem refineTruth_admits (h : truthNumber answer ∈ a.truthValue) : (refineTruth a answer).Admits known := by
  unfold refineTruth
  dsimp only
  split_ifs with htrue hfalse hfalse
  · subst hfalse
    subst htrue
    exact Bool.noConfusion (Interval.truthNumber_mem_falsity.1 h)
  · exact Refinement.unconstrained_admits
  · have hnegation := Interval.mem_negation h
    rw [hfalse, Interval.truthNumber_mem_falsity] at hnegation
    exact absurd (Bool.not_eq_false' .. ▸ hnegation) htrue
  · exact Refinement.unconstrained_admits

/-- A variable that has the answer that it should have, read as a condition. It is constrained to the number that the
answer is, if that is its only number with this answer. -/
theorem refineVariable_admits {x : Identifier} {r : Refinement}
    (htruth : ∀ a, evaluate env (.var x) = .ok a → truthNumber answer ∈ a.truthValue)
    (htrue : answer = true → x.type = .bool → known.Has x 1)
    (hfalse : answer = false → x.type.isNumeric = true → known.Has x 0)
    (h : refineVariable env x answer = .ok r) : r.Admits known := by
  obtain ⟨a, ha, h⟩ := bind_eq_ok.1 h
  have hmem := htruth a ha
  dsimp only at h
  rw [Interval.isBottom_eq_false_of_mem hmem, Bool.or_false, Bool.or_false] at h
  cases answer with
  | true =>
      have hne : a.truthValue ≠ .falsity := fun heq =>
        Bool.noConfusion (Interval.truthNumber_mem_falsity.1 (heq ▸ hmem))
      simp only [hne, decide_false, if_true, Bool.false_eq_true, if_false] at h
      split_ifs at h with hbool
      · obtain rfl := pure_eq_ok.1 h
        refine Refinement.single_admits (Interval.mem_point.2 rfl) fun y hy => ?_
        obtain rfl := Option.some.inj hy
        exact htrue rfl hbool
      · obtain rfl := pure_eq_ok.1 h
        exact Refinement.unconstrained_admits
  | false =>
      have hne : a.truthValue ≠ .truth := fun heq =>
        Bool.noConfusion (Interval.truthNumber_mem_truth.1 (heq ▸ hmem))
      simp only [hne, decide_false, Bool.false_eq_true, if_false] at h
      split_ifs at h with hnumeric
      · obtain rfl := pure_eq_ok.1 h
        refine Refinement.single_admits (Interval.mem_falsity.2 rfl) fun y hy => ?_
        obtain rfl := Option.some.inj hy
        exact hfalse rfl hnumeric
      · obtain rfl := pure_eq_ok.1 h
        exact Refinement.unconstrained_admits

end FlowAnalysis
