import FlowAnalysis.Proofs.Interval.Constraints
import FlowAnalysis.Proofs.Numeric.Evaluation

/-!
Refinement is sound for numeric programs. A condition that has the answer it should have is not found
infeasible, and every variable that it constrains lies in the range that is left for it. The induction
follows the condition down with the answer that each part should have; of a disjunction only one part
needs to have it.
-/

namespace FlowAnalysis

variable {σ : Valuation} {env : Environment} {e left right : Expr} {v w : Value}

/-- Every constrained variable lies in its range. -/
def Refinement.Allows (σ : Valuation) : Refinement → Prop
  | infeasible => False
  | constrain ranges =>
    ∀ x range, ranges.get? x = some range → x.IsScalar ∧ (σ.value x).value ∈ range

def Valuation.quantities (σ : Valuation) : Quantities where
  Has x q := x.IsScalar ∧ (σ.value x).value = q
  unique hq hr := hq.2.symm.trans hr.2

theorem Refinement.allows_of_admits {r : Refinement} (h : r.Admits σ.quantities) : r.Allows σ := by
  cases r with
  | infeasible => exact h
  | constrain ranges =>
      intro x range hget
      obtain ⟨q, ⟨hscalar, rfl⟩, hmem⟩ := h x range hget
      exact ⟨hscalar, hmem⟩

/-! ### Conditions -/

/-- What a condition on an expression can narrow is the variable that the expression reads. -/
theorem Expr.Evaluates.refinable {x : Identifier} {n : Number} (h : e.Evaluates σ (.number n))
    (hx : e.refinable? = some x) : x.IsScalar ∧ σ.value x = n := by
  cases h with
  | var hscalar =>
      rw [refinable?, if_pos hscalar.2] at hx
      cases hx
      exact ⟨hscalar, rfl⟩
  | _ => cases hx

theorem Expr.Evaluates.amounts {n : Number} (henv : env.Describes σ) (h : e.Evaluates σ (.number n)) :
    e.Amounts env σ.quantities n.value where
  mem _ ha := evaluate_sound henv h ha
  isDouble := n.isDouble
  whole := h.fits.whole
  refinable x hx := by
    obtain ⟨hscalar, rfl⟩ := h.refinable hx
    exact ⟨hscalar, rfl⟩

/-- A variable that has an answer, read as a condition. -/
theorem refineVariable_sound (henv : env.Describes σ) {x : Identifier} (hscalar : x.IsScalar)
    {answer : Bool} (hanswer : (Value.number (σ.value x)).truthy = answer) {r : Refinement}
    (h : refineVariable env x answer = .ok r) : r.Admits σ.quantities := by
  refine refineVariable_admits (fun a ha => ?_) (fun htrue hbool => ⟨hscalar, ?_⟩) (fun hfalse _ => ⟨hscalar, ?_⟩) h
  · exact hanswer ▸ (evaluate_sound henv (.var hscalar) ha).truth
  · obtain ⟨holds, hholds⟩ : (Value.number (σ.value x)).Fits .bool := hbool ▸ σ.fits x hscalar
    rw [hholds, Value.truthy_ofTruth, htrue] at hanswer
    rw [show σ.value x = .ofTruth holds from Value.number.inj hholds, hanswer]
    rfl
  · rw [hfalse] at hanswer
    exact not_not.1 (of_decide_eq_false hanswer)

/-- A comparison that has an answer, or its opposite, is refined soundly. -/
theorem refineCompare_sound (henv : env.Describes σ) {op : Comparison} {name : String}
    (hname : op.callName? = some name) (hleft : left.Evaluates σ v) (hright : right.Evaluates σ w)
    {answer : Bool} (hresult : op.Gives v w answer) {r : Refinement}
    (h : refineCompare env left (if answer then op else op.negated) right = .ok r) :
    r.Admits σ.quantities := by
  have hnumeric : refineNumeric env left (if answer then op else op.negated) right = .ok r := by
    cases op <;> cases hname <;> cases answer <;> exact h
  by_cases htypes : (left.type.isNumeric && right.type.isNumeric) = true
  · have htypes' := htypes
    rw [Bool.and_eq_true] at htypes'
    obtain ⟨x, rfl⟩ := hleft.fits.number htypes'.1
    obtain ⟨y, rfl⟩ := hright.fits.number htypes'.2
    obtain rfl : answer = op.holds x.value y.value := hresult
    exact refineNumeric_admits (hleft.amounts henv) (hright.amounts henv) (op.holds_answered _ _) hnumeric
  · exact refineNumeric_eq_unconstrained htypes hnumeric ▸ Refinement.unconstrained_admits

/-- What follows from a condition that should have an answer is the case if it has the answer. -/
theorem refineAnswer_sound (henv : env.Describes σ) (he : e.Evaluates σ v) {answer : Bool}
    (hanswer : v.truthy = answer) {r : Refinement} (h : refineAnswer env e answer = .ok r) :
    r.Allows σ := by
  apply Refinement.allows_of_admits
  -- where a condition constrains nothing by itself only its truth value counts
  have hvalue : ∀ {e : Expr} {v : Value} {answer : Bool} {r : Refinement}, e.Evaluates σ v →
      v.truthy = answer →
        (do let value ← evaluate env e; return refineTruth value answer) = Except.ok r →
          r.Admits σ.quantities := by
    intro e v answer r he hanswer h
    obtain ⟨a, ha, h⟩ := bind_eq_ok.1 h
    obtain rfl := pure_eq_ok.1 h
    exact refineTruth_admits (hanswer ▸ (evaluate_sound henv he ha).truth)
  induction he generalizing answer r with
  | literal hliteral => exact hvalue (.literal hliteral) hanswer h
  | var hscalar => exact refineVariable_sound henv hscalar hanswer h
  | input hfits => exact hvalue (.input hfits) hanswer h
  | not _ ih =>
      rw [Value.truthy_ofTruth] at hanswer
      exact ih (by rw [← hanswer, Bool.not_not]) h
  | connective _ _ ihl ihr =>
      rw [Value.truthy_ofTruth] at hanswer
      obtain ⟨l, hl, h⟩ := bind_eq_ok.1 h
      obtain ⟨m, hm, h⟩ := bind_eq_ok.1 h
      obtain rfl := pure_eq_ok.1 h
      exact Refinement.connective_admits hanswer (fun hv => ihl hv hl) (fun hw => ihr hw hm)
  | compare hname hleft hright hresult =>
      rw [Value.truthy_ofTruth] at hanswer
      subst hanswer
      exact refineCompare_sound henv hname hleft hright hresult h
  | signed hoperand hfits =>
      cases answer with
      | true =>
          obtain rfl := pure_eq_ok.1 h
          exact Refinement.unconstrained_admits
      | false => exact hvalue (.signed hoperand hfits) hanswer h
  | arithmetic hleft hright hresult hfits =>
      cases answer with
      | true =>
          obtain rfl := pure_eq_ok.1 h
          exact Refinement.unconstrained_admits
      | false => exact hvalue (.arithmetic hleft hright hresult hfits) hanswer h

end FlowAnalysis
