import FlowAnalysis.Interval.Refine
import FlowAnalysis.Proofs.Numeric.Translation
import FlowAnalysis.Proofs.Store

/-!
Evaluation and refinement are sound for numeric programs. If the range of every variable holds the
number that the variable has, then the range of an expression holds its value, and a condition that is
true constrains the variables to ranges in which they lie. In particular it is not found infeasible.
-/

namespace FlowAnalysis

variable {σ : Valuation} {env : Environment} {e : Expr} {v w r : Value} {a b : Interval}

/-- The range of every variable holds its number. -/
def Environment.Describes (env : Environment) (σ : Valuation) : Prop :=
  ∀ x : Identifier, x.IsScalar → (σ.value x).value ∈ env.value x

/-- Whether a range holds a value. Texts are only in the range that holds everything. -/
def Value.In : Value → Interval → Prop
  | number x, a => x.value ∈ a
  | text _, a => a = .top

namespace Value

theorem In.truth (h : v.In a) : truthNumber v.truthy ∈ a.truthValue := by
  cases v with
  | number x => exact Interval.mem_truthValue h
  | text content =>
      obtain rfl : a = .top := h
      exact Interval.truthNumber_mem_maybe _

theorem in_top (v : Value) : v.In .top := by
  cases v with
  | number x => exact Interval.mem_top
  | text content => rfl

/-- Only numbers respect the types of numbers. -/
theorem Fits.number {type : Ty} (h : v.Fits type) (htype : type.isNumeric = true) :
    ∃ x, v = .number x := by
  cases type with
  | bool =>
      obtain ⟨holds, rfl⟩ := h
      exact ⟨_, rfl⟩
  | int =>
      obtain ⟨x, rfl, -⟩ := h
      exact ⟨x, rfl⟩
  | float => exact h
  | _ => cases htype

/-- Numbers of integral types are whole. -/
theorem Fits.whole {type : Ty} {x : Number} (h : (Value.number x).Fits type)
    (htype : type.isIntegral = true) : ∃ k : Int, x.value = k := by
  cases type with
  | bool =>
      obtain ⟨holds, heq⟩ := h
      obtain rfl := Value.number.inj heq
      cases holds with
      | false => exact ⟨0, rfl⟩
      | true => exact ⟨1, rfl⟩
  | int =>
      obtain ⟨y, heq, hwhole⟩ := h
      obtain rfl := Value.number.inj heq
      exact hwhole
  | _ => cases htype

end Value

/-! ### Evaluation -/

theorem evaluate_literal {value : Literal} {x : Number}
    (hvalue : value.number?.bind Double.bound? = some (.fin x.value))
    (ha : evaluate env (.literal value) = .ok a) : x.value ∈ a := by
  obtain ⟨d, hd, hbound⟩ := Option.bind_eq_some_iff.1 hvalue
  rw [evaluate, hd] at ha
  obtain rfl := pure_eq_ok.1 ha
  rw [Interval.ofDoubles, hbound]
  exact Interval.mem_point.2 rfl

/-- The rounded result of an operation lies in the range of results. -/
theorem mem_arithmetic {op : Arithmetic} {x y z : Number} (hx : x.value ∈ a) (hy : y.value ∈ b)
    (h : op.Gives (.number x) (.number y) (.number z)) : z.value ∈ Interval.arithmetic op a b := by
  obtain ⟨exact, hexact, hround⟩ := h
  cases op with
  | add =>
      obtain rfl := Option.some.inj hexact
      exact Interval.mem_add hx hy hround
  | sub =>
      obtain rfl := Option.some.inj hexact
      exact Interval.mem_sub hx hy hround
  | mul =>
      obtain rfl := Option.some.inj hexact
      exact Interval.mem_mul hx hy hround
  | div => exact Interval.mem_div hx hy _

/-- Operations on texts give no number. -/
theorem Arithmetic.Gives.numbers {op : Arithmetic} {z : Number} (h : op.Gives v w (.number z)) :
    ∃ x y, v = .number x ∧ w = .number y := by
  cases v with
  | number x =>
      cases w with
      | number y => exact ⟨x, y, rfl, rfl⟩
      | text _ => exact h.elim
  | text _ => exact h.elim

/-- The range of an expression holds its value. -/
theorem evaluate_sound (henv : env.Describes σ) (h : e.Evaluates σ v) (ha : evaluate env e = .ok a) :
    v.In a := by
  induction h generalizing a with
  | literal hvalue => exact evaluate_literal hvalue ha
  | var hscalar =>
      rw [evaluate, if_pos hscalar.2] at ha
      obtain rfl := pure_eq_ok.1 ha
      exact henv _ hscalar
  | @input type v hfits =>
      rw [evaluate] at ha
      obtain rfl := pure_eq_ok.1 ha
      split_ifs with htype
      · subst htype
        obtain ⟨holds, rfl⟩ := hfits
        exact Interval.truthNumber_mem_maybe holds
      · exact v.in_top
  | @signed type sign operand x _ _ ih =>
      rw [evaluate] at ha
      obtain ⟨range, hrange, ha⟩ := bind_eq_ok.1 ha
      cases sign with
      | plus =>
          obtain rfl := pure_eq_ok.1 ha
          exact ih hrange
      | minus =>
          obtain rfl := pure_eq_ok.1 ha
          exact Interval.mem_neg (ih hrange)
  | not _ ih =>
      rw [evaluate] at ha
      obtain ⟨range, hrange, ha⟩ := bind_eq_ok.1 ha
      obtain rfl := pure_eq_ok.1 ha
      exact Interval.mem_negation (ih hrange).truth
  | @arithmetic type left right op v w r _ _ hresult hfits ihl ihr =>
      rw [evaluate] at ha
      split_ifs at ha with htype
      · obtain ⟨l, hl, ha⟩ := bind_eq_ok.1 ha
        obtain ⟨r', hr, ha⟩ := bind_eq_ok.1 ha
        obtain rfl := pure_eq_ok.1 ha
        obtain ⟨z, rfl⟩ := hfits.number htype
        obtain ⟨x, y, rfl, rfl⟩ := hresult.numbers
        exact mem_arithmetic (ihl hl) (ihr hr) hresult
      · obtain rfl := pure_eq_ok.1 ha
        exact r.in_top
  | connective _ _ ihl ihr =>
      rw [evaluate] at ha
      obtain ⟨l, hl, ha⟩ := bind_eq_ok.1 ha
      obtain ⟨r, hr, ha⟩ := bind_eq_ok.1 ha
      obtain rfl := pure_eq_ok.1 ha
      exact Interval.mem_connective _ (ihl hl).truth (ihr hr).truth
  | @compare left right op name v w holds _ hleft hright hresult ihl ihr =>
      rw [evaluate] at ha
      split_ifs at ha with htypes
      · obtain ⟨l, hl, ha⟩ := bind_eq_ok.1 ha
        obtain ⟨r, hr, ha⟩ := bind_eq_ok.1 ha
        obtain rfl := pure_eq_ok.1 ha
        rw [Bool.and_eq_true] at htypes
        obtain ⟨x, rfl⟩ := hleft.fits.number htypes.1
        obtain ⟨y, rfl⟩ := hright.fits.number htypes.2
        obtain rfl : holds = op.holds x.value y.value := hresult
        exact Interval.mem_comparison op (ihl hl) (ihr hr)
      · obtain rfl := pure_eq_ok.1 ha
        exact Interval.truthNumber_mem_maybe holds

end FlowAnalysis
