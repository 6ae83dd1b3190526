import FlowAnalysis.Program.Alternatives
import FlowAnalysis.Proofs.Numeric.Semantics
import FlowAnalysis.Proofs.Outcome
import FlowAnalysis.Proofs.Program.Alternatives

/-!
Translation of statements keeps their values. Whatever value a statement of a numeric program has, one
of the expressions that it denotes has it as well. Conversions are the one place where the two differ in
form: a conversion to the type that a value has anyway disappears, and any other gives an unknown value
of its target type.
-/

namespace FlowAnalysis

variable {σ : Valuation} {v w r : Value}

/-! ### Values of expressions -/

/-- The values that an expression may have. -/
inductive Expr.Evaluates (σ : Valuation) : Expr → Value → Prop where
  | literal {value : Literal} {x : Number}
      (hvalue : value.number?.bind Double.bound? = some (.fin x.value)) :
      Evaluates σ (.literal value) (.number x)
  | var {x : Identifier} (hscalar : x.IsScalar) : Evaluates σ (.var x) (.number (σ.value x))
  | input {type : Ty} {v : Value} (hfits : v.Fits type) : Evaluates σ (.input type) v
  | signed {type : Ty} {sign : Sign} {operand : Expr} {x : Number}
      (hoperand : Evaluates σ operand (.number x))
      (hfits : (Value.number (sign.apply x)).Fits type) :
      Evaluates σ (.signed type sign operand) (.number (sign.apply x))
  | not {operand : Expr} {v : Value} (hoperand : Evaluates σ operand v) :
      Evaluates σ (.not operand) (.ofTruth !v.truthy)
  | arithmetic {type : Ty} {left right : Expr} {op : Arithmetic} {v w r : Value}
      (hleft : Evaluates σ left v) (hright : Evaluates σ right w) (hresult : op.Gives v w r)
      (hfits : r.Fits type) : Evaluates σ (.arithmetic type left op right) r
  | connective {left right : Expr} {op : Connective} {v w : Value} (hleft : Evaluates σ left v)
      (hright : Evaluates σ right w) :
      Evaluates σ (.connective left op right) (.ofTruth (op.holds v.truthy w.truthy))
  | compare {left right : Expr} {op : Comparison} {name : String} {v w : Value} {holds : Bool}
      (hname : op.callName? = some name) (hleft : Evaluates σ left v)
      (hright : Evaluates σ right w) (hresult : op.Gives v w holds) :
      Evaluates σ (.compare left op right) (.ofTruth holds)

theorem Number.ext {x y : Number} (h : x.value = y.value) : x = y := by
  cases x
  cases y
  cases h
  rfl

theorem Literal.fits {value : Literal} {x : Number}
    (hvalue : value.number?.bind Double.bound? = some (.fin x.value)) :
    (Value.number x).Fits value.type := by
  cases value with
  | bool value =>
      refine ⟨value, congrArg Value.number (Number.ext ?_)⟩
      cases value with
      | false => exact (Bound.fin.inj (Option.some.inj hvalue)).symm
      | true => exact (Bound.fin.inj (Option.some.inj hvalue)).symm
  | int value => exact ⟨x, rfl, Bound.round_whole (Option.some.inj hvalue)⟩
  | float value => exact ⟨x, rfl⟩
  | str value => cases hvalue
  | none => cases hvalue

/-- The value of an expression respects the type of the expression. -/
theorem Expr.Evaluates.fits {e : Expr} (h : e.Evaluates σ v) : v.Fits e.type := by
  cases h with
  | literal hvalue => exact Literal.fits hvalue
  | var hscalar => exact σ.fits _ hscalar
  | input hfits => exact hfits
  | signed _ hfits => exact hfits
  | not _ => exact ⟨_, rfl⟩
  | arithmetic _ _ _ hfits => exact hfits
  | connective _ _ => exact ⟨_, rfl⟩
  | compare _ _ _ _ => exact ⟨_, rfl⟩

/-! ### Conversions -/

/-- A conversion to the type of a value changes nothing. -/
theorem Value.ConvertsTo.eq_of_fits {target : Ty} {name : String}
    (hname : target.callName? = some name) (h : v.ConvertsTo target r) (hfits : v.Fits target) :
    r = v := by
  cases target with
  | bool =>
      obtain ⟨holds, rfl⟩ := hfits
      exact h.2.trans (congrArg ofTruth (truthy_ofTruth holds))
  | int =>
      obtain ⟨x, rfl, k, hk⟩ := hfits
      obtain ⟨-, y, rfl, hy⟩ := h
      refine congrArg number (Number.ext ?_)
      rw [hy, hk]
      simp
  | float =>
      obtain ⟨x, rfl⟩ := hfits
      exact h.2
  | str =>
      obtain ⟨content, rfl⟩ := hfits
      exact h.2
  | _ => cases hname

theorem Expr.Evaluates.convert {e : Expr} {target : Ty} {name : String}
    (hname : target.callName? = some name) (he : e.Evaluates σ v) (h : v.ConvertsTo target r) :
    (Builtin.convert target e).Evaluates σ r := by
  unfold Builtin.convert
  split
  · cases he with
    | literal hvalue =>
        obtain ⟨-, rfl⟩ := h
        exact .literal hvalue
  · split_ifs with htype
    · obtain rfl := h.eq_of_fits hname (htype ▸ he.fits)
      exact he
    · exact .input h.1

/-! ### Choices of operands -/

namespace Alternatives

/-- One alternative for each operand makes one of the choices. -/
theorem mem_product {operands : List Alternatives} {es : List Expr}
    (h : List.Forall₂ (fun e operand => e ∈ operand.toList) es operands) :
    es ∈ product operands := by
  suffices hfold : ∀ (chosen : List (List Expr)) (front : List Expr), front ∈ chosen →
      front ++ es ∈ operands.foldl
        (fun chosen operand => chosen.flatMap fun front => operand.toList.map fun e => front ++ [e])
        chosen from
    hfold [[]] [] List.mem_cons_self
  induction h with
  | nil =>
      intro chosen front hfront
      rwa [List.append_nil]
  | @cons e operand es operands he _ ih =>
      intro chosen front hfront
      rw [List.foldl_cons, List.append_cons]
      refine ih _ _ (List.mem_flatMap.2 ⟨front, hfront, ?_⟩)
      exact List.mem_map.2 ⟨e, he, rfl⟩

theorem mem_combine {operands : List Alternatives} {build : List Expr → Option Expr}
    {es : List Expr} {e : Expr}
    (hes : List.Forall₂ (fun e operand => e ∈ operand.toList) es operands)
    (hbuild : build es = some e) : e ∈ (combine operands build).toList :=
  OrderedSet.mem_ofList.2 (List.mem_filterMap.2 ⟨es, mem_product hes, hbuild⟩)

end Alternatives

/-- The statement denotes an expression that has the value. -/
def Stmt.Denotes (σ : Valuation) (s : Stmt) (v : Value) : Prop :=
  ∀ found : Alternatives, s.alternatives = .ok found → ∃ e ∈ found.toList, e.Evaluates σ v

namespace Stmt

theorem alternativesEach_denotes {arguments : List Stmt} {values : List Value}
    (hlength : arguments.length = values.length)
    (heach : ∀ pair ∈ arguments.zip values, pair.1.Denotes σ pair.2) {operands : List Alternatives}
    (h : alternativesEach arguments = .ok operands) :
    ∃ es, List.Forall₂ (fun e operand => e ∈ operand.toList) es operands ∧
      List.Forall₂ (fun e v => e.Evaluates σ v) es values := by
  induction arguments generalizing values operands with
  | nil =>
      obtain rfl := pure_eq_ok.1 h
      obtain rfl := List.length_eq_zero_iff.1 hlength.symm
      exact ⟨[], .nil, .nil⟩
  | cons argument arguments ih =>
      cases values with
      | nil => cases hlength
      | cons v values =>
          rw [alternativesEach] at h
          obtain ⟨first, hfirst, h⟩ := bind_eq_ok.1 h
          obtain ⟨rest, hrest, h⟩ := bind_eq_ok.1 h
          obtain rfl := pure_eq_ok.1 h
          obtain ⟨e, he, hvalue⟩ := heach (argument, v) List.mem_cons_self first hfirst
          obtain ⟨es, hes, hvalues⟩ := ih (Nat.succ.inj hlength)
            (fun pair hpair => heach pair (List.mem_cons_of_mem _ hpair)) hrest
          exact ⟨e :: es, .cons he hes, .cons hvalue hvalues⟩

/-- A call of an operation denotes what the operation builds from its operands. -/
theorem call_denotes {point : Point} {name : String} {type : Ty} {arguments : List Stmt}
    {builtin : Builtin} (values : List Value) (hname : Builtin.named? name = some builtin)
    (hinput : builtin ≠ .input) (hlength : arguments.length = values.length)
    (heach : ∀ pair ∈ arguments.zip values, pair.1.Denotes σ pair.2)
    (hbuild : ∀ es, List.Forall₂ (fun e v => e.Evaluates σ v) es values →
      ∃ e, builtin.build type es = some e ∧ e.Evaluates σ r) :
    (Stmt.call point name type arguments).Denotes σ r := by
  intro found h
  obtain ⟨other, hother, -, -, hfound⟩ := alternatives_call_eq_ok_iff.1 h
  obtain rfl : other = builtin := Option.some.inj (hother.symm.trans hname)
  rcases hfound with ⟨rfl, -⟩ | ⟨-, operands, hoperands, rfl⟩
  · exact absurd rfl hinput
  · obtain ⟨es, hes, hvalues⟩ := alternativesEach_denotes hlength heach hoperands
    obtain ⟨e, he, hvalue⟩ := hbuild es hvalues
    exact ⟨e, Alternatives.mem_combine hes he, hvalue⟩

end Stmt

/-! ### Operations -/

theorem Builtin.named?_sign (sign : Sign) :
    named? sign.callName = some (.sign sign) := by cases sign <;> rfl

theorem Builtin.named?_arithmetic (op : Arithmetic) :
    named? op.callName = some (.arithmetic op) := by cases op <;> rfl

theorem Builtin.named?_comparison {op : Comparison} {name : String}
    (h : op.callName? = some name) : named? name = some (.comparison op) := by
  cases op <;> cases h <;> rfl

theorem Builtin.named?_connective (op : Connective) :
    named? op.callName = some (.connective op) := by cases op <;> rfl

theorem Builtin.named?_cast {target : Ty} {name : String} (h : target.callName? = some name) :
    named? name = some (.cast target) := by
  cases target <;> cases h <;> rfl

/-- Connecting one condition after another gives the connective of all. -/
theorem Expr.Evaluates.foldl_connective {op : Connective} {es : List Expr} {values : List Value}
    (hvalues : List.Forall₂ (fun e v => e.Evaluates σ v) es values) {e : Expr} {holds : Bool}
    (he : e.Evaluates σ (.ofTruth holds)) :
    (es.foldl (.connective · op ·) e).Evaluates σ
      (.ofTruth ((values.map Value.truthy).foldl op.holds holds)) := by
  induction hvalues generalizing e holds with
  | nil => exact he
  | cons hfirst _ ih =>
      refine ih ?_
      have hconnected : (Expr.connective e op _).Evaluates σ _ := .connective he hfirst
      rwa [Value.truthy_ofTruth] at hconnected

theorem Connective.foldl_holds (op : Connective) (first : Bool) (conditions : List Bool) :
    conditions.foldl op.holds first = op.holdsAll (first :: conditions) := by
  induction conditions generalizing first with
  | nil => cases op <;> simp [holdsAll]
  | cons second conditions ih =>
      rw [List.foldl_cons, ih]
      cases op <;> simp [holdsAll, holds, Bool.and_assoc, Bool.or_assoc]

theorem Builtin.build_connective {op : Connective} {type : Ty} {es : List Expr}
    {values : List Value} (htwo : 2 ≤ values.length)
    (hvalues : List.Forall₂ (fun e v => e.Evaluates σ v) es values) :
    ∃ e, (Builtin.connective op).build type es = some e ∧
      e.Evaluates σ (.ofTruth (op.holdsAll (values.map Value.truthy))) := by
  cases hvalues with
  | nil => exact absurd htwo (by simp)
  | cons hfirst hrest =>
      cases hrest with
      | nil => exact absurd htwo (by simp)
      | cons hsecond hrest =>
          refine ⟨_, rfl, ?_⟩
          rw [List.map_cons, List.map_cons, ← Connective.foldl_holds]
          exact Expr.Evaluates.foldl_connective hrest (.connective hfirst hsecond)

/-- A statement denotes an expression for each of its values. -/
theorem Stmt.Evaluates.denotes {s : Stmt} (h : s.Evaluates σ v) : s.Denotes σ v := by
  induction h with
  | literal hvalue =>
      intro found hfound
      obtain rfl := pure_eq_ok.1 hfound
      exact ⟨_, List.mem_singleton.2 rfl, .literal hvalue⟩
  | var hscalar =>
      intro found hfound
      obtain rfl := pure_eq_ok.1 hfound
      exact ⟨_, List.mem_singleton.2 rfl, .var hscalar⟩
  | input harguments hfits =>
      intro found hfound
      have hadmits : Builtin.input.admits _ = true := decide_eq_true harguments
      rw [alternatives, show Builtin.named? "input" = some .input from rfl] at hfound
      simp only [hadmits, if_true] at hfound
      obtain rfl := pure_eq_ok.1 hfound
      exact ⟨_, List.mem_singleton.2 rfl, .input hfits⟩
  | @signed point sign type operand x _ hfits ih =>
      refine call_denotes [.number x] (Builtin.named?_sign sign) nofun rfl (by simpa using ih) ?_
      rintro _ (_ | ⟨he, _ | _⟩)
      exact ⟨_, rfl, .signed he hfits⟩
  | @not point type operand v _ ih =>
      refine call_denotes [v] (show Builtin.named? "not" = some .not from rfl) nofun rfl
        (by simpa using ih) ?_
      rintro _ (_ | ⟨he, _ | _⟩)
      exact ⟨_, rfl, .not he⟩
  | @arithmetic point op type left right v w r _ _ hresult hfits ihl ihr =>
      refine call_denotes [v, w] (Builtin.named?_arithmetic op) nofun rfl
        (by simpa using ⟨ihl, ihr⟩) ?_
      rintro _ (_ | ⟨hl, _ | ⟨hr, _ | _⟩⟩)
      exact ⟨_, rfl, .arithmetic hl hr hresult hfits⟩
  | @compare point op name type left right v w holds hname _ _ hresult ihl ihr =>
      refine call_denotes [v, w] (Builtin.named?_comparison hname) nofun rfl
        (by simpa using ⟨ihl, ihr⟩) ?_
      rintro _ (_ | ⟨hl, _ | ⟨hr, _ | _⟩⟩)
      exact ⟨_, rfl, .compare hname hl hr hresult⟩
  | @connective point op type arguments values htwo hlength _ ih =>
      exact call_denotes values (Builtin.named?_connective op) nofun hlength ih
        fun es hes => Builtin.build_connective (hlength ▸ htwo) hes
  | @cast point target name type operand v r hname _ hresult ih =>
      refine call_denotes [v] (Builtin.named?_cast hname) nofun rfl (by simpa using ih) ?_
      rintro _ (_ | ⟨he, _ | _⟩)
      exact ⟨_, rfl, he.convert hname hresult⟩

end FlowAnalysis
