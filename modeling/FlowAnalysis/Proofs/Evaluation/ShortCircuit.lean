import FlowAnalysis.Proofs.Container.Assignment

/-!
Connectives whose left side decides. Such a connective has a truth value whether or not its right side has a value,
and its range holds that truth value exactly if the range of the right side is not empty. A right side that reads an
item of a container known to be empty makes the whole connective infeasible, the guard before it notwithstanding.
-/

namespace FlowAnalysis

/-- What a connective does not need is skipped if it is feasible. -/
def Reading.sparing (env : Environment) : Reading := { strict with skips := fun e => e.Feasible env }

theorem Reading.sparing_sound (env : Environment) : (sparing env).Sound env :=
  { strict_sound env with skips := fun _ hfeasible => hfeasible }

variable {σ : Bindings} {env : Environment} {e left right : Expr} {op : Connective} {d : Datum} {a : Interval}

theorem Environment.Knows.holds_sparing (henv : env.Knows σ) (h : e.Yields (.sparing env) σ d) : env.Holds e d :=
  henv.holds (Reading.sparing_sound env) h

/-- An expression that has a value is feasible. -/
theorem Environment.Knows.feasible (henv : env.Knows σ) (h : e.Yields (.sparing env) σ d) : e.Feasible env :=
  fun a ha => ((henv.holds_sparing h).value a ha).isBottom_eq_false

/-- An infeasible operand makes a connective infeasible. -/
theorem evaluate_connective_eq_bottom (h : ¬ right.Feasible env)
    (ha : evaluate env (.connective left op right) = .ok a) : a = .bottom := by
  rw [evaluate] at ha
  obtain ⟨range₁, hrange₁, ha⟩ := bind_eq_ok.1 ha
  obtain ⟨range₂, hrange₂, ha⟩ := bind_eq_ok.1 ha
  obtain rfl := pure_eq_ok.1 ha
  have hbottom : range₂.isBottom = true := by
    by_contra hproper
    refine h fun range hrange => ?_
    cases hrange.symm.trans hrange₂
    exact Bool.eq_false_iff.2 hproper
  unfold Interval.connective
  rw [Interval.isBottom_truthValue range₂, hbottom, Bool.or_true, if_pos rfl]

namespace IntervalState.Truths

/-- The guard `len(d) == 0`. -/
def guard : Expr := .compare (.length (.var truths)) .eq (.literal (.int 0))

/-- The guarded item `len(d) == 0 or d[5]`. -/
def guarded : Expr := .connective guard .or (item (.literal (.int 5)))

/-- The guard holds of the empty dictionary. -/
theorem guard_yields {reading : Reading} : guard.Yields reading vacant.bindings yes := by
  have hlength : (Expr.length (.var truths)).Yields reading vacant.bindings zero :=
    .length (.var (Memory.bindings_eq_some.2 ⟨truths_mem, rfl⟩)) rfl (Int.cast_zero.trans Nat.cast_zero.symm)
  refine .compare hlength (.int 0 (by decide)) ?_
  change true = Comparison.eq.holds ((0 : Int) : Rat) (0 : Int)
  decide +kernel

/-- Nothing is found in the empty dictionary. -/
theorem not_yields_item {reading : Reading} (key : Expr) (d : Datum) :
    ¬ (item key).Yields reading vacant.bindings d := by
  intro h
  cases h with
  | item htarget _ hitem _ =>
      cases htarget with
      | var hx =>
          obtain ⟨-, rfl⟩ := Memory.bindings_eq_some.1 hx
          cases hitem with
          | dict hmem => cases hmem

end IntervalState.Truths

/-- If the left side of a connective decides, the range holds the truth value that it decides on exactly if the right
side is feasible, as it is if it has a value. Otherwise the connective is infeasible. Values are read as in `strict`:
ranges are counted over a distance of at most `2 ^ 53`, and the length of a concatenation is a double. -/
theorem mem_evaluate_decided_iff (henv : env.Knows σ) (hleft : left.Yields (.sparing env) σ d)
    (hdecides : d.truthy = op.decidedBy) (ha : evaluate env (.connective left op right) = .ok a) :
    (truthNumber op.decidedBy ∈ a ↔ right.Feasible env) ∧ (¬ right.Feasible env → a = .bottom) ∧
      ∀ c, right.Yields (.sparing env) σ c → right.Feasible env := by
  refine ⟨⟨fun hmem => ?_, fun hright => ?_⟩, fun h => evaluate_connective_eq_bottom h ha, fun c => henv.feasible⟩
  · by_contra hnot
    rw [evaluate_connective_eq_bottom hnot ha] at hmem
    exact Interval.not_mem_bottom hmem
  · exact ((henv.holds_sparing hleft).decided hright hdecides).value a ha

/-- A state that knows nothing of the dictionary leaves room for what the guard decides on, even though `d[5]` has no
value if the dictionary is empty. -/
theorem mem_evaluate_guarded :
    let env := (IntervalState.Truths.known .nonNegative .top .top).environment
    let item := IntervalState.Truths.item (.literal (.int 5))
    env.Knows IntervalState.Truths.vacant.bindings ∧
      (∀ d, ¬ item.Yields (.sparing env) IntervalState.Truths.vacant.bindings d) ∧ item.Feasible env ∧
      evaluate env IntervalState.Truths.guarded = .ok .maybe ∧ truthNumber true ∈ Interval.maybe := by
  intro env item
  obtain ⟨hproper, hreflects⟩ : Extremal.isBottom (IntervalState.Truths.known .nonNegative .top .top) = false ∧
      (IntervalState.Truths.known .nonNegative .top .top).Reflects IntervalState.Truths.vacant :=
    IntervalState.Truths.known_reflects _ (Interval.natCast_mem_nonNegative 0) rfl rfl (Datum.summarized_top _)
  have henv := (hreflects.environment hproper).knows
  have hitem : evaluate env item = .ok .top := by decide +kernel
  have hfeasible : item.Feasible env := fun a ha => by
    cases hitem.symm.trans ha
    rfl
  have hmaybe : evaluate env IntervalState.Truths.guarded = .ok .maybe := by decide +kernel
  have hiff := (mem_evaluate_decided_iff henv IntervalState.Truths.guard_yields (by decide) hmaybe).1
  exact ⟨henv, fun d => IntervalState.Truths.not_yields_item _ d, hfeasible, hmaybe, hiff.2 hfeasible⟩

/-- If the dictionary is known to be empty, `len(d) == 0 or d[5]` is true, but found infeasible. -/
theorem decided_not_mem_evaluate :
    let env := (IntervalState.Truths.known (.point 0) .top .top).environment
    env.Knows IntervalState.Truths.vacant.bindings ∧
      IntervalState.Truths.guard.Yields .strict IntervalState.Truths.vacant.bindings (.ofTruth true) ∧
      evaluate env IntervalState.Truths.guarded = .ok .bottom ∧ ¬ truthNumber true ∈ Interval.bottom := by
  intro env
  obtain ⟨hproper, hreflects⟩ := IntervalState.Truths.vacant_reflects
  exact ⟨(hreflects.environment hproper).knows, IntervalState.Truths.guard_yields, by decide +kernel,
    Interval.not_mem_bottom⟩

end FlowAnalysis
