import FlowAnalysis.Proofs.Analysis.Least
import FlowAnalysis.Proofs.Liveness.State

/-!
Liveness is the least solution. Every operation on states is monotone: substitution takes the target
out and puts the variables of the right-hand side in, but it does both only where the target is live. A
widening is a join. So the result depends neither on when widening sets in nor on the order of visits,
and what an earlier analysis knows can only take points and live variables away.
-/

namespace FlowAnalysis.LivenessState

variable {s t u v : LivenessState} {vars : OrderedSet Identifier}

/-! ### Monotone operations -/

theorem Below.join (hsv : s.Below v) (htv : t.Below v)
    (h : Domain.join s t = .ok u ∨ Domain.widen s t = .ok u) : u.Below v := by
  rcases join_cases h with rfl | rfl | ⟨hreachable, rfl⟩
  · exact hsv
  · exact htv
  · exact ⟨fun _ => hsv.reachable hreachable,
      fun x hx => (mem_merged.1 hx).elim (hsv.live x) (htv.live x)⟩

theorem Below.uses (h : s.Below t) (hvars : s.vars = t.vars) (e : Expr) :
    (s.uses e).Below (t.uses e) := by
  refine ⟨h.reachable, fun x hx => mem_uses.2 ?_⟩
  exact (mem_uses.1 hx).imp (h.live x) fun ⟨hread, hfollowed⟩ => ⟨hread, hvars ▸ hfollowed⟩

theorem Below.grown (h : s.Below t) (e : Expr) : s.Below (t.uses e) :=
  ⟨h.reachable, fun x hx => mem_uses.2 (Or.inl (h.live x hx))⟩

theorem Below.erase (h : s.Below t) (x : Identifier) :
    { s with live := s.live.erase x }.Below { t with live := t.live.erase x } :=
  ⟨h.reachable, fun y hy =>
    OrderedSet.mem_erase.2 ((OrderedSet.mem_erase.1 hy).imp_left (h.live y))⟩

/-- A substitution is monotone although it takes its target out: if the target is live in the larger
state alone, then the smaller state does not have it. -/
theorem Below.substitute (h : s.Below t) (hvars : s.vars = t.vars) {left right : Expr}
    (hu : s.substitute left right = .ok u) (hv : t.substitute left right = .ok v) : u.Below v := by
  rcases substitute_cases hu with ⟨x, rfl, hs⟩ | ⟨type, x, key, rfl, hs⟩
  · rcases substitute_cases hv with ⟨y, hy, ht⟩ | ⟨type, y, key, hy, -⟩
    · obtain rfl := Expr.var.inj hy
      rcases hs with ⟨hdead, rfl⟩ | ⟨hlive, rfl⟩
      · rcases ht with ⟨-, rfl⟩ | ⟨-, rfl⟩
        · exact h
        · have herased : u.Below { t with live := t.live.erase x } :=
            ⟨h.reachable, fun y hy => OrderedSet.mem_erase.2
              ⟨h.live y hy, fun heq => hdead (heq ▸ hy)⟩⟩
          exact herased.grown right
      · rcases ht with ⟨hdead, -⟩ | ⟨-, rfl⟩
        · exact absurd (h.live x hlive) hdead
        · exact (h.erase x).uses hvars right
    · cases hy
  · rcases substitute_cases hv with ⟨y, hy, -⟩ | ⟨type, y, key, hy, ht⟩
    · cases hy
    · obtain ⟨rfl, hxy, rfl⟩ := Expr.item.inj hy
      obtain rfl := Expr.var.inj hxy
      rcases hs with ⟨-, rfl⟩ | ⟨hlive, rfl⟩
      · rcases ht with ⟨-, rfl⟩ | ⟨-, rfl⟩
        · exact h
        · exact (h.grown key).grown right
      · rcases ht with ⟨hdead, -⟩ | ⟨-, rfl⟩
        · exact absurd (h.live x hlive) hdead
        · exact (h.uses hvars key).uses hvars right

theorem uses_isMonotone (vars : OrderedSet Identifier) (e : Expr) :
    Domain.IsMonotone (fun s => Follows vars s ∧ Extremal.isBottom s = false)
      fun s => pure (s.uses e) := by
  rintro s t s' t' ⟨hs, hproper⟩ ⟨ht, hproper'⟩ hle hs' ht'
  obtain rfl := pure_eq_ok.1 hs'
  obtain rfl := pure_eq_ok.1 ht'
  have hbelow := ((hs.le_iff ht).1 hle).uses (hs.vars_eq.trans ht.vars_eq.symm) e
  exact ((hs.uses (isBottom_eq_false_iff.1 hproper) e).le_iff
    (ht.uses (isBottom_eq_false_iff.1 hproper') e)).2 hbelow

theorem monotonic (vars : OrderedSet Identifier) : StateDomain.Monotonic (Follows vars) where
  toClosed := follows_closed vars
  upperBounds := upperBounds
  extremes := extended.extremes
  isBottom_bottom _ := rfl
  bottom_le _ h := extended.le_iff.2 (Or.inl h)
  isBottom_withResult _ _ := rfl
  result_withResult _ _ := rfl
  withResult_le _ h := h
  join_le hs ht hv hjoin hsv htv :=
    ((hs.join ht (Or.inl hjoin)).le_iff hv).2
      (((hs.le_iff hv).1 hsv).join ((ht.le_iff hv).1 htv) (Or.inl hjoin))
  widen_le hs ht hv hwiden hsv htv :=
    ((hs.join ht (Or.inr hwiden)).le_iff hv).2
      (((hs.le_iff hv).1 hsv).join ((ht.le_iff hv).1 htv) (Or.inr hwiden))
  assignOne_le _ _ _ _ _ _ _ _ _ h _ := absurd h throw_ne_ok
  assumeOne_le e := uses_isMonotone vars e
  substituteOne_le left right := by
    rintro s t s' t' ⟨hs, hproper⟩ ⟨ht, hproper'⟩ hle hs' ht'
    have hbelow := ((hs.le_iff ht).1 hle).substitute (hs.vars_eq.trans ht.vars_eq.symm) hs' ht'
    exact ((hs.substitute (isBottom_eq_false_iff.1 hproper) hs').le_iff
      (ht.substitute (isBottom_eq_false_iff.1 hproper') ht')).2 hbelow
  outputOne_le e := uses_isMonotone vars e
  enterIf_le h := h
  exitIf_le h := h
  enterLoop_le h := h
  exitLoop_le h := h

/-! ### Results -/

/-- Earlier knowledge that rules out less leaves larger states. -/
theorem before_le (hle : Domain.le s t = true) (point : Point) {known known' : Option IntervalState}
    (h : known'.any Extremal.isBottom = true → known.any Extremal.isBottom = true) :
    Domain.le (StateDomain.before s point known) (StateDomain.before t point known') = true := by
  change Domain.le (if known.any Extremal.isBottom then Extremal.bottom s else s)
    (if known'.any Extremal.isBottom then Extremal.bottom t else t) = true
  by_cases hknown : known.any Extremal.isBottom = true
  · rw [if_pos hknown]
    exact extended.le_iff.2 (Or.inl rfl)
  · rw [if_neg hknown, if_neg (mt h hknown)]
    exact hle

/-- Another run of the analysis knows no more beforehand if it knows the same or nothing. -/
theorem backward_relaxes (g : Graph) (settings settings' : Settings)
    {known known' : Option (AnalysisResult IntervalState)} (h : known' = known ∨ known' = none) :
    Analysis.Relaxes (Follows g.vars) (backward g settings known) (backward g settings' known') where
  graph_eq := rfl
  direction_eq := rfl
  initial_eq := rfl
  statement point n i _ _ hle := by
    refine before_le hle point fun hbottom => ?_
    rcases h with rfl | rfl
    · exact hbottom
    · cases hbottom
  guard point e _ _ hle := by
    refine before_le hle point fun hbottom => ?_
    rcases h with rfl | rfl
    · exact hbottom
    · cases hbottom

/-- Two states that agree on whether they are bottom and on which variables are live. -/
def Agree (s t : LivenessState) : Prop :=
  Extremal.isBottom s = Extremal.isBottom t ∧ ∀ x, x ∈ s.live ↔ x ∈ t.live

theorem Below.agree (hst : s.Below t) (hts : t.Below s) : s.Agree t := by
  refine ⟨?_, fun x => ⟨hst.live x, hts.live x⟩⟩
  change (!s.reachable) = !t.reachable
  rw [Bool.eq_iff_iff.2 ⟨hst.reachable, hts.reachable⟩]

section Results

variable {g : Graph} {settings : Settings} {known : Option (AnalysisResult IntervalState)}
  {r : AnalysisResult LivenessState} {steps : Nat}

theorem backward_follows (hrun : (backward g settings known).runWithin steps = some (.ok r)) (n : Nat) :
    ∀ s ∈ r.statesAt n, s.Follows g.vars := by
  obtain ⟨p, hstage, -, rfl⟩ := Analysis.stage_of_runWithin hrun
  have hinitial := ofVariables_follows g.vars
  exact Analysis.finish_closed (follows_closed _) hinitial
    (hstage.stored (follows_closed _) hinitial)

theorem backward_solution (hg : g.Wired)
    (hrun : (backward g settings known).runWithin steps = some (.ok r)) :
    (backward g settings known).Solution r := by
  obtain ⟨p, hstage, hqueue, rfl⟩ := Analysis.stage_of_runWithin hrun
  exact Analysis.finish_solution (monotonic g.vars) hg hstage hqueue

/-- A result is below every solution of an analysis that knows the same beforehand, or nothing. -/
theorem backward_le (hg : g.Wired)
    (hrun : (backward g settings known).runWithin steps = some (.ok r)) {settings' : Settings}
    {known' : Option (AnalysisResult IntervalState)} (hknown : known' = known ∨ known' = none)
    {solution : AnalysisResult LivenessState} (hsolution : (backward g settings' known').Solution solution)
    (hfollows : ∀ n, ∀ s ∈ solution.statesAt n, s.Follows g.vars) (n : Nat) :
    StatesLe (r.statesAt n) (solution.statesAt n) := by
  obtain ⟨p, hstage, -, rfl⟩ := Analysis.stage_of_runWithin hrun
  exact Analysis.finish_le (monotonic g.vars) (backward_relaxes g _ _ hknown) hsolution hfollows
    (ofVariables_follows g.vars) hg hstage n

end Results

/-- The result of the analysis is the least solution. So two results agree everywhere if the same was
known beforehand, whatever the settings were, and a result with some earlier knowledge is below one
without any. -/
theorem backward_least {nodes : List Node} {edges : List Edge} {entry exit : Nat} {g : Graph}
    (hbuild : Graph.build nodes edges entry exit = .ok g) {settings settings' : Settings}
    {known known' : Option (AnalysisResult IntervalState)} {steps steps' : Nat}
    {r r' : AnalysisResult LivenessState}
    (hrun : (backward g settings known).runWithin steps = some (.ok r))
    (hrun' : (backward g settings' known').runWithin steps' = some (.ok r')) :
    ((backward g settings known).Solution r ∧
      ∀ solution, (backward g settings known).Solution solution →
        (∀ n, ∀ s ∈ solution.statesAt n, s.Follows g.vars) →
          ∀ n, StatesLe (r.statesAt n) (solution.statesAt n)) ∧
    (known' = known → ∀ n, List.Forall₂ Agree (r.statesAt n) (r'.statesAt n)) ∧
    (known' = none → ∀ n, StatesLe (r.statesAt n) (r'.statesAt n)) := by
  obtain ⟨hg, -⟩ := Graph.build_wired hbuild
  refine ⟨⟨backward_solution hg hrun, fun solution => backward_le hg hrun (Or.inl rfl)⟩, ?_, ?_⟩
  · rintro rfl n
    have hle := backward_le hg hrun (Or.inl rfl) (backward_solution hg hrun') (backward_follows hrun') n
    have hge := backward_le hg hrun' (Or.inl rfl) (backward_solution hg hrun) (backward_follows hrun) n
    have hpair := (List.forall₂_and_left _ _).2 ⟨backward_follows hrun n, hle⟩
    have hpair' : List.Forall₂ (fun s t => t.Follows g.vars ∧ Domain.le t s = true)
        (r.statesAt n) (r'.statesAt n) :=
      List.Forall₂.flip ((List.forall₂_and_left _ _).2 ⟨backward_follows hrun' n, hge⟩)
    refine List.Forall₂.mp ?_ hpair hpair'
    rintro s t ⟨hs, hst⟩ ⟨ht, hts⟩
    exact ((hs.le_iff ht).1 hst).agree ((ht.le_iff hs).1 hts)
  · rintro rfl n
    exact backward_le hg hrun (Or.inr rfl) (backward_solution hg hrun') (backward_follows hrun') n

/-! ### A use that is never reached -/

namespace Unreached

def place : Point := ⟨1, 1⟩

def x : Identifier := ⟨"x", .int, .variable⟩

def y : Identifier := ⟨"y", .int, .variable⟩

/-- The condition `x < 0`. -/
def negative : Stmt := .call place "lt" .bool [.var place x, .literal place (.int 0)]

def nodes : List Node :=
  [.basic [.assign place (.var place x) (.literal place (.int 1))],
    .basic [.call place "print" .none [.var place y]], .basic []]

def edges : List Edge :=
  [⟨0, 1, .ifIn, some negative⟩, ⟨1, 2, .ifOut, none⟩,
    ⟨0, 2, .plain, some (.call place "not" .bool [negative])⟩]

/-- Sets `x` to one and prints `y` if `x` is negative. -/
def graph : Graph := (Graph.build nodes edges 0 2).toOption.getD (.ofNodes nodes 0 2)

theorem build_eq : Graph.build nodes edges 0 2 = .ok graph := rfl

/-- What an interval analysis finds out. -/
def intervals : Option (AnalysisResult IntervalState) :=
  ((IntervalState.forward graph {} graph.vars.toList).runWithin 10).bind Except.toOption

end Unreached

open Unreached

/-- With what the intervals say, the use that is never reached does not count. -/
theorem backward_least_unreached :
    ∃ r r', Graph.build nodes edges 0 2 = .ok graph ∧
      (backward graph {} intervals).runWithin 20 = some (.ok r) ∧
      (backward graph { widening := 0 } none).runWithin 20 = some (.ok r') ∧
      ∀ n, StatesLe (r.statesAt n) (r'.statesAt n) := by
  obtain ⟨r, hrun⟩ := exists_of_any_isOk
    (show ((backward graph {} intervals).runWithin 20).any Except.isOk = true by decide +kernel)
  obtain ⟨r', hrun'⟩ := exists_of_any_isOk
    (show ((backward graph { widening := 0 } none).runWithin 20).any Except.isOk = true by
      decide +kernel)
  exact ⟨r, r', build_eq, hrun, hrun', (backward_least build_eq hrun hrun').2.2 rfl⟩

end FlowAnalysis.LivenessState
