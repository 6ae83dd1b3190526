import FlowAnalysis.Proofs.Analysis.PostFixpoint
import FlowAnalysis.Proofs.Interval.Shape
import FlowAnalysis.Proofs.Numeric.Refinement

/-!
The interval analysis is sound for numeric programs. Whatever position an execution comes to, the state
of the result there is not bottom and the range of every variable holds its number. Each statement and
each guard keeps a state that describes an execution, and a result is a post-fixpoint; so the state of a
position describes every execution that comes to it, by induction over the execution.
-/

namespace FlowAnalysis

variable {σ τ : Valuation}

namespace IntervalState

variable {s t u : IntervalState} {identifiers : List Identifier} {e : Expr} {v : Value}

/-- The state allows for an execution with the given numbers. -/
structure Describes (s : IntervalState) (σ : Valuation) : Prop where
  proper : Extremal.isBottom s = false
  mem : ∀ x range, x.IsScalar → s.get? x = some range → (σ.value x).value ∈ range

theorem Describes.environment (h : s.Describes σ) : s.environment.Describes σ := by
  intro x hscalar
  change _ ∈ (s.get? x).getD x.unknown
  cases hget : s.get? x with
  | none =>
      rw [Option.getD_none, Identifier.unknown, hscalar.1]
      exact Interval.mem_top
  | some range => exact h.mem x range hscalar hget

/-- What is above a state with the same identifiers describes what the state describes. -/
theorem Describes.mono (h : s.Describes σ) (hle : Domain.le s t = true)
    (hkeys : t.store.keys = s.store.keys) : t.Describes σ := by
  refine ⟨extremes.proper_of_le hle h.proper, fun x range hscalar hget => ?_⟩
  have hproper := (isBottom_eq_false_iff.1 h.proper).2
  have htop : Extremal.isTop t.store = true → (σ.value x).value ∈ range := by
    intro htop
    have hrange : range.isTop = true := Store.isTop_iff.1 htop x range hget
    obtain ⟨hlower, hupper⟩ := Interval.isTop_iff.1 hrange
    rw [Interval.mem_iff, hlower, hupper]
    exact ⟨Bound.negInf_le _, Bound.le_posInf _⟩
  rcases extended.le_iff.1 hle with hbottom | hall | ⟨-, -, hstores⟩
  · rw [h.proper] at hbottom
    cases hbottom
  · exact htop (Bool.and_eq_true_iff.1 hall).2
  · rcases (Store.extended Interval.extremes).le_iff.1 hstores with hbottom | hall | ⟨-, -, hpoint⟩
    · rw [hproper] at hbottom
      cases hbottom
    · exact htop hall
    · obtain ⟨inner, hinner⟩ :=
        OrderedMap.mem_keys_iff.1 (hkeys ▸ OrderedMap.mem_keys_iff.2 ⟨range, hget⟩)
      obtain ⟨outer, houter, hle⟩ := Store.pointwiseLe_iff.1 hpoint x inner hinner
      obtain rfl : outer = range := Option.some.inj (houter.symm.trans hget)
      exact Interval.mem_of_le hle (h.mem x inner hscalar hinner)

theorem ofVariables_describes (vars : List Identifier) (σ : Valuation) :
    (ofVariables vars).Describes σ := by
  refine ⟨isBottom_ofVariables vars, fun x range hscalar hget => ?_⟩
  rw [get?_ofVariables hget, Identifier.unknown, hscalar.1]
  exact Interval.mem_top

/-! ### Single expressions -/

theorem set_describes (hs : Shaped identifiers s) (h : s.Describes σ) {x : Identifier}
    {range : Interval} (hmem : (τ.value x).value ∈ range)
    (hsame : ∀ y, y ≠ x → τ.value y = σ.value y) : (s.set x range).Describes τ := by
  refine ⟨(set_shaped hs h.proper (Interval.isBottom_eq_false_of_mem hmem) x).2, ?_⟩
  intro y range' hscalar hget
  rw [get?_set] at hget
  split at hget
  · rename_i hy
    obtain ⟨_, -, rfl⟩ := Option.map_eq_some_iff.1 hget
    exact hy ▸ hmem
  · rename_i hy
    rw [hsame y hy]
    exact h.mem y range' hscalar hget

theorem assign_describes (hs : Shaped identifiers s) (h : s.Describes σ) {x : Identifier}
    (hscalar : x.IsScalar) {n : Number} (he : e.Evaluates σ (.number n))
    (hfits : (Value.number n).Fits x.type) (ht : s.assign (.var x) e = .ok t) :
    t.Describes (σ.set x n hfits) := by
  rw [assign, if_pos hscalar.2] at ht
  obtain ⟨range, hrange, ht⟩ := bind_eq_ok.1 ht
  obtain rfl := pure_eq_ok.1 ht
  have hmem : n.value ∈ range := evaluate_sound h.environment he hrange
  obtain ⟨hshaped, hproper⟩ :=
    set_shaped hs h.proper (Interval.isBottom_eq_false_of_mem hmem) x
  rw [normalized_eq (hshaped.proper hproper)]
  refine set_describes hs h ?_ fun y hy => if_neg hy
  rw [show (σ.set x n hfits).value x = n from if_pos rfl]
  exact hmem

/-- Narrowing to ranges that hold the numbers of a valuation keeps it. -/
theorem narrow?_describes {ranges : List (Identifier × Interval)} (hs : Shaped identifiers s)
    (h : s.Describes σ)
    (hranges : ∀ x range, (x, range) ∈ ranges → x.IsScalar ∧ (σ.value x).value ∈ range) :
    ∃ t, s.narrow? ranges = some t ∧ t.Describes σ := by
  induction ranges generalizing s with
  | nil => exact ⟨s, rfl, h⟩
  | cons entry rest ih =>
      obtain ⟨x, range⟩ := entry
      obtain ⟨hscalar, hrange⟩ := hranges x range List.mem_cons_self
      have hmem : (σ.value x).value ∈ (s.value x).meet range :=
        Interval.mem_meet.2 ⟨h.environment x hscalar, hrange⟩
      have hproper := Interval.isBottom_eq_false_of_mem hmem
      rw [narrow?, hproper]
      exact ih (set_shaped hs h.proper hproper x).1 (set_describes hs h hmem fun _ _ => rfl)
        fun y range' hy => hranges y range' (List.mem_cons_of_mem _ hy)

theorem assume_describes (hs : Shaped identifiers s) (h : s.Describes σ) (he : e.Evaluates σ v)
    (htrue : v.truthy = true) (ht : s.assume e = .ok t) : t.Describes σ := by
  obtain ⟨found, hfound, ht⟩ := bind_eq_ok.1 ht
  have hallows := refineAnswer_sound h.environment he htrue hfound
  cases found with
  | infeasible => exact hallows.elim
  | constrain ranges =>
      obtain rfl := pure_eq_ok.1 ht
      obtain ⟨t, hnarrow, ht⟩ := narrow?_describes hs h fun x range hentry =>
        hallows x range (OrderedMap.mem_entries_iff.1 hentry)
      rw [hnarrow]
      exact ht

/-- What a transformer does for one item of several is described by the join. -/
theorem joinEach_describes (hs : Shaped identifiers s) (hproper : Extremal.isBottom s = false)
    {ι : Type} {items : List ι} {apply : IntervalState → ι → Outcome IntervalState}
    (hshape : ∀ item ∈ items, Meets (Shaped identifiers) (apply s item))
    (hu : StateDomain.joinEach s items apply = .ok u) {item : ι} (hitem : item ∈ items)
    (h : ∀ t, apply s item = .ok t → t.Describes τ) : u.Describes τ := by
  obtain ⟨t, joined, ht, hle, rfl⟩ :=
    StateDomain.joinEach_covers upperBounds hproper hu hitem
  have hjoined := ((shaped_closed identifiers).joinEach hs fun _ => hshape).result hu
  have hkeys : joined.store.keys = t.store.keys :=
    hjoined.keys_eq.trans ((hshape item hitem).result ht).keys_eq.symm
  have hdescribes := (h t ht).mono hle hkeys
  exact ⟨hdescribes.proper, hdescribes.mem⟩

/-! ### Statements and edges -/

theorem withResult_describes (h : s.Describes σ) (result : Alternatives) :
    (StateDomain.withResult s result).Describes σ := ⟨h.proper, h.mem⟩

theorem output_describes (hs : Shaped identifiers s) (h : s.Describes σ) {values : Alternatives}
    (ht : StateDomain.output s values = .ok t) : t.Describes σ := by
  unfold StateDomain.output at ht
  cases hvalues : values.toList with
  | nil =>
      rw [hvalues] at ht
      obtain rfl := pure_eq_ok.1 ht
      exact withResult_describes h _
  | cons first rest =>
      have hshape := fun item (_ : item ∈ values.toList) =>
        (shaped_closed identifiers).outputOne item hs h.proper
      refine joinEach_describes hs h.proper hshape ht (hvalues ▸ List.mem_cons_self) fun t ht => ?_
      obtain rfl := pure_eq_ok.1 ht
      exact h

end IntervalState

/-- No value is computed by a call that prints. -/
theorem Stmt.Evaluates.name_ne_print {point : Point} {name : String} {type : Ty}
    {arguments : List Stmt} {v : Value} (h : (Stmt.call point name type arguments).Evaluates σ v) :
    name ≠ "print" := by
  cases h with
  | input _ _ => decide
  | @signed _ sign _ _ _ _ _ => cases sign <;> decide
  | not _ => decide
  | @arithmetic _ op _ _ _ _ _ _ _ _ _ _ => cases op <;> decide
  | @compare _ op _ _ _ _ _ _ _ hname _ _ _ => cases op <;> cases hname <;> decide
  | @connective _ op _ _ _ _ _ _ => cases op <;> decide
  | @cast _ target _ _ _ _ _ hname _ _ => cases target <;> cases hname <;> decide

theorem StateDomain.perform_of_evaluates {S Pre : Type} [StateDomain S Pre] (direction : Direction)
    {statement : Stmt} {v : Value} (h : statement.Evaluates σ v) (s : S) :
    perform direction statement s =
      (do let found ← statement.alternatives; return withResult s found) := by
  cases statement with
  | call point name type arguments => rw [perform, if_neg h.name_ne_print]
  | assign _ _ _ => cases h
  | ret _ _ => cases h
  | raise _ => cases h
  | _ => rfl

namespace IntervalState

variable {s t u : IntervalState} {identifiers : List Identifier}

/-- A statement takes a state that describes a valuation to one that describes what the statement
makes of it. -/
theorem perform_describes (hs : Shaped identifiers s) (h : s.Describes σ) {statement : Stmt}
    (hexecute : statement.Executes σ τ)
    (ht : StateDomain.perform .forward statement s = .ok t) : t.Describes τ := by
  cases hexecute with
  | @assign point place x right n hscalar hright hfits =>
      obtain ⟨targets, htargets, ht⟩ := bind_eq_ok.1 ht
      obtain ⟨values, hvalues, ht⟩ := bind_eq_ok.1 ht
      obtain rfl := pure_eq_ok.1 htargets
      obtain ⟨e, he, hevaluates⟩ := hright.denotes values hvalues
      have hpair : (Expr.var x, e) ∈ StateDomain.pairs (.singleton (.var x)) values :=
        List.mem_flatMap.2 ⟨_, List.mem_singleton.2 rfl, List.mem_map.2 ⟨e, he, rfl⟩⟩
      exact joinEach_describes hs h.proper (fun pair _ => assign_shaped hs.keys_eq _ _) ht hpair
        fun t ht => assign_describes hs h hscalar hevaluates hfits ht
  | expression hevaluates =>
      rw [StateDomain.perform_of_evaluates _ hevaluates] at ht
      obtain ⟨found, -, ht⟩ := bind_eq_ok.1 ht
      obtain rfl := pure_eq_ok.1 ht
      exact withResult_describes h found
  | print _ =>
      rw [StateDomain.perform, if_pos rfl] at ht
      obtain ⟨values, -, ht⟩ := bind_eq_ok.1 ht
      exact output_describes hs h ht
  | ret _ =>
      obtain ⟨values, -, ht⟩ := bind_eq_ok.1 ht
      exact output_describes hs h ht

/-- An edge that can be taken keeps a state that describes a valuation. -/
theorem traverse_describes {a : Analysis IntervalState Unit} (hs : Shaped identifiers s)
    (h : s.Describes σ) {e : Edge} (hpass : e.Passes σ) (ht : a.traverse e s = .ok t) :
    t.Describes σ := by
  have henter : Analysis.enterScope a.direction e.kind s = s := by
    unfold Analysis.enterScope
    split <;> rfl
  have hexit : ∀ u : IntervalState, Analysis.exitScope a.direction e.kind u = u := by
    intro u
    unfold Analysis.exitScope
    split <;> rfl
  unfold Analysis.traverse at ht
  obtain ⟨u, hguard, ht⟩ := bind_eq_ok.1 ht
  obtain rfl := pure_eq_ok.1 ht
  rw [henter] at hguard
  rw [hexit]
  unfold Analysis.passGuard at hguard
  split at hguard
  · obtain rfl := pure_eq_ok.1 hguard
    exact h
  · rename_i guard hsome
    obtain ⟨v, hevaluates, htrue⟩ := hpass guard hsome
    obtain ⟨asked, hasked, hfilter⟩ := bind_eq_ok.1 hguard
    rw [StateDomain.perform_of_evaluates _ hevaluates] at hasked
    obtain ⟨found, hfound, hasked⟩ := bind_eq_ok.1 hasked
    obtain rfl := pure_eq_ok.1 hasked
    obtain ⟨condition, hcondition, hvalue⟩ := hevaluates.denotes found hfound
    have hshaped := (shaped_closed identifiers).withResult found hs
    have hdescribes := withResult_describes h found
    exact joinEach_describes hshaped hdescribes.proper
      (fun item _ => assume_shaped hshaped hdescribes.proper item) hfilter hcondition
      fun t ht => assume_describes hshaped hdescribes hvalue htrue ht

end IntervalState

/-! ### Whole runs -/

namespace Analysis

variable {a : Analysis IntervalState Unit} {p : Progress IntervalState} {n i : Nat}
  {identifiers : List Identifier}

/-- A node with a state that is not bottom was computed. -/
theorem finish_computed_of_proper {s : IntervalState}
    (hs : ((a.finish p).statesAt n)[i]? = some s) (hproper : Extremal.isBottom s = false)
    (hsettled : a.Settled p) : 0 < (a.finish p).iterations n := by
  cases hnode : a.graph.nodes[n]? with
  | none => simp [AnalysisResult.statesAt, finish, hnode] at hs
  | some node =>
      have hn : n < a.graph.size := (Array.getElem?_eq_some_iff.1 hnode).1
      rw [finish_iterations hn, Progress.iterations]
      rw [finish_statesAt hnode] at hs
      cases hat : p.at? n with
      | none =>
          rw [hat] at hs
          have hbottom := List.eq_of_mem_replicate (List.mem_of_getElem? hs)
          rw [hbottom] at hproper
          cases hproper
      | some r => exact (hsettled.computed hat).1

theorem finish_statesAt_length (hsettled : a.Settled p) (hcount : 0 < (a.finish p).iterations n) :
    ((a.finish p).statesAt n).length = (a.graph.statementsAt n).length + 1 := by
  have hnode := Array.getElem?_eq_getElem (lt_of_finish_iterations_pos hcount)
  rw [finish_length hsettled hnode, Graph.statementsAt_eq hnode]

/-- Where no node waits, the state of a position describes every execution that comes to it. -/
theorem finish_describes (hforward : a.direction = .forward) (hg : a.graph.Wired)
    (hinitial : ∀ σ, a.initial.Describes σ) (hshaped : a.initial.Shaped identifiers)
    (hstage : a.Stage p) (hqueue : p.queue = []) (hreach : a.graph.Reaches n i σ) :
    ∃ s, ((a.finish p).statesAt n)[i]? = some s ∧ s.Describes σ := by
  have hsettled := hstage.settled IntervalState.upperBounds hg
  have hshape : ∀ {n : Nat} {s : IntervalState}, s ∈ (a.finish p).statesAt n →
      s.Shaped identifiers := fun hs =>
    finish_closed (IntervalState.shaped_closed identifiers) hshaped
      (hstage.stored (IntervalState.shaped_closed identifiers) hshaped) _ hs
  have hincoming : ∀ {states : List IntervalState} {s : IntervalState},
      a.incoming? states = some s → states[0]? = some s := by
    intro states s hs
    rw [incoming?, hforward] at hs
    exact List.head?_eq_getElem? ▸ hs
  induction hreach with
  | entry σ =>
      obtain ⟨s, hs, hle⟩ := finish_start hg hsettled hqueue
      have hentry : a.start = a.graph.entry := by rw [start, hforward]
      rw [hentry] at hs
      refine ⟨s, hincoming hs, (hinitial σ).mono hle ?_⟩
      exact (hshape (mem_of_incoming? hs)).keys_eq.trans hshaped.keys_eq.symm
  | @statement n i statement σ τ _ hstatement hexecute ih =>
      obtain ⟨s, hs, hdescribes⟩ := ih
      have hcount := finish_computed_of_proper hs hdescribes.proper hsettled
      have hlength := finish_statesAt_length hsettled hcount
      have hi := (List.getElem?_eq_some_iff.1 hstatement).1
      have hnext := List.getElem?_eq_getElem
        (show i + 1 < ((a.finish p).statesAt n).length by omega)
      have hlinked := finish_linked hsettled hcount hstatement hs hnext
      rw [Linked, hforward] at hlinked
      exact ⟨_, hnext, IntervalState.perform_describes (hshape (List.mem_of_getElem? hs)) hdescribes
        hexecute hlinked⟩
  | @edge e σ he _ hpass ih =>
      obtain ⟨s, hs, hdescribes⟩ := ih
      have hcount := finish_computed_of_proper hs hdescribes.proper hsettled
      have horigin : a.origin e = e.source := by rw [origin, hforward]
      have hdestination : a.destination e = e.target := by rw [destination, hforward]
      obtain ⟨t, u, r, hout, htraverse, hin, hle⟩ :=
        finish_edges hg hsettled hqueue he (horigin ▸ hcount)
      rw [horigin] at hout
      rw [hdestination] at hin
      -- the last state of the source is the one that the edge starts from
      obtain rfl : t = s := by
        rw [outgoing?, hforward] at hout
        change ((a.finish p).statesAt e.source).getLast? = some t at hout
        rw [List.getLast?_eq_getElem?, finish_statesAt_length hsettled hcount, Nat.add_sub_cancel,
          hs] at hout
        exact (Option.some.inj hout).symm
      have ht := hshape (mem_of_outgoing? hout)
      have hu := (traverse_concludes (IntervalState.shaped_closed identifiers) e ht).result htraverse
      refine ⟨r, hincoming hin, ?_⟩
      exact (IntervalState.traverse_describes ht hdescribes hpass htraverse).mono hle
        ((hshape (mem_of_incoming? hin)).keys_eq.trans hu.keys_eq.symm)

end Analysis

namespace IntervalState

theorem mem_keys_ofVariables {vars : List Identifier} {x : Identifier} (hx : x ∈ vars)
    (hscalar : x.IsScalar) : x ∈ (ofVariables vars).store.keys := by
  refine mem_keys_ofVariables_iff.2 ⟨x, hx, ?_⟩
  simp [tracked, Identifier.scalars, hscalar.2]

/-- The forward analysis of a numeric program is sound: at every position that an execution comes to,
with whatever numbers, the state of the result is not bottom and holds the number of each variable. -/
theorem forward_sound {nodes : List Node} {edges : List Edge} {entry exit : Nat} {g : Graph}
    (hbuild : Graph.build nodes edges entry exit = .ok g) {settings : Settings} {steps : Nat}
    {r : AnalysisResult IntervalState}
    (hrun : (forward g settings g.vars.toList).runWithin steps = some (.ok r)) {n i : Nat}
    {σ : Valuation} (hreach : g.Reaches n i σ) :
    ∃ s, (r.statesAt n)[i]? = some s ∧ Extremal.isBottom s = false ∧
      ∀ x ∈ g.vars, x.IsScalar →
        ∃ range, s.get? x = some range ∧ (σ.value x).value ∈ range := by
  obtain ⟨hg, -⟩ := Graph.build_wired hbuild
  obtain ⟨p, hstage, hqueue, rfl⟩ := Analysis.stage_of_runWithin hrun
  have hshaped := ofVariables_shaped g.vars.toList
  obtain ⟨s, hs, hdescribes⟩ := Analysis.finish_describes (a := forward g settings g.vars.toList)
    rfl hg (ofVariables_describes _) hshaped hstage hqueue hreach
  refine ⟨s, hs, hdescribes.proper, fun x hx hscalar => ?_⟩
  have hshape : s.Shaped _ := Analysis.finish_closed (shaped_closed _) hshaped
    (hstage.stored (shaped_closed _) hshaped) s (List.mem_of_getElem? hs)
  obtain ⟨range, hrange⟩ := OrderedMap.mem_keys_iff.1
    (hshape.keys_eq ▸ mem_keys_ofVariables hx hscalar)
  exact ⟨range, hrange, hdescribes.mem x range hscalar hrange⟩

/-- The result for the loop that counts has the counter at the end of its body. -/
theorem forward_sound_counting :
    ∃ r s range, Graph.build Graph.Counting.nodes Graph.Counting.edges 0 3 =
        .ok Graph.Counting.graph ∧
      (forward Graph.Counting.graph {} Graph.Counting.graph.vars.toList).runWithin 20 =
        some (.ok r) ∧
      Graph.Counting.graph.Reaches 2 1 Graph.Counting.afterOne ∧
      (r.statesAt 2)[1]? = some s ∧ s.get? Graph.Counting.counter = some range ∧ 1 ∈ range := by
  have hends : ((forward Graph.Counting.graph {}
      Graph.Counting.graph.vars.toList).runWithin 20).any Except.isOk = true := by
    decide +kernel
  obtain ⟨outcome, hrun, hok⟩ := (Option.any_eq_true _ _).1 hends
  cases outcome with
  | error e => cases hok
  | ok r =>
      obtain ⟨s, hs, -, hvalues⟩ :=
        forward_sound Graph.Counting.build_eq hrun Graph.Counting.reaches_afterOne
      obtain ⟨range, hrange, hmem⟩ := hvalues Graph.Counting.counter (by decide)
        Graph.Counting.counter_isScalar
      exact ⟨r, s, range, Graph.Counting.build_eq, hrun, Graph.Counting.reaches_afterOne, hs,
        hrange, hmem⟩

end IntervalState

end FlowAnalysis
