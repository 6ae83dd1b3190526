import FlowAnalysis.Proofs.Analysis.Termination
import FlowAnalysis.Proofs.Liveness.State
import FlowAnalysis.Proofs.Segment.Safety
import FlowAnalysis.Trace.State

/-!
The cap on iterations. It is looked at only where new states are stored, so that two runs with different
caps make the same visits until one of them is past its cap. A run that ends within its cap is therefore
the run without any, and a run that is cut off leaves a node that is recomputed once more without the
cap.
-/

namespace FlowAnalysis

/-- No operation of the domain itself reports that a run did not converge, on whatever states come from
this one. -/
def StateDomain.Quiet {S Pre : Type} [StateDomain S Pre] (s : S) : Prop :=
  ∃ (E : AnalysisError → Prop) (P : S → Prop), StateDomain.Closed E P ∧ P s ∧
    ∀ node count, ¬ E (.notConverged node count)

namespace Analysis

variable {S Pre : Type}

def withCap (a : Analysis S Pre) (cap : Option Nat) : Analysis S Pre :=
  { a with settings := { a.settings with maxIterations := cap } }

variable [StateDomain S Pre] {a : Analysis S Pre} {p p' q : Progress S} {m n steps : Nat}

/-! ### Runs and their stages -/

theorem iterate_of_visit {rest : List Nat} (hqueue : p.queue = n :: rest)
    (hvisit : a.visit (p.taken rest) n = .ok p') : a.iterate (steps + 1) p = a.iterate steps p' := by
  rw [Progress.taken] at hvisit
  simp only [iterate, hqueue, hvisit]

theorem iterate_of_error {rest : List Nat} {e : AnalysisError} (hqueue : p.queue = n :: rest)
    (hvisit : a.visit (p.taken rest) n = .error e) : a.iterate (steps + 1) p = some (.error e) := by
  rw [Progress.taken] at hvisit
  simp only [iterate, hqueue, hvisit]

/-- More steps do not change the outcome of a run. -/
theorem iterate_add {outcome : Outcome (Progress S)} (hrun : a.iterate steps p = some outcome)
    (more : Nat) : a.iterate (steps + more) p = some outcome := by
  induction steps generalizing p with
  | zero => cases hrun
  | succ steps ih =>
      rw [show steps + 1 + more = steps + more + 1 by omega]
      unfold iterate at hrun ⊢
      split at hrun
      · exact hrun
      · split at hrun
        · exact hrun
        · exact ih hrun

/-- A run passes through each of its stages: what follows the stage is what is left of the run. -/
theorem Stage.iterate_begin (hstage : a.Stage p) (more : Nat) :
    a.iterate (p.visits + more) a.begin = a.iterate more p := by
  induction hstage generalizing more with
  | begin => rw [show a.begin.visits = 0 from rfl, Nat.zero_add]
  | @visit p p' n rest _ hqueue hvisit ih =>
      have hvisits : p'.visits = p.visits + 1 := visits_of_visit hvisit
      calc a.iterate (p'.visits + more) a.begin
          = a.iterate (p.visits + (more + 1)) a.begin := by rw [hvisits]; congr 1; omega
        _ = a.iterate (more + 1) p := ih (more + 1)
        _ = a.iterate more p' := iterate_of_visit hqueue hvisit

theorem le_iterations_of_visit (hsize : p.stored.size = a.graph.size)
    (hvisit : a.visit p n = .ok p') (k : Nat) : p.iterations k ≤ p'.iterations k := by
  cases visit_cases hvisit with
  | missing _ => exact le_rfl
  | stable _ _ _ => exact le_rfl
  | recomputed hnode _ _ _ _ =>
      rw [iterations_recorded a (hsize ▸ (Array.getElem?_eq_some_iff.1 hnode).1)]
      exact Nat.le_add_right _ _

/-- Nodes are not computed less often the longer a run goes on. -/
theorem le_iterations_of_iterate (hstage : a.Stage p) (hrun : a.iterate steps p = some (.ok q))
    (k : Nat) : p.iterations k ≤ q.iterations k := by
  induction steps generalizing p with
  | zero => cases hrun
  | succ steps ih =>
      unfold iterate at hrun
      split at hrun
      · cases hrun
        exact le_rfl
      · rename_i n rest hqueue
        split at hrun
        · cases hrun
        · rename_i p' hvisit
          have hvisited := le_iterations_of_visit (p := p.taken rest) hstage.size hvisit k
          exact Nat.le_trans hvisited (ih (hstage.visit hqueue hvisit) hrun)

/-- At the end of a run a node was computed at least as often as at any of its stages. -/
theorem Stage.iterations_le_result {r : AnalysisResult S} (hstage : a.Stage p)
    (hrun : a.runWithin steps = some (.ok r)) (k : Nat) : p.iterations k ≤ r.iterations k := by
  obtain ⟨outcome, hiterate, houtcome⟩ := Option.map_eq_some_iff.1 hrun
  obtain ⟨q, rfl, rfl⟩ := map_eq_ok.1 houtcome
  have hrest : a.iterate steps p = some (.ok q) := by
    rw [← hstage.iterate_begin, Nat.add_comm]
    exact iterate_add hiterate p.visits
  have hle := le_iterations_of_iterate hstage hrest k
  by_cases hk : k < a.graph.size
  · rwa [finish_iterations hk]
  · have hnone : p.at? k = none := by
      rw [Progress.at?, Array.getElem?_eq_none (by rw [hstage.size]; omega)]
      rfl
    simp [Progress.iterations, hnone]

/-! ### Runs with a cap -/

theorem entering_withCap (cap : Option Nat) (node : Node) :
    (a.withCap cap).entering p n node = a.entering p n node := rfl

theorem previous_withCap (cap : Option Nat) : (a.withCap cap).previous p n = a.previous p n := rfl

theorem execute_withCap (cap : Option Nat) (s : S) :
    (a.withCap cap).execute n s = a.execute n s := by
  have hforward : ∀ statements i s,
      (a.withCap cap).executeForward n i statements s = a.executeForward n i statements s := by
    intro statements
    induction statements with
    | nil => exact fun _ _ => rfl
    | cons statement rest ih =>
        intro i s
        simp only [executeForward, ih]
        rfl
  have hbackward : ∀ statements i,
      (a.withCap cap).executeBackward n i statements s = a.executeBackward n i statements s := by
    intro statements
    induction statements with
    | nil => exact fun _ => rfl
    | cons statement rest ih =>
        intro i
        simp only [executeBackward, ih]
        rfl
  unfold execute
  cases hdirection : a.direction with
  | forward =>
      rw [show (a.withCap cap).direction = .forward from hdirection]
      exact hforward _ _ _
  | backward =>
      rw [show (a.withCap cap).direction = .backward from hdirection]
      exact hbackward _ _

omit [StateDomain S Pre] in
theorem record_withCap_none (states : List S) :
    (a.withCap none).record p n states = .ok (a.recorded p n states) := rfl

omit [StateDomain S Pre] in
theorem record_withCap_some (states : List S) :
    (a.withCap (some m)).record p n states =
      if m < p.iterations n + 1 then .error (.notConverged n (p.iterations n + 1))
      else .ok (a.recorded p n states) := by
  simp only [record, exceeds, withCap, Option.any_some, decide_eq_true_eq]
  rfl

/-- One visit with a cap is the visit without it, unless the node has been computed as often as the cap
allows. Then the visit without the cap computes it once more. -/
theorem visit_withCap (hsize : p.stored.size = a.graph.size) (hcap : p.iterations n ≤ m) :
    (a.withCap (some m)).visit p n = (a.withCap none).visit p n ∨
      (a.withCap (some m)).visit p n = .error (.notConverged n (m + 1)) ∧
        ∃ p', (a.withCap none).visit p n = .ok p' ∧ p'.iterations n = m + 1 := by
  unfold visit
  cases hnode : a.graph.nodes[n]? with
  | none =>
      rw [show (a.withCap (some m)).graph.nodes[n]? = none from hnode,
        show (a.withCap none).graph.nodes[n]? = none from hnode]
      exact Or.inl rfl
  | some node =>
      rw [show (a.withCap (some m)).graph.nodes[n]? = some node from hnode,
        show (a.withCap none).graph.nodes[n]? = some node from hnode]
      simp only [entering_withCap, previous_withCap, execute_withCap, record_withCap_none,
        record_withCap_some]
      cases a.entering p n node with
      | error e => exact Or.inl rfl
      | ok s =>
          simp only [bind, Except.bind]
          by_cases hle : Domain.le s (a.previous p n) = true
          · exact Or.inl (by rw [if_pos hle, if_pos hle])
          · rw [if_neg hle, if_neg hle]
            cases a.execute n s with
            | error e => exact Or.inl rfl
            | ok states =>
                by_cases hm : p.iterations n = m
                · refine Or.inr ⟨by simp [hm], _, rfl, ?_⟩
                  rw [iterations_recorded a (hsize ▸ (Array.getElem?_eq_some_iff.1 hnode).1), hm,
                    if_pos rfl]
                · refine Or.inl (if_neg ?_)
                  omega

/-- Every count of a run with a cap stays within it. -/
theorem iterations_le_of_visit (hsize : p.stored.size = a.graph.size)
    (hcap : ∀ k, p.iterations k ≤ m) (hvisit : (a.withCap (some m)).visit p n = .ok p') (k : Nat) :
    p'.iterations k ≤ m := by
  cases visit_cases hvisit with
  | missing _ => exact hcap k
  | stable _ _ _ => exact hcap k
  | recomputed hnode _ _ _ hexceeds =>
      have hn : n < p.stored.size := hsize ▸ (Array.getElem?_eq_some_iff.1 hnode).1
      simp only [exceeds, withCap, Option.any_some, decide_eq_false_iff_not] at hexceeds
      rw [iterations_recorded _ hn]
      by_cases hk : k = n
      · rw [if_pos hk, hk]
        omega
      · rw [if_neg hk]
        exact hcap k

/-- A run with a cap is the run without it, unless it is cut off. Then the run without it comes to a stage
where a node has been computed once more than the cap allows. -/
theorem iterate_withCap (steps : Nat) (hstage : (a.withCap none).Stage p) (hcap : ∀ k, p.iterations k ≤ m) :
    (a.withCap (some m)).iterate steps p = (a.withCap none).iterate steps p ∨
      ∃ node, (a.withCap (some m)).iterate steps p = some (.error (.notConverged node (m + 1))) ∧
        ∃ q, (a.withCap none).Stage q ∧ q.iterations node = m + 1 := by
  induction steps generalizing p with
  | zero => exact Or.inl rfl
  | succ steps ih =>
      cases hqueue : p.queue with
      | nil => exact Or.inl (by simp only [iterate, hqueue])
      | cons n rest =>
          have hsize : (p.taken rest).stored.size = a.graph.size := hstage.size
          have hvisits := visit_withCap (p := p.taken rest) (n := n) hsize (hcap n)
          cases hfree : (a.withCap none).visit (p.taken rest) n with
          | error e =>
              rw [hfree] at hvisits
              rcases hvisits with hcapped | ⟨-, _, hok, -⟩
              · exact Or.inl ((iterate_of_error hqueue hcapped).trans
                  (iterate_of_error hqueue hfree).symm)
              · cases hok
          | ok p' =>
              rw [hfree] at hvisits
              have hstage' := hstage.visit hqueue hfree
              rcases hvisits with hcapped | ⟨hcut, q, hq, hcount⟩
              · rw [iterate_of_visit hqueue hcapped, iterate_of_visit hqueue hfree]
                exact ih hstage' (iterations_le_of_visit hsize hcap hcapped)
              · cases hq
                exact Or.inr ⟨n, iterate_of_error hqueue hcut, p', hstage', hcount⟩

omit [StateDomain S Pre] in
theorem begin_iterations (k : Nat) : a.begin.iterations k = 0 := by
  rw [Progress.iterations, begin_at?]
  rfl

/-- The same for the result of a run. -/
theorem runWithin_withCap (m steps : Nat) :
    (a.withCap (some m)).runWithin steps = (a.withCap none).runWithin steps ∨
      ∃ node, (a.withCap (some m)).runWithin steps = some (.error (.notConverged node (m + 1))) ∧
        ∃ q, (a.withCap none).Stage q ∧ q.iterations node = m + 1 := by
  have hbegin : ∀ k, a.begin.iterations k ≤ m := fun k => by simp [begin_iterations]
  unfold runWithin
  rcases iterate_withCap steps .begin hbegin with heq | ⟨node, hcut, hq⟩
  · refine Or.inl ?_
    rw [show (a.withCap (some m)).begin = (a.withCap none).begin from rfl, heq]
    rfl
  · refine Or.inr ⟨node, ?_, hq⟩
    rw [show (a.withCap (some m)).begin = (a.withCap none).begin from rfl, hcut]
    rfl

/-- The counts of a result with a cap are within it. -/
theorem Stage.iterations_le_cap (hstage : (a.withCap (some m)).Stage p) : ∀ k, p.iterations k ≤ m := by
  induction hstage with
  | begin => exact fun k => by simp [begin_iterations]
  | @visit p p' n rest hstage _ hvisit ih =>
      exact iterations_le_of_visit (a := a) (p := p.taken rest) hstage.size ih hvisit

theorem runWithin_ne_notConverged (hquiet : StateDomain.Quiet a.initial) (node count : Nat) :
    (a.withCap none).runWithin steps ≠ some (.error (.notConverged node count)) := by
  obtain ⟨E, P, hclosed, hinitial, hE⟩ := hquiet
  intro hrun
  obtain ⟨outcome, hiterate, houtcome⟩ := Option.map_eq_some_iff.1 hrun
  cases outcome with
  | ok q => cases houtcome
  | error e =>
      obtain rfl : e = .notConverged node count := Except.error.inj houtcome
      rcases iterate_error (a := a.withCap none) hclosed hinitial .begin hiterate with h | ⟨hcap, -⟩
      · exact hE node count h
      · exact hcap rfl

/-- The cap on iterations only cuts runs off. A run that ends within the cap is the run without it, and
computes no node more often. A run that is cut off is so at one computation more than the cap allows,
and the run without the cap makes it. -/
theorem cap_cuts_off (a : Analysis S Pre) (m steps : Nat) :
    (∀ r, (a.withCap (some m)).runWithin steps = some (.ok r) →
      (∀ n, r.iterations n ≤ m) ∧ (a.withCap none).runWithin steps = some (.ok r)) ∧
    (StateDomain.Quiet a.initial → ∀ node count,
      (a.withCap (some m)).runWithin steps = some (.error (.notConverged node count)) →
      count = m + 1 ∧ (∃ p, (a.withCap none).Stage p ∧ m < p.iterations node) ∧
        ∀ steps' r, (a.withCap none).runWithin steps' = some (.ok r) → m < r.iterations node) ∧
    (∀ r, (a.withCap none).runWithin steps = some (.ok r) → (∀ n, r.iterations n ≤ m) →
      (a.withCap (some m)).runWithin steps = some (.ok r)) := by
  have hmore : ∀ {node q}, (a.withCap none).Stage q → q.iterations node = m + 1 →
      ∀ steps' r, (a.withCap none).runWithin steps' = some (.ok r) → m < r.iterations node := by
    intro node q hq hcount steps' r hrun
    have hle := hq.iterations_le_result hrun node
    omega
  refine ⟨fun r hrun => ⟨fun n => ?_, ?_⟩, fun hquiet node count hrun => ?_, fun r hrun hcounts => ?_⟩
  · obtain ⟨p, hstage, -, rfl⟩ := stage_of_runWithin hrun
    by_cases hn : n < (a.withCap (some m)).graph.size
    · rw [finish_iterations hn]
      exact hstage.iterations_le_cap n
    · exact Nat.le_of_not_lt fun hlt => hn (lt_of_finish_iterations_pos (Nat.zero_lt_of_lt hlt))
  · rcases runWithin_withCap (a := a) m steps with heq | ⟨_, hcut, -⟩
    · rw [← heq, hrun]
    · rw [hrun] at hcut
      cases hcut
  · rcases runWithin_withCap (a := a) m steps with heq | ⟨node', hcut, q, hq, hcount⟩
    · rw [heq] at hrun
      exact absurd hrun (runWithin_ne_notConverged hquiet node count)
    · rw [hrun] at hcut
      cases hcut
      exact ⟨rfl, ⟨q, hq, by omega⟩, hmore hq hcount⟩
  · rcases runWithin_withCap (a := a) m steps with heq | ⟨node, -, q, hq, hcount⟩
    · rw [heq, hrun]
    · have hlt := hmore hq hcount steps r hrun
      have hle := hcounts node
      omega

end Analysis

/-! ### The state domains -/

/-- Whether a domain can report an error. Only a run reports that it did not converge. -/
def AnalysisError.OfDomain (e : AnalysisError) : Prop := ∀ node count, e ≠ .notConverged node count

theorem AnalysisError.IsSemantic.ofDomain {e : AnalysisError} (h : e.IsSemantic) : e.OfDomain := by
  rintro node count rfl
  exact h

/-- A computation that fails, if at all, with an error of a domain. -/
abbrev Calm {α : Type} (x : Outcome α) : Prop := Concludes AnalysisError.OfDomain (fun _ => True) x

section Calm

variable {α β : Type}

theorem Meets.calm {P : α → Prop} {x : Outcome α} (h : Meets P x) : Calm x :=
  (h.weaken fun _ => AnalysisError.IsSemantic.ofDomain).mono fun _ _ => trivial

theorem Calm.elim {x : Outcome α} (hx : Calm x) (settled : Option α) : Calm (settled.elim x pure) := by
  cases settled with
  | none => exact hx
  | some a => trivial

theorem Calm.map {x : Outcome α} (hx : Calm x) (f : α → β) : Calm (x.map f) := by
  cases x with
  | ok a => trivial
  | error e => exact hx

theorem Store.combine_calm {f : α → α → Outcome α} (hf : ∀ a b, Calm (f a b)) (s t : Store α) :
    Calm (combine f s t) := by
  have hvalues : ∀ as bs, Calm (combineValues f as bs) := by
    intro as bs
    fun_induction combineValues f as bs with
    | case1 a as b bs ih => exact (hf a b).bind fun _ _ => ih.bind fun _ _ => trivial
    | case2 => trivial
  unfold combine
  split
  · exact (hvalues _ _).bind fun _ _ => trivial
  · rintro node count ⟨⟩

theorem Store.join_calm [Domain α] (h : ∀ a b : α, Calm (Domain.join a b)) (s t : Store α) : Calm (Domain.join s t) :=
  (combine_calm h s t).elim _

theorem Store.widen_calm [Domain α] (h : ∀ a b : α, Calm (Domain.widen a b)) (s t : Store α) :
    Calm (Domain.widen s t) :=
  (combine_calm h s t).elim _

end Calm

theorem Interval.join_calm (a b : Interval) : Calm (Domain.join a b) := trivial

theorem Interval.widen_calm (a b : Interval) : Calm (Domain.widen a b) := trivial

namespace SegmentMap

variable (m n : SegmentMap) (key : Region) (value : Interval)

theorem withSegments_calm (segments : List Segment) : Calm (m.withSegments segments) := by
  unfold withSegments
  split
  · trivial
  · rintro node count ⟨⟩

theorem insert_calm : Calm (m.insert key value) := by
  unfold insert
  split
  · trivial
  · exact m.withSegments_calm _

theorem overwrite_calm : Calm (m.overwrite key value) := by
  unfold overwrite
  split
  · trivial
  · split
    · trivial
    · split
      · exact m.withSegments_calm _
      · exact m.insert_calm key value

theorem update_calm (updates : List Segment) : Calm (m.update updates) := by
  unfold update
  split
  · trivial
  · exact m.withSegments_calm _

theorem join_calm : Calm (Domain.join m n) := (m.withSegments_calm _).elim _

theorem widen_calm : Calm (Domain.widen m n) := by
  refine Calm.elim ?_ _
  unfold widenSegments
  split <;> exact m.withSegments_calm _

end SegmentMap

namespace SegmentState

variable (s : SegmentState) (type : Ty)

theorem listContent_calm (i : Nat) (items : List Expr) (m : SegmentMap) : Calm (s.listContent type i items m) := by
  induction items generalizing i m with
  | nil => trivial
  | cons item rest ih =>
      exact (evaluate_meets _ item).calm.bind fun value _ =>
        (m.overwrite_calm _ value).bind fun m' _ => ih (i + 1) m'

theorem dictContent_calm (keys values : List Expr) (m : SegmentMap) : Calm (s.dictContent type keys values m) := by
  rw [dictContent_eq_foldlM]
  refine Concludes.foldlM trivial fun m entry _ _ => ?_
  refine (evaluate_meets _ entry.1).calm.bind fun region _ => (evaluate_meets _ entry.2).calm.bind fun value _ => ?_
  dsimp only
  split
  · exact m.overwrite_calm _ value
  · exact m.insert_calm _ value

theorem contentOf_calm (e : Expr) : Calm (s.contentOf type e) := by
  unfold contentOf
  split
  case h_2 => exact s.listContent_calm type 0 _ _
  case h_3 => exact s.dictContent_calm type _ _ _
  case h_4 =>
    exact (evaluate_meets _ _).calm.bind fun _ _ => (evaluate_meets _ _).calm.bind fun _ _ =>
      (evaluate_meets _ _).calm.bind fun _ _ => trivial
  all_goals trivial

theorem assignContainer_calm (x : Identifier) (e : Expr) : Calm (s.assignContainer x e) := by
  refine (length_meets _ e).calm.bind fun size _ => ?_
  dsimp only
  split
  · split
    · trivial
    · exact (contentOf_calm _ _ e).bind fun _ _ => trivial
  · trivial

theorem assignRegion_calm (x : Identifier) (m : SegmentMap) (key : Region) (value : Interval) :
    Calm (s.assignRegion x m key value) := by
  rw [assignRegion_eq]
  refine Calm.map ?_ _
  split
  · exact m.overwrite_calm key value
  · exact m.update_calm _

theorem assignItem_calm (x : Identifier) (key value : Expr) : Calm (s.assignItem x key value) := by
  refine (evaluate_meets _ key).calm.bind fun k _ => (evaluate_meets _ value).calm.bind fun v _ => ?_
  split
  · trivial
  · split
    · rintro node count ⟨⟩
    · rename_i m _
      dsimp only
      split
      · trivial
      · exact (s.assignRegion_calm x m _ v).bind fun _ _ => trivial

theorem assign_calm (left right : Expr) : Calm (s.assign left right) := by
  unfold assign
  split
  · split
    · exact (evaluate_meets _ right).calm.bind fun _ _ => trivial
    · split
      · exact (s.assignContainer_calm _ right).bind fun _ _ => trivial
      · trivial
  · split
    · refine (s.assignItem_calm _ _ right).bind fun found _ => ?_
      cases found <;> trivial
    · rintro node count ⟨⟩
  · rintro node count ⟨⟩

end SegmentState

/-- A domain whose operations are calm, whatever the states are. -/
structure StateDomain.AllCalm (S : Type) {Pre : Type} [StateDomain S Pre] : Prop where
  join : ∀ s t : S, Calm (Domain.join s t)
  widen : ∀ s t : S, Calm (Domain.widen s t)
  assignOne : ∀ (s : S) left right, Calm (assignOne s left right)
  assumeOne : ∀ (s : S) condition, Calm (assumeOne s condition)
  substituteOne : ∀ (s : S) left right, Calm (substituteOne s left right)
  outputOne : ∀ (s : S) value, Calm (outputOne s value)

theorem StateDomain.AllCalm.quiet {S Pre : Type} [StateDomain S Pre] (h : AllCalm S) (s : S) : Quiet s := by
  refine ⟨AnalysisError.OfDomain, fun _ => True, ?_, trivial, fun node count h => h node count rfl⟩
  exact {
    semantic := fun _ => AnalysisError.IsSemantic.ofDomain
    bottom := fun _ => trivial
    withResult := fun _ _ => trivial
    before := fun _ _ _ => trivial
    join := fun _ _ => h.join _ _
    widen := fun _ _ => h.widen _ _
    assignOne := fun left right _ _ => h.assignOne _ left right
    assumeOne := fun condition _ _ => h.assumeOne _ condition
    substituteOne := fun left right _ _ => h.substituteOne _ left right
    outputOne := fun value _ _ => h.outputOne _ value
    enterIf := fun _ => trivial
    exitIf := fun _ => trivial
    enterLoop := fun _ => trivial
    exitLoop := fun _ => trivial }

theorem IntervalState.allCalm : StateDomain.AllCalm IntervalState where
  join s t := by
    refine Calm.elim ?_ _
    exact (Store.join_calm Interval.join_calm s.store t.store).bind fun _ _ => trivial
  widen s t := by
    refine Calm.elim ?_ _
    exact (Store.widen_calm Interval.widen_calm s.store t.store).bind fun _ _ => trivial
  assignOne _ left right := (assign_shaped rfl left right).calm
  assumeOne _ condition := by
    refine (refineAnswer_meets _ condition true).calm.bind fun found _ => ?_
    cases found <;> trivial
  substituteOne _ _ _ := by rintro node count ⟨⟩
  outputOne _ _ := trivial

theorem SegmentState.allCalm : StateDomain.AllCalm SegmentState where
  join s t := by
    refine Calm.elim ?_ _
    refine (Store.join_calm Interval.join_calm s.scalars t.scalars).bind fun _ _ => ?_
    exact (Store.join_calm SegmentMap.join_calm s.contents t.contents).bind fun _ _ => trivial
  widen s t := by
    refine Calm.elim ?_ _
    refine (Store.widen_calm Interval.widen_calm s.scalars t.scalars).bind fun _ _ => ?_
    exact (Store.widen_calm SegmentMap.widen_calm s.contents t.contents).bind fun _ _ => trivial
  assignOne s left right := s.assign_calm left right
  assumeOne _ condition := by
    refine (refineAnswer_meets _ condition true).calm.bind fun found _ => ?_
    cases found <;> trivial
  substituteOne _ _ _ := by rintro node count ⟨⟩
  outputOne _ _ := trivial

theorem LivenessState.allCalm : StateDomain.AllCalm LivenessState where
  join _ _ := trivial
  widen _ _ := trivial
  assignOne _ _ _ := by rintro node count ⟨⟩
  assumeOne _ _ := trivial
  substituteOne s left right := by
    change Calm (s.substitute left right)
    unfold substitute
    split
    · trivial
    · trivial
    · rintro node count ⟨⟩
  outputOne _ _ := trivial

theorem TraceState.allCalm : StateDomain.AllCalm TraceState where
  join _ _ := trivial
  widen _ _ := trivial
  assignOne s left right := by
    change Calm (s.assign left right)
    unfold assign
    split
    · trivial
    · trivial
    · rintro node count ⟨⟩
  assumeOne _ _ := trivial
  substituteOne _ _ _ := trivial
  outputOne _ _ := trivial

/-- None of the state domains reports by itself that a run did not converge, from whatever state. -/
theorem StateDomain.quiet_all : (∀ s : IntervalState, Quiet s) ∧ (∀ s : SegmentState, Quiet s) ∧
    (∀ s : LivenessState, Quiet s) ∧ ∀ s : TraceState, Quiet s :=
  ⟨IntervalState.allCalm.quiet, SegmentState.allCalm.quiet, LivenessState.allCalm.quiet, TraceState.allCalm.quiet⟩

namespace Analysis

/-- The head of the counting loop is computed five times: a cap of four cuts the run off and a cap of five
does not. -/
theorem cap_cuts_off_counting :
    let a := IntervalState.forward Graph.Counting.graph {} Graph.Counting.graph.vars.toList
    (a.withCap (some 4)).runWithin 30 = some (.error (.notConverged 1 5)) ∧
    (∃ p, (a.withCap none).Stage p ∧ 4 < p.iterations 1) ∧
    ∃ r, (a.withCap (some 5)).runWithin 30 = some (.ok r) ∧
      (a.withCap none).runWithin 30 = some (.ok r) ∧ 4 < r.iterations 1 ∧ ∀ n, r.iterations n ≤ 5 := by
  intro a
  have hcut : (a.withCap (some 4)).runWithin 30 = some (.error (.notConverged 1 5)) := by
    have hmap : ((a.withCap (some 4)).runWithin 30).map (Except.map fun _ => ()) =
        some (.error (.notConverged 1 5)) := by
      decide +kernel
    obtain ⟨outcome, hrun, houtcome⟩ := Option.map_eq_some_iff.1 hmap
    cases outcome with
    | ok r => cases houtcome
    | error e =>
        obtain rfl := Except.error.inj houtcome
        exact hrun
  obtain ⟨r, hrun⟩ : ∃ r, (a.withCap (some 5)).runWithin 30 = some (.ok r) :=
    exists_of_any_isOk (by decide +kernel)
  obtain ⟨-, hcutoff, -⟩ := cap_cuts_off a 4 30
  obtain ⟨hended, -, -⟩ := cap_cuts_off a 5 30
  obtain ⟨-, hstage, hmore⟩ :=
    hcutoff (StateDomain.quiet_all.1 _) 1 5 hcut
  obtain ⟨hcounts, hfree⟩ := hended r hrun
  exact ⟨hcut, hstage, r, hrun, hfree, hmore 30 r hfree, hcounts⟩

end Analysis

end FlowAnalysis
