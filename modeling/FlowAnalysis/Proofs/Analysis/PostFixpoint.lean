import FlowAnalysis.Proofs.Analysis.Stage
import FlowAnalysis.Proofs.Interval.State

/-!
Results are post-fixpoints. Where a run ends, the states of a node follow from each other by its
statements, the state with which the start is entered covers the initial one, and whatever is carried
over an edge is covered by the state with which its far end is entered. Transformers need not be
monotone for this and states need not grow from visit to visit: the state of a node is replaced. What
carries the argument is that an edge whose far end does not cover it leads to a node that waits.
-/

namespace FlowAnalysis

namespace Analysis

variable {S Pre : Type} [StateDomain S Pre] {a : Analysis S Pre} {p p' : Progress S} {n : Nat}

/-! ### The states of one node -/

/-- Statement `i` of node `n` relates the states around it, in the direction of the analysis. -/
def Linked (a : Analysis S Pre) (n i : Nat) (statement : Stmt) (earlier later : S) : Prop :=
  match a.direction with
  | .forward =>
    StateDomain.perform .forward statement
      (StateDomain.before earlier statement.point (a.precursoryAt n i)) = .ok later
  | .backward =>
    StateDomain.perform .backward statement
      (StateDomain.before later statement.point (a.precursoryAt n (i + 1))) = .ok earlier

/-- States surround statements from position `i` of node `n` on, and neighbours are related. -/
structure Surround (a : Analysis S Pre) (n i : Nat) (statements : List Stmt) (states : List S) :
    Prop where
  length_eq : states.length = statements.length + 1
  linked : ∀ {k : Nat} {statement : Stmt} {earlier later : S}, statements[k]? = some statement →
    states[k]? = some earlier → states[k + 1]? = some later →
      a.Linked n (i + k) statement earlier later

theorem surround_nil (i : Nat) (s : S) : a.Surround n i [] [s] :=
  ⟨rfl, fun h => by simp at h⟩

theorem Surround.cons {i : Nat} {statement : Stmt} {statements : List Stmt} {s t : S}
    {states : List S} (h : a.Surround n (i + 1) statements states) (hhead : states.head? = some t)
    (hlink : a.Linked n i statement s t) : a.Surround n i (statement :: statements) (s :: states) := by
  refine ⟨by simp [h.length_eq], ?_⟩
  intro k found earlier later hfound hearlier hlater
  cases k with
  | zero =>
      cases hfound
      cases hearlier
      rw [List.getElem?_cons_succ, ← List.head?_eq_getElem?, hhead] at hlater
      cases hlater
      exact hlink
  | succ k =>
      have hlinked := h.linked (k := k) hfound hearlier hlater
      rwa [Nat.add_right_comm] at hlinked

theorem executeForward_surround (hforward : a.direction = .forward) {i : Nat}
    {statements : List Stmt} {s : S} {states : List S}
    (h : a.executeForward n i statements s = .ok states) :
    a.Surround n i statements states ∧ states.head? = some s := by
  induction statements generalizing i s states with
  | nil =>
      obtain rfl := pure_eq_ok.1 h
      exact ⟨surround_nil i s, rfl⟩
  | cons statement rest ih =>
      rw [executeForward] at h
      obtain ⟨next, hperform, h⟩ := bind_eq_ok.1 h
      obtain ⟨later, hlater, h⟩ := bind_eq_ok.1 h
      obtain rfl := pure_eq_ok.1 h
      obtain ⟨hsurround, hhead⟩ := ih hlater
      refine ⟨hsurround.cons hhead ?_, rfl⟩
      rw [Linked, hforward]
      exact hperform

theorem executeBackward_surround (hbackward : a.direction = .backward) {i : Nat}
    {statements : List Stmt} {s : S} {states : List S}
    (h : a.executeBackward n i statements s = .ok states) :
    a.Surround n i statements states ∧ states.getLast? = some s := by
  induction statements generalizing i states with
  | nil =>
      obtain rfl := pure_eq_ok.1 h
      exact ⟨surround_nil i s, rfl⟩
  | cons statement rest ih =>
      rw [executeBackward] at h
      obtain ⟨later, hlater, h⟩ := bind_eq_ok.1 h
      obtain ⟨previous, hperform, h⟩ := bind_eq_ok.1 h
      obtain rfl := pure_eq_ok.1 h
      obtain ⟨hsurround, hlast⟩ := ih hlater
      cases later with
      | nil => cases hlast
      | cons t later =>
          refine ⟨hsurround.cons (t := t) rfl ?_, ?_⟩
          · rw [Linked, hbackward]
            exact hperform
          · rwa [List.getLast?_cons_cons]

/-- Executing a node that is entered with `s` gives states around its statements, and the one where
the node is entered is `s`. -/
theorem execute_surround {s : S} {states : List S} (h : a.execute n s = .ok states) :
    a.Surround n 0 (a.graph.statementsAt n) states ∧ a.incoming? states = some s := by
  unfold execute at h
  unfold incoming?
  split at h
  · rename_i hforward
    simpa only [hforward] using executeForward_surround hforward h
  · rename_i hbackward
    simpa only [hbackward] using executeBackward_surround hbackward h

/-! ### What arrives at a node -/

/-- The state `s` covers what is carried over the edge `e` at the stage `p`. -/
def Covers (a : Analysis S Pre) (p : Progress S) (e : Edge) (s : S) : Prop :=
  ∀ t, a.leaving? p (a.origin e) = some t → ∃ u, a.traverse e t = .ok u ∧ Domain.le u s = true

variable (laws : Domain.UpperBounds S)
include laws

theorem Covers.mono {e : Edge} {s t : S} (h : a.Covers p e s) (hle : Domain.le s t = true) :
    a.Covers p e t := by
  intro v hv
  obtain ⟨u, htraverse, hu⟩ := h v hv
  exact ⟨u, htraverse, laws.le_trans hu hle⟩

theorem joinOver_covers {e : Edge} {s t : S} (h : a.joinOver p s e = .ok t) :
    Domain.le s t = true ∧ a.Covers p e t := by
  unfold joinOver at h
  split at h
  · rename_i hnone
    obtain rfl := pure_eq_ok.1 h
    refine ⟨laws.le_refl s, fun v hv => ?_⟩
    rw [leaving?, hnone] at hv
    cases hv
  · rename_i v hsome
    obtain ⟨u, htraverse, hjoin⟩ := bind_eq_ok.1 h
    refine ⟨laws.le_join_left hjoin, fun v' hv' => ?_⟩
    rw [leaving?, hsome] at hv'
    cases hv'
    exact ⟨u, htraverse, laws.le_join_right hjoin⟩

theorem joinOver_foldlM_covers {edges : List Edge} {s t : S}
    (h : edges.foldlM (a.joinOver p) s = .ok t) :
    Domain.le s t = true ∧ ∀ e ∈ edges, a.Covers p e t := by
  induction edges generalizing s with
  | nil =>
      obtain rfl := pure_eq_ok.1 h
      exact ⟨laws.le_refl s, by simp⟩
  | cons e edges ih =>
      rw [List.foldlM_cons] at h
      obtain ⟨u, hfirst, hrest⟩ := bind_eq_ok.1 h
      obtain ⟨hle, hcovers⟩ := joinOver_covers laws hfirst
      obtain ⟨hle', hcovers'⟩ := ih hrest
      refine ⟨laws.le_trans hle hle', ?_⟩
      intro f hf
      rcases List.mem_cons.1 hf with rfl | hf
      · exact hcovers.mono laws hle'
      · exact hcovers' f hf

/-- The state with which a node is entered covers what the node has of its own and what is carried
over each edge that leads to it. -/
theorem entering_covers {node : Node} {s : S} (h : a.entering p n node = .ok s) :
    Domain.le (a.own n) s = true ∧ ∀ e ∈ a.arriving n, a.Covers p e s := by
  unfold entering at h
  obtain ⟨t, harrival, h⟩ := bind_eq_ok.1 h
  obtain ⟨hown, hcovers⟩ := joinOver_foldlM_covers laws harrival
  have hle : Domain.le t s = true := by
    split at h
    · exact laws.le_widen_right h
    · obtain rfl := pure_eq_ok.1 h
      exact laws.le_refl t
  exact ⟨laws.le_trans hown hle, fun e he => (hcovers e he).mono laws hle⟩

omit laws

/-! ### The invariant of a run -/

theorem previous_recorded {s : S} {states : List S} (hn : n < p.stored.size)
    (hexecute : a.execute n s = .ok states) (m : Nat) :
    a.previous (a.recorded p n states) m = if m = n then s else a.previous p m := by
  rw [previous, at?_recorded a hn]
  by_cases hm : m = n
  · simp [hm, (execute_surround hexecute).2]
  · simp [hm, previous]

/-- Stored states come from an execution, and only nodes that wait may be entered with a state that
does not cover what arrives. -/
structure Settled (a : Analysis S Pre) (p : Progress S) : Prop where
  computed : ∀ {n : Nat} {r : NodeResult S}, p.at? n = some r →
    0 < r.iterations ∧ ∃ s, a.execute n s = .ok r.states
  start : a.start ∉ p.queue → Domain.le a.initial (a.previous p a.start) = true
  edges : ∀ e ∈ a.graph.edges, a.destination e ∉ p.queue →
    a.Covers p e (a.previous p (a.destination e))

theorem begin_settled : a.Settled a.begin where
  computed h := by simp [begin_at?] at h
  start h := absurd (List.mem_singleton.2 rfl) h
  edges e _ _ t h := by simp [leaving?, begin_at?] at h

/-- A node that is taken from the queue and left as it is was the only one to be looked at. -/
theorem Settled.taken {rest : List Nat} (h : a.Settled p) (hqueue : p.queue = n :: rest)
    (hstart : n = a.start → Domain.le a.initial (a.previous p n) = true)
    (hedges : ∀ e ∈ a.graph.edges, a.destination e = n → a.Covers p e (a.previous p n)) :
    a.Settled (p.taken rest) where
  computed := h.computed
  start hwait := by
    by_cases hn : n = a.start
    · exact hn ▸ hstart hn
    · exact h.start fun hmem => (List.mem_cons.1 (hqueue ▸ hmem)).elim (Ne.symm hn) hwait
  edges e he hwait := by
    by_cases hn : a.destination e = n
    · exact hn ▸ hedges e he hn
    · exact h.edges e he fun hmem => (List.mem_cons.1 (hqueue ▸ hmem)).elim hn hwait

include laws

/-- Storing new states for `n` keeps the invariant: `n` itself covers what arrives, and the only nodes
that see the change stand behind `n` and wait. -/
theorem Settled.recorded (hg : a.graph.Wired) {rest : List Nat} {node : Node} {s : S}
    {states : List S} (h : a.Settled p) (hqueue : p.queue = n :: rest)
    (hsize : p.stored.size = a.graph.size) (hnode : a.graph.nodes[n]? = some node)
    (henter : a.entering (p.taken rest) n node = .ok s) (hexecute : a.execute n s = .ok states) :
    a.Settled (a.recorded (p.taken rest) n states) := by
  obtain ⟨hown, hcovers⟩ := entering_covers laws henter
  have hn : n < (p.taken rest).stored.size := by
    change n < p.stored.size
    rw [hsize]
    exact (Array.getElem?_eq_some_iff.1 hnode).1
  refine ⟨?_, ?_, ?_⟩
  · intro m r hr
    rw [at?_recorded a hn] at hr
    by_cases hm : m = n
    · subst hm
      rw [if_pos rfl] at hr
      cases hr
      exact ⟨Nat.succ_pos _, s, hexecute⟩
    · rw [if_neg hm] at hr
      exact h.computed hr
  · intro hwait
    rw [previous_recorded hn hexecute]
    by_cases hstart : a.start = n
    · rw [if_pos hstart]
      rwa [own, if_pos hstart.symm] at hown
    · rw [if_neg hstart]
      refine h.start fun hmem => ?_
      rw [hqueue] at hmem
      rcases List.mem_cons.1 hmem with heq | hmem
      · exact hstart heq
      · exact hwait (Progress.mem_enqueue.2 (Or.inl hmem))
  · intro e he hwait
    -- an edge from `n` leads to a node behind `n`, and those wait now
    have horigin : a.origin e ≠ n := fun heq =>
      hwait (Progress.mem_enqueue.2 (Or.inr ((mem_behind hg).2 ⟨e, he, heq, rfl⟩)))
    rw [previous_recorded hn hexecute]
    intro t ht
    rw [leaving?_recorded_of_ne hn horigin] at ht
    by_cases hdest : a.destination e = n
    · rw [if_pos hdest]
      exact hcovers e ((mem_arriving hg).2 ⟨he, hdest⟩) t ht
    · rw [if_neg hdest]
      refine h.edges e he (fun hmem => ?_) t ht
      rw [hqueue] at hmem
      rcases List.mem_cons.1 hmem with heq | hmem
      · exact hdest heq
      · exact hwait (Progress.mem_enqueue.2 (Or.inl hmem))

/-- A visit keeps the invariant. -/
theorem Settled.visit (hg : a.graph.Wired) {rest : List Nat} (h : a.Settled p)
    (hsize : p.stored.size = a.graph.size) (hqueue : p.queue = n :: rest)
    (hvisit : a.visit (p.taken rest) n = .ok p') : a.Settled p' := by
  cases visit_cases hvisit with
  | missing hnode =>
      have hn : a.graph.size ≤ n := Array.getElem?_eq_none_iff.1 hnode
      refine h.taken hqueue ?_ ?_
      · intro heq
        have := start_lt hg
        omega
      · intro e he heq
        have := destination_lt hg he
        omega
  | stable hnode henter hle =>
      obtain ⟨hown, hcovers⟩ := entering_covers laws henter
      refine h.taken hqueue ?_ ?_
      · intro heq
        rw [own, if_pos heq] at hown
        exact laws.le_trans hown hle
      · intro e he hdest
        exact (hcovers e ((mem_arriving hg).2 ⟨he, hdest⟩)).mono laws hle
  | recomputed hnode henter _ hexecute _ =>
      exact h.recorded laws hg hqueue hsize hnode henter hexecute

theorem Stage.settled (hg : a.graph.Wired) (hstage : a.Stage p) : a.Settled p := by
  induction hstage with
  | begin => exact begin_settled
  | visit hstage hqueue hvisit ih => exact ih.visit laws hg hstage.size hqueue hvisit

omit laws

/-! ### Results -/

variable {r : AnalysisResult S}

/-- The states of a computed node stem from its last execution. -/
theorem finish_computed (hsettled : a.Settled p) (hcount : 0 < (a.finish p).iterations n) :
    ∃ found s, p.at? n = some found ∧ a.execute n s = .ok found.states ∧
      (a.finish p).statesAt n = found.states := by
  have hn : n < a.graph.size := lt_of_finish_iterations_pos hcount
  rw [finish_iterations hn, Progress.iterations] at hcount
  cases hat : p.at? n with
  | none => simp [hat] at hcount
  | some found =>
      obtain ⟨-, s, hexecute⟩ := hsettled.computed hat
      refine ⟨found, s, rfl, hexecute, ?_⟩
      rw [finish_statesAt (Array.getElem?_eq_getElem hn), hat]
      rfl

/-- A node has as many states as statements and one more, computed or not. -/
theorem finish_length (hsettled : a.Settled p) {node : Node} (hnode : a.graph.nodes[n]? = some node) :
    ((a.finish p).statesAt n).length = node.statements.length + 1 := by
  rw [finish_statesAt hnode]
  cases hat : p.at? n with
  | none => exact List.length_replicate
  | some found =>
      obtain ⟨-, s, hexecute⟩ := hsettled.computed hat
      rw [← Graph.statementsAt_eq hnode]
      exact (execute_surround hexecute).1.length_eq

/-- The state with which a node is entered is the one that its last visit compared with. -/
theorem finish_incoming (hsettled : a.Settled p) (hn : n < a.graph.size) :
    a.incoming? ((a.finish p).statesAt n) = some (a.previous p n) := by
  rw [finish_statesAt (Array.getElem?_eq_getElem hn), previous]
  cases hat : p.at? n with
  | none =>
      unfold incoming?
      split
      · rfl
      · simp [untouched, List.getLast?_replicate]
  | some found =>
      obtain ⟨-, s, hexecute⟩ := hsettled.computed hat
      simp [(execute_surround hexecute).2]

/-- A result that no further visit can change: (a) the states of every node surround its statements and
follow from each other if the node was computed, (b) the start is entered with a state that covers the
initial one, and (c) what a computed node sends over an edge is covered at the far end. -/
structure PostFixpoint (a : Analysis S Pre) (r : AnalysisResult S) : Prop where
  length_eq : ∀ {n : Nat} {node : Node}, a.graph.nodes[n]? = some node →
    (r.statesAt n).length = node.statements.length + 1
  linked : ∀ {n : Nat}, 0 < r.iterations n →
    ∀ {i : Nat} {statement : Stmt} {earlier later : S}, (a.graph.statementsAt n)[i]? = some statement →
      (r.statesAt n)[i]? = some earlier → (r.statesAt n)[i + 1]? = some later →
        a.Linked n i statement earlier later
  start : ∃ s, a.incoming? (r.statesAt a.start) = some s ∧ Domain.le a.initial s = true
  edges : ∀ e ∈ a.graph.edges, 0 < r.iterations (a.origin e) →
    ∃ t u s, a.outgoing? (r.statesAt (a.origin e)) = some t ∧ a.traverse e t = .ok u ∧
      a.incoming? (r.statesAt (a.destination e)) = some s ∧ Domain.le u s = true

theorem finish_linked (hsettled : a.Settled p) (hcount : 0 < (a.finish p).iterations n) {i : Nat}
    {statement : Stmt} {earlier later : S} (hstatement : (a.graph.statementsAt n)[i]? = some statement)
    (hearlier : ((a.finish p).statesAt n)[i]? = some earlier)
    (hlater : ((a.finish p).statesAt n)[i + 1]? = some later) :
    a.Linked n i statement earlier later := by
  obtain ⟨found, s, -, hexecute, hstates⟩ := finish_computed hsettled hcount
  rw [hstates] at hearlier hlater
  have hlinked := (execute_surround hexecute).1.linked hstatement hearlier hlater
  rwa [Nat.zero_add] at hlinked

theorem finish_start (hg : a.graph.Wired) (hsettled : a.Settled p) (hqueue : p.queue = []) :
    ∃ s, a.incoming? ((a.finish p).statesAt a.start) = some s ∧ Domain.le a.initial s = true :=
  ⟨_, finish_incoming hsettled (start_lt hg), hsettled.start (by simp [hqueue])⟩

theorem finish_edges (hg : a.graph.Wired) (hsettled : a.Settled p) (hqueue : p.queue = []) {e : Edge}
    (he : e ∈ a.graph.edges) (hcount : 0 < (a.finish p).iterations (a.origin e)) :
    ∃ t u s, a.outgoing? ((a.finish p).statesAt (a.origin e)) = some t ∧ a.traverse e t = .ok u ∧
      a.incoming? ((a.finish p).statesAt (a.destination e)) = some s ∧ Domain.le u s = true := by
  obtain ⟨found, s, hat, hexecute, hstates⟩ := finish_computed hsettled hcount
  have hlength : 0 < found.states.length := by
    rw [(execute_surround hexecute).1.length_eq]
    exact Nat.succ_pos _
  obtain ⟨t, ht⟩ := outgoing?_isSome (a := a) hlength
  have hleaving : a.leaving? p (a.origin e) = some t := by
    rw [leaving?, hat]
    exact ht
  obtain ⟨u, htraverse, hle⟩ := hsettled.edges e he (by simp [hqueue]) t hleaving
  exact ⟨t, u, _, hstates ▸ ht, htraverse, finish_incoming hsettled (destination_lt hg he), hle⟩

/-- The result of an analysis of a graph that was built is a post-fixpoint, whichever way it goes,
whatever its settings and whatever it knows beforehand. -/
theorem runWithin_postFixpoint (laws : Domain.UpperBounds S) {nodes : List Node} {edges : List Edge}
    {entry exit : Nat} (hbuild : Graph.build nodes edges entry exit = .ok a.graph) {steps : Nat}
    (hrun : a.runWithin steps = some (.ok r)) : a.PostFixpoint r := by
  obtain ⟨hg, -⟩ := Graph.build_wired hbuild
  obtain ⟨p, hstage, hqueue, rfl⟩ := stage_of_runWithin hrun
  have hsettled := hstage.settled laws hg
  exact ⟨finish_length hsettled, finish_linked hsettled, finish_start hg hsettled hqueue,
    fun e he => finish_edges hg hsettled hqueue he⟩

/-- A loop that counts is widened and gives a post-fixpoint. -/
theorem counting_postFixpoint :
    ∃ r, Graph.build Graph.Counting.nodes Graph.Counting.edges 0 3 = .ok Graph.Counting.graph ∧
      (IntervalState.forward Graph.Counting.graph {} [Graph.Counting.counter]).runWithin 20 =
        some (.ok r) ∧
      (IntervalState.forward Graph.Counting.graph {} [Graph.Counting.counter]).PostFixpoint r := by
  have hends : ((IntervalState.forward Graph.Counting.graph {}
      [Graph.Counting.counter]).runWithin 20).any Except.isOk = true := by
    decide +kernel
  obtain ⟨outcome, hrun, hok⟩ := (Option.any_eq_true _ _).1 hends
  cases outcome with
  | error e => cases hok
  | ok r =>
      exact ⟨r, Graph.Counting.build_eq, hrun,
        runWithin_postFixpoint IntervalState.upperBounds Graph.Counting.build_eq hrun⟩

end Analysis

end FlowAnalysis
