import FlowAnalysis.Analysis.Fixpoint
import FlowAnalysis.Proofs.Graph

/-!
The stages of a run. A run takes one node after another from its queue, and what it knows between two
visits is a stage. Here stands once what a visit can do: leave everything as it is, or store new
states for its node and put the nodes behind it into the queue. Whatever holds at the beginning and
is kept by a visit holds at every stage, so in particular where a run ends.
-/

namespace FlowAnalysis

namespace Progress

variable {S : Type}

/-- What is known when a node has been taken from the queue and `rest` is left of it. -/
def taken (p : Progress S) (rest : List Nat) : Progress S :=
  { p with queue := rest, visits := p.visits + 1 }

theorem mem_enqueue {queue nodes : List Nat} {n : Nat} :
    n ∈ enqueue queue nodes ↔ n ∈ queue ∨ n ∈ nodes := by
  induction nodes generalizing queue with
  | nil => simp [enqueue]
  | cons m nodes ih =>
      rw [enqueue, ih, List.mem_cons]
      by_cases hm : m ∈ queue
      · rw [if_pos hm]
        constructor
        · rintro (h | h)
          · exact Or.inl h
          · exact Or.inr (Or.inr h)
        · rintro (h | rfl | h)
          · exact Or.inl h
          · exact Or.inl hm
          · exact Or.inr h
      · rw [if_neg hm, List.mem_append, List.mem_singleton, or_assoc]

end Progress

namespace Analysis

variable {S Pre : Type}

/-- The node at the far end of an edge, where a state that is carried over it arrives. -/
def destination (a : Analysis S Pre) (e : Edge) : Nat :=
  match a.direction with
  | .forward => e.target
  | .backward => e.source

section Wiring

variable {a : Analysis S Pre} {e : Edge} {n : Nat}

theorem start_lt (hg : a.graph.Wired) : a.start < a.graph.size := by
  unfold start
  split
  · exact hg.entry_lt
  · exact hg.exit_lt

theorem destination_lt (hg : a.graph.Wired) (he : e ∈ a.graph.edges) :
    a.destination e < a.graph.size := by
  unfold destination
  split
  · exact hg.target_lt e he
  · exact hg.source_lt e he

theorem mem_arriving (hg : a.graph.Wired) :
    e ∈ a.arriving n ↔ e ∈ a.graph.edges ∧ a.destination e = n := by
  unfold arriving destination
  cases a.direction with
  | forward => exact hg.mem_inEdges
  | backward => exact hg.mem_outEdges

theorem mem_behind (hg : a.graph.Wired) {m : Nat} :
    m ∈ a.behind n ↔ ∃ e ∈ a.graph.edges, a.origin e = n ∧ a.destination e = m := by
  unfold behind origin destination
  cases a.direction with
  | forward =>
      simp only [Graph.successors, List.mem_map, hg.mem_outEdges, and_assoc]
  | backward =>
      simp only [Graph.predecessors, List.mem_map, hg.mem_inEdges, and_assoc]

end Wiring

/-- What is known after new states were stored for a node. -/
def recorded (a : Analysis S Pre) (p : Progress S) (n : Nat) (states : List S) : Progress S :=
  { p with
    stored := p.stored.setIfInBounds n (some ⟨states, p.iterations n + 1⟩)
    queue := Progress.enqueue p.queue (a.behind n) }

theorem at?_recorded (a : Analysis S Pre) {p : Progress S} {n : Nat} (hn : n < p.stored.size)
    (states : List S) (m : Nat) :
    (a.recorded p n states).at? m =
      if m = n then some ⟨states, p.iterations n + 1⟩ else p.at? m := by
  unfold recorded Progress.at?
  by_cases hm : m = n
  · subst hm
    simp [hn]
  · simp [hm, Ne.symm hm]

theorem iterations_recorded (a : Analysis S Pre) {p : Progress S} {n : Nat}
    (hn : n < p.stored.size) (states : List S) (m : Nat) :
    (a.recorded p n states).iterations m = p.iterations m + if m = n then 1 else 0 := by
  rw [Progress.iterations, at?_recorded a hn]
  by_cases hm : m = n
  · subst hm
    simp
  · simp [hm, Progress.iterations]

/-- The state with which a computed node is left. -/
def leaving? (a : Analysis S Pre) (p : Progress S) (n : Nat) : Option S :=
  (p.at? n).bind fun r => a.outgoing? r.states

theorem leaving?_recorded_of_ne {a : Analysis S Pre} {p : Progress S} {n m : Nat}
    (hn : n < p.stored.size) (hm : m ≠ n) (states : List S) :
    a.leaving? (a.recorded p n states) m = a.leaving? p m := by
  rw [leaving?, at?_recorded a hn, if_neg hm, leaving?]

theorem outgoing?_isSome {a : Analysis S Pre} {states : List S} (hlength : 0 < states.length) :
    ∃ t, a.outgoing? states = some t := by
  have hne : states ≠ [] := List.ne_nil_of_length_pos hlength
  unfold outgoing?
  split
  · exact ⟨_, List.getLast?_eq_some_getLast hne⟩
  · exact ⟨_, List.head?_eq_some_head hne⟩

theorem record_cases {a : Analysis S Pre} {p p' : Progress S} {n : Nat} {states : List S}
    (hrecord : a.record p n states = .ok p') :
    a.exceeds (p.iterations n + 1) = false ∧ p' = a.recorded p n states := by
  dsimp only [record] at hrecord
  split at hrecord
  · exact absurd hrecord throw_ne_ok
  · rename_i hcap
    exact ⟨Bool.eq_false_iff.2 hcap, (pure_eq_ok.1 hrecord).symm⟩

theorem begin_at? (a : Analysis S Pre) (n : Nat) : a.begin.at? n = none := by
  unfold begin Progress.at?
  rw [Array.getElem?_replicate]
  split <;> rfl

variable [StateDomain S Pre]

/-- What a visit of `n` does to the stage `p`. -/
inductive Visited (a : Analysis S Pre) (p : Progress S) (n : Nat) : Progress S → Prop where
  /-- There is no such node. -/
  | missing (hnode : a.graph.nodes[n]? = none) : Visited a p n p
  /-- The state with which the node is entered is covered already. -/
  | stable {node : Node} {s : S} (hnode : a.graph.nodes[n]? = some node)
      (henter : a.entering p n node = .ok s) (hle : Domain.le s (a.previous p n) = true) :
      Visited a p n p
  /-- The statements of the node are executed anew. -/
  | recomputed {node : Node} {s : S} {states : List S} (hnode : a.graph.nodes[n]? = some node)
      (henter : a.entering p n node = .ok s) (hle : Domain.le s (a.previous p n) = false)
      (hexecute : a.execute n s = .ok states) (hcap : a.exceeds (p.iterations n + 1) = false) :
      Visited a p n (a.recorded p n states)

theorem visit_cases {a : Analysis S Pre} {p p' : Progress S} {n : Nat}
    (hvisit : a.visit p n = .ok p') : a.Visited p n p' := by
  unfold visit at hvisit
  split at hvisit
  · rename_i hnode
    obtain rfl := pure_eq_ok.1 hvisit
    exact .missing hnode
  · rename_i node hnode
    obtain ⟨s, henter, hvisit⟩ := bind_eq_ok.1 hvisit
    split at hvisit
    · rename_i hle
      obtain rfl := pure_eq_ok.1 hvisit
      exact .stable hnode henter hle
    · rename_i hle
      obtain ⟨states, hexecute, hrecord⟩ := bind_eq_ok.1 hvisit
      obtain ⟨hcap, rfl⟩ := record_cases hrecord
      exact .recomputed hnode henter (Bool.eq_false_iff.2 hle) hexecute hcap

/-- The stages that a run passes through. -/
inductive Stage (a : Analysis S Pre) : Progress S → Prop where
  | begin : Stage a a.begin
  | visit {p p' : Progress S} {n : Nat} {rest : List Nat} (hstage : Stage a p)
      (hqueue : p.queue = n :: rest) (hvisit : a.visit (p.taken rest) n = .ok p') : Stage a p'

theorem Stage.size {a : Analysis S Pre} {p : Progress S} (hstage : a.Stage p) :
    p.stored.size = a.graph.size := by
  induction hstage with
  | begin => simp [Analysis.begin]
  | visit _ _ hvisit ih =>
      cases visit_cases hvisit with
      | missing _ => exact ih
      | stable _ _ _ => exact ih
      | recomputed _ _ _ _ _ =>
          rw [recorded, Array.size_setIfInBounds]
          exact ih

/-- A run that ends without an error ends at a stage where no node waits. -/
theorem stage_of_iterate {a : Analysis S Pre} {steps : Nat} {p q : Progress S}
    (hstage : a.Stage p) (hrun : a.iterate steps p = some (.ok q)) : a.Stage q ∧ q.queue = [] := by
  induction steps generalizing p with
  | zero => cases hrun
  | succ steps ih =>
      unfold iterate at hrun
      split at hrun
      · rename_i hqueue
        cases hrun
        exact ⟨hstage, hqueue⟩
      · rename_i n rest hqueue
        split at hrun
        · cases hrun
        · rename_i p' hvisit
          exact ih (hstage.visit hqueue hvisit) hrun

/-- A result comes from a stage where no node waits. -/
theorem stage_of_runWithin {a : Analysis S Pre} {steps : Nat} {r : AnalysisResult S}
    (hrun : a.runWithin steps = some (.ok r)) :
    ∃ p, a.Stage p ∧ p.queue = [] ∧ r = a.finish p := by
  unfold runWithin at hrun
  obtain ⟨outcome, hiterate, houtcome⟩ := Option.map_eq_some_iff.1 hrun
  obtain ⟨p, rfl, hfinish⟩ := map_eq_ok.1 houtcome
  obtain ⟨hstage, hqueue⟩ := stage_of_iterate .begin hiterate
  exact ⟨p, hstage, hqueue, hfinish.symm⟩

section Finish

variable {a : Analysis S Pre} {p : Progress S} {n : Nat}

theorem finish_statesAt {node : Node} (hnode : a.graph.nodes[n]? = some node) :
    (a.finish p).statesAt n = ((p.at? n).getD (a.untouched node)).states := by
  simp [AnalysisResult.statesAt, finish, hnode]

theorem finish_iterations (hn : n < a.graph.size) :
    (a.finish p).iterations n = p.iterations n := by
  obtain ⟨node, hnode⟩ : ∃ node, a.graph.nodes[n]? = some node :=
    ⟨_, Array.getElem?_eq_getElem hn⟩
  cases hat : p.at? n with
  | none => simp [AnalysisResult.iterations, finish, hnode, Progress.iterations, hat, untouched]
  | some r => simp [AnalysisResult.iterations, finish, hnode, Progress.iterations, hat]

theorem lt_of_finish_iterations_pos (hcount : 0 < (a.finish p).iterations n) :
    n < a.graph.size := by
  apply Nat.lt_of_not_le
  intro hn
  simp [AnalysisResult.iterations, finish, Array.getElem?_eq_none hn] at hcount

end Finish

end Analysis

end FlowAnalysis
