import FlowAnalysis.Proofs.Analysis.Closure
import Mathlib.Algebra.BigOperators.Group.Finset.Piecewise
import Mathlib.Algebra.Order.BigOperators.Group.Finset
import Mathlib.Algebra.Order.Ring.Nat
import Mathlib.Data.Fintype.EquivFin
import Mathlib.Data.List.Chain

/-!
How long a run takes. A node gets into the queue because it is the start or because a node before it was
recomputed, so that visits are paid for by recomputations. If every cycle passes a loop head and loop
heads are recomputed boundedly often, then the same holds of every other node by induction along the
edges, and the run ends.
-/

namespace FlowAnalysis

open scoped BigOperators

theorem Progress.sum_enqueue_le (w : Nat → Nat) (queue nodes : List Nat) :
    ((enqueue queue nodes).map w).sum ≤ (queue.map w).sum + (nodes.map w).sum := by
  induction nodes generalizing queue with
  | nil => simp [enqueue]
  | cons n nodes ih =>
      rw [enqueue, List.map_cons, List.sum_cons]
      refine (ih _).trans ?_
      split
      · omega
      · rw [List.map_append, List.sum_append, List.map_singleton, List.sum_singleton]
        omega

namespace Graph

def Adjacent (g : Graph) (m n : Nat) : Prop := ∃ e ∈ g.edges, e.source = m ∧ e.target = n

/-- A walk along edges that leaves `first` and comes back to it through `rest`. -/
def Cycle (g : Graph) (first : Nat) (rest : List Nat) : Prop :=
  List.IsChain g.Adjacent (first :: (rest ++ [first]))

def CutAtLoops (g : Graph) : Prop :=
  ∀ first rest, g.Cycle first rest → ∃ h ∈ first :: rest, g.nodes[h]? = some .loop

/-- Every edge of the counting loop has the loop head at one end. -/
theorem Counting.cutAtLoops : Counting.graph.CutAtLoops := by
  have hends : ∀ e ∈ Counting.graph.edges, e.source = 1 ∨ e.target = 1 := by decide
  have hadjacent : ∀ {m n}, Counting.graph.Adjacent m n → m = 1 ∨ n = 1 := by
    rintro m n ⟨e, he, rfl, rfl⟩
    exact hends e he
  intro first rest hcycle
  cases rest with
  | nil =>
      have hfirst := hadjacent (List.isChain_cons_cons.1 hcycle).1
      exact ⟨first, List.mem_singleton_self _, by rw [or_self_iff.1 hfirst]; rfl⟩
  | cons second rest =>
      rcases hadjacent (List.isChain_cons_cons.1 hcycle).1 with rfl | rfl
      · exact ⟨1, by simp, rfl⟩
      · exact ⟨1, by simp, rfl⟩

end Graph

namespace Analysis

variable {S Pre : Type} {a : Analysis S Pre} {p p' : Progress S} {n : Nat}

/-- A recomputation of `n` counts once more what stands for `n`. -/
theorem sum_iterations_recorded (hn : n < a.graph.size) (hsize : p.stored.size = a.graph.size)
    (states : List S) (weight : Nat → Nat) :
    ∑ m ∈ Finset.range a.graph.size, (a.recorded p n states).iterations m * weight m =
      ∑ m ∈ Finset.range a.graph.size, p.iterations m * weight m + weight n := by
  have hterm : ∀ m, (a.recorded p n states).iterations m * weight m =
      p.iterations m * weight m + if m = n then weight m else 0 := by
    intro m
    rw [iterations_recorded a (hsize ▸ hn), Nat.add_mul]
    split <;> simp
  simp only [hterm, Finset.sum_add_distrib, Finset.sum_ite_eq', Finset.mem_range, hn, if_true]

variable [StateDomain S Pre]

/-- What visits spend is paid for by recomputations: whatever grows by at most the weight of a node
when the node is visited is bounded by the weights of the nodes that recomputations put into the
queue. -/
theorem Stage.spent_le (w : Nat → Nat) (spent : Progress S → Nat) (hbegin : spent a.begin = 0)
    (hvisit : ∀ {p p' : Progress S} {n : Nat} {rest : List Nat}, a.Stage p → p.queue = n :: rest →
      a.visit (p.taken rest) n = .ok p' → spent p' ≤ spent p + w n)
    (hstage : a.Stage p) :
    spent p + (p.queue.map w).sum ≤
      w a.start + ∑ m ∈ Finset.range a.graph.size, p.iterations m * ((a.behind m).map w).sum := by
  induction hstage with
  | begin =>
      rw [hbegin]
      simp [Analysis.begin]
  | @visit p p' n rest hstage hqueue hvisited ih =>
      have hspent := hvisit hstage hqueue hvisited
      rw [hqueue, List.map_cons, List.sum_cons] at ih
      cases visit_cases hvisited with
      | missing _ =>
          change spent (p.taken rest) + (rest.map w).sum ≤
            w a.start + ∑ m ∈ Finset.range a.graph.size, p.iterations m * ((a.behind m).map w).sum
          omega
      | stable _ _ _ =>
          change spent (p.taken rest) + (rest.map w).sum ≤
            w a.start + ∑ m ∈ Finset.range a.graph.size, p.iterations m * ((a.behind m).map w).sum
          omega
      | @recomputed node s states hnode _ _ _ _ =>
          have hn : n < a.graph.size := (Array.getElem?_eq_some_iff.1 hnode).1
          have hsize : (p.taken rest).stored.size = a.graph.size := hstage.size
          have henqueue := Progress.sum_enqueue_le w rest (a.behind n)
          rw [sum_iterations_recorded hn hsize]
          change spent (a.recorded (p.taken rest) n states) +
            ((Progress.enqueue rest (a.behind n)).map w).sum ≤ w a.start +
              (∑ m ∈ Finset.range a.graph.size, p.iterations m * ((a.behind m).map w).sum +
                ((a.behind n).map w).sum)
          omega

theorem visits_of_visit (hvisit : a.visit p n = .ok p') : p'.visits = p.visits := by
  cases visit_cases hvisit with
  | missing _ => rfl
  | stable _ _ _ => rfl
  | recomputed _ _ _ _ _ => rfl

/-- Nodes are visited at most once for the start and once for each edge that leaves a node, each time
that the node is recomputed; a node that waits will be visited. -/
theorem Stage.visits_le (hstage : a.Stage p) :
    p.visits + p.queue.length ≤
      1 + ∑ n ∈ Finset.range a.graph.size, p.iterations n * (a.behind n).length := by
  have hspent := hstage.spent_le (fun _ => 1) Progress.visits rfl fun _ _ hvisit =>
    (visits_of_visit hvisit).le
  simpa using hspent

theorem iterations_of_visit (hsize : p.stored.size = a.graph.size)
    (hvisit : a.visit p n = .ok p') (m : Nat) :
    p'.iterations m ≤ p.iterations m + if m = n then 1 else 0 := by
  cases visit_cases hvisit with
  | missing _ => exact Nat.le_add_right _ _
  | stable _ _ _ => exact Nat.le_add_right _ _
  | recomputed hnode _ _ _ _ =>
      exact (iterations_recorded a (hsize ▸ (Array.getElem?_eq_some_iff.1 hnode).1) _ m).le

/-- A node is recomputed at most once for being the start and once for each edge that leads to it,
each time that the node at its other end is recomputed. -/
theorem Stage.iterations_le (hstage : a.Stage p) (n : Nat) :
    p.iterations n ≤
      1 + ∑ m ∈ Finset.range a.graph.size, p.iterations m * (a.behind m).count n := by
  have hspent := hstage.spent_le (fun m => if n = m then 1 else 0) (fun p => p.iterations n)
    (by simp [Progress.iterations, begin_at?])
    fun {p _ _ rest} hstage _ hvisit =>
      iterations_of_visit (p := p.taken rest) hstage.size hvisit n
  have hcount : ∀ nodes : List Nat,
      (nodes.map fun m => if n = m then 1 else 0).sum = nodes.count n := by
    intro nodes
    induction nodes with
    | nil => rfl
    | cons m nodes ih =>
        rw [List.map_cons, List.sum_cons, ih, List.count_cons, Nat.add_comm]
        by_cases hm : n = m
        · simp [hm]
        · simp [hm, Ne.symm hm]
  simp only [hcount] at hspent
  have hstart : (if n = a.start then 1 else 0) ≤ 1 := by split <;> omega
  omega

/-! ### Bounds for all nodes -/

omit [StateDomain S Pre] in
/-- A walk in the direction of the analysis that comes back to its first node is a cycle of the graph,
if read the right way round. -/
theorem cycle_of_behind (hg : a.graph.Wired) {first : Nat} {rest : List Nat}
    (hwalk : List.IsChain (fun m n => n ∈ a.behind m) (first :: (rest ++ [first]))) :
    a.graph.Cycle first rest ∨ a.graph.Cycle first rest.reverse := by
  simp only [mem_behind hg, origin, destination] at hwalk
  cases hdirection : a.direction with
  | forward =>
      rw [hdirection] at hwalk
      exact Or.inl hwalk
  | backward =>
      rw [hdirection] at hwalk
      right
      have hreverse : first :: (rest.reverse ++ [first]) = (first :: (rest ++ [first])).reverse := by
        simp
      rw [Graph.Cycle, hreverse, List.isChain_reverse]
      refine hwalk.imp ?_
      rintro m n ⟨e, he, htarget, hsource⟩
      exact ⟨e, he, hsource, htarget⟩

/-- `n` is behind `m` and is not a loop head. -/
def PlainlyBehind (a : Analysis S Pre) (m n : Nat) : Prop :=
  n ∈ a.behind m ∧ a.graph.nodes[n]? ≠ some .loop

omit [StateDomain S Pre] in
theorem exists_walk_of_plainlyBehind {m : Nat} (hpath : Relation.TransGen a.PlainlyBehind m n) :
    ∃ between, List.IsChain (fun m n => n ∈ a.behind m) (m :: (between ++ [n])) ∧
      ∀ k ∈ between ++ [n], a.graph.nodes[k]? ≠ some .loop := by
  induction hpath using Relation.TransGen.head_induction_on with
  | single hstep => exact ⟨[], by simpa using hstep.1, by simpa using hstep.2⟩
  | @head m k hstep _ ih =>
      obtain ⟨between, hwalk, hplain⟩ := ih
      refine ⟨k :: between, List.isChain_cons_cons.2 ⟨hstep.1, hwalk⟩, ?_⟩
      intro j hj
      rcases List.mem_cons.1 hj with rfl | hj
      · exact hstep.2
      · exact hplain j hj

omit [StateDomain S Pre] in
theorem not_plainlyBehind_self (hg : a.graph.Wired) (hcut : a.graph.CutAtLoops) :
    ¬ Relation.TransGen a.PlainlyBehind n n := by
  intro hpath
  obtain ⟨between, hwalk, hplain⟩ := exists_walk_of_plainlyBehind hpath
  obtain ⟨h, hmem, hloop⟩ : ∃ h ∈ n :: between, a.graph.nodes[h]? = some .loop := by
    rcases cycle_of_behind hg hwalk with hcycle | hcycle
    · exact hcut n between hcycle
    · obtain ⟨h, hmem, hloop⟩ := hcut n between.reverse hcycle
      exact ⟨h, by simpa using hmem, hloop⟩
  refine hplain h ?_ hloop
  rcases List.mem_cons.1 hmem with rfl | hmem
  · exact List.mem_append_right _ (List.mem_singleton_self _)
  · exact List.mem_append_left _ hmem

omit [StateDomain S Pre] in
/-- Without a loop head no walk comes back, so the nodes that are not loop heads can be taken in order. -/
theorem wellFounded_plainlyBehind (hg : a.graph.Wired) (hcut : a.graph.CutAtLoops) :
    WellFounded (InvImage (Relation.TransGen a.PlainlyBehind) (Fin.val (n := a.graph.size))) := by
  have htrans : IsTrans (Fin a.graph.size) (InvImage (Relation.TransGen a.PlainlyBehind) Fin.val) :=
    ⟨fun _ _ _ hij hjk => Relation.TransGen.trans hij hjk⟩
  have hirrefl : Std.Irrefl (InvImage (Relation.TransGen a.PlainlyBehind) (Fin.val (n := a.graph.size))) :=
    ⟨fun _ => not_plainlyBehind_self hg hcut⟩
  exact Finite.wellFounded_of_trans_of_irrefl _

/-- If loop heads are recomputed boundedly often and cut every cycle, every node is recomputed
boundedly often. -/
theorem exists_iterations_le (hg : a.graph.Wired) (hcut : a.graph.CutAtLoops)
    (hloops : ∀ h, a.graph.nodes[h]? = some .loop → ∃ bound, ∀ p, a.Stage p → p.iterations h ≤ bound)
    (hn : n < a.graph.size) : ∃ bound, ∀ p, a.Stage p → p.iterations n ≤ bound := by
  suffices hall : ∀ i : Fin a.graph.size, ∃ bound, ∀ p, a.Stage p → p.iterations i ≤ bound from
    hall ⟨n, hn⟩
  intro i
  induction i using (wellFounded_plainlyBehind hg hcut).induction with
  | _ i ih =>
      by_cases hloop : a.graph.nodes[(i : Nat)]? = some .loop
      · exact hloops i hloop
      · have hterm : ∀ m : Nat, ∃ bound, m < a.graph.size → ∀ p, a.Stage p →
            p.iterations m * (a.behind m).count i.1 ≤ bound := by
          intro m
          by_cases hm : m < a.graph.size ∧ i.1 ∈ a.behind m
          · obtain ⟨bound, hbound⟩ := ih ⟨m, hm.1⟩ (.single ⟨hm.2, hloop⟩)
            exact ⟨bound * (a.behind m).count i.1, fun _ p hp => Nat.mul_le_mul_right _ (hbound p hp)⟩
          · refine ⟨0, fun hlt p _ => ?_⟩
            rw [List.count_eq_zero.2 fun hmem => hm ⟨hlt, hmem⟩, Nat.mul_zero]
        choose bound hbound using hterm
        refine ⟨1 + ∑ m ∈ Finset.range a.graph.size, bound m, fun p hp => ?_⟩
        refine (hp.iterations_le i).trans (Nat.add_le_add_left (Finset.sum_le_sum ?_) 1)
        intro m hm
        exact hbound m (Finset.mem_range.1 hm) p hp

/-- If every node is recomputed boundedly often, boundedly many nodes are visited. -/
theorem exists_visits_le
    (hnodes : ∀ n, n < a.graph.size → ∃ bound, ∀ p, a.Stage p → p.iterations n ≤ bound) :
    ∃ bound, ∀ p, a.Stage p → p.visits + p.queue.length ≤ bound := by
  choose! bound hbound using hnodes
  refine ⟨1 + ∑ n ∈ Finset.range a.graph.size, bound n * (a.behind n).length, fun p hp => ?_⟩
  refine hp.visits_le.trans (Nat.add_le_add_left (Finset.sum_le_sum ?_) 1)
  intro n hn
  exact Nat.mul_le_mul_right _ (hbound n (Finset.mem_range.1 hn) p hp)

/-! ### The end of a run -/

theorem iterate_ends {bound : Nat}
    (hbound : ∀ p, a.Stage p → p.visits + p.queue.length ≤ bound) {steps : Nat}
    (hstage : a.Stage p) (hsteps : bound ≤ p.visits + steps) :
    ∃ outcome, a.iterate (steps + 1) p = some outcome := by
  induction steps generalizing p with
  | zero =>
      have hvisits := hbound p hstage
      have hqueue : p.queue = [] := List.length_eq_zero_iff.1 (by omega)
      exact ⟨.ok p, by rw [iterate, hqueue]; rfl⟩
  | succ steps ih =>
      rw [iterate]
      split
      · exact ⟨_, rfl⟩
      · rename_i n rest hqueue
        split
        · exact ⟨_, rfl⟩
        · rename_i p' hvisit
          have hvisits : p'.visits = p.visits + 1 := visits_of_visit hvisit
          exact ih (hstage.visit hqueue hvisit) (by omega)

/-- A run fails only with an error of the domain or because the cap on iterations is passed. -/
theorem iterate_error {E : AnalysisError → Prop} {P : S → Prop} (h : StateDomain.Closed E P)
    (hinitial : P a.initial) {steps : Nat} {e : AnalysisError} (hstage : a.Stage p)
    (hrun : a.iterate steps p = some (.error e)) :
    E e ∨ a.settings.maxIterations ≠ none ∧ ∃ n k, e = .notConverged n k := by
  induction steps generalizing p with
  | zero => cases hrun
  | succ steps ih =>
      rw [iterate] at hrun
      split at hrun
      · cases hrun
      · rename_i n rest hqueue
        split at hrun
        · rename_i e' hvisit
          obtain rfl : e' = e := by simpa using hrun
          have hstored := hstage.stored h hinitial
          rcases visit_error (p := p.taken rest) h hinitial hstored hvisit with herror | ⟨hcap, herror⟩
          · exact Or.inl herror
          · exact Or.inr ⟨fun hnone => by simp [exceeds, hnone] at hcap, _, _, herror⟩
        · rename_i p' hvisit
          exact ih (hstage.visit hqueue hvisit) hrun

/-- A run of which the loop heads are recomputed boundedly often and cut every cycle ends, and fails
for what a statement means only. -/
theorem exists_runWithin {P : S → Prop} (h : StateDomain.Closed AnalysisError.IsSemantic P)
    (hinitial : P a.initial) (hg : a.graph.Wired) (hcut : a.graph.CutAtLoops)
    (hcap : a.settings.maxIterations = none)
    (hloops : ∀ h, a.graph.nodes[h]? = some .loop →
      ∃ bound, ∀ p, a.Stage p → p.iterations h ≤ bound) :
    ∃ steps outcome, a.runWithin steps = some outcome ∧ ∀ e, outcome = .error e → e.IsSemantic := by
  obtain ⟨bound, hbound⟩ := exists_visits_le fun n hn => exists_iterations_le hg hcut hloops hn
  obtain ⟨outcome, hrun⟩ := iterate_ends hbound .begin (Nat.le_add_left bound a.begin.visits)
  refine ⟨bound + 1, outcome.map a.finish, by rw [runWithin, hrun]; rfl, ?_⟩
  intro e herror
  cases outcome with
  | ok q => cases herror
  | error e' =>
      obtain rfl : e' = e := by simpa [Except.map] using herror
      exact (iterate_error h hinitial .begin hrun).resolve_right fun hcapped => hcapped.1 hcap

end Analysis

end FlowAnalysis
