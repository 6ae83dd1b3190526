import FlowAnalysis.Graph
import FlowAnalysis.Proofs.Outcome

/-!
Graphs that were built. The two tables of edges say the same as the list of edges: an edge stands at
its source among those that leave and at its target among those that arrive, in the order in which
the edges were added, and both ends of every edge are nodes. Building succeeds exactly if the ends of
the graph exist and its edges are simple, and otherwise fails with the first fault: a missing entry, a
missing exit, or the fault of the first edge that has one.
-/

namespace FlowAnalysis

/-- The nodes that an edge joins. -/
def Edge.ends (e : Edge) : Nat × Nat := (e.source, e.target)

/-- What is wrong with an edge behind others: a node that it joins does not exist, or one of the others
joins the same nodes in the same direction. -/
def Edge.fault? (size : Nat) (earlier : List Edge) (e : Edge) : Option GraphError :=
  if size ≤ e.source ∨ size ≤ e.target then some (.unknownNode e.source e.target)
  else if e.ends ∈ earlier.map Edge.ends then some (.duplicateEdge e.source e.target)
  else none

namespace Graph

/-- The tables of a graph agree with its edges, and its ends and those of its edges exist. -/
structure Wired (g : Graph) : Prop where
  entry_lt : g.entry < g.size
  exit_lt : g.exit < g.size
  source_lt : ∀ e ∈ g.edges, e.source < g.size
  target_lt : ∀ e ∈ g.edges, e.target < g.size
  outgoing_size : g.outgoing.size = g.size
  incoming_size : g.incoming.size = g.size
  outEdges_eq : ∀ n, g.outEdges n = g.edges.filter fun e => e.source = n
  inEdges_eq : ∀ n, g.inEdges n = g.edges.filter fun e => e.target = n

theorem getD_replicate_nil (size n : Nat) :
    (Array.replicate size ([] : List Edge)).getD n [] = [] := by
  rw [Array.getD_eq_getD_getElem?, Array.getElem?_replicate]
  split <;> rfl

theorem ofNodes_wired {nodes : List Node} {entry exit : Nat} (hentry : entry < nodes.length)
    (hexit : exit < nodes.length) : (ofNodes nodes entry exit).Wired where
  entry_lt := by simpa [size, ofNodes] using hentry
  exit_lt := by simpa [size, ofNodes] using hexit
  source_lt := by simp [ofNodes]
  target_lt := by simp [ofNodes]
  outgoing_size := by simp [size, ofNodes]
  incoming_size := by simp [size, ofNodes]
  outEdges_eq n := getD_replicate_nil _ n
  inEdges_eq n := getD_replicate_nil _ n

/-- A table entry after an edge was put behind the edges of node `k`. -/
theorem getD_modify_append (table : Array (List Edge)) (k n : Nat) (e : Edge)
    (hk : k < table.size) :
    (table.modify k (· ++ [e])).getD n [] =
      table.getD n [] ++ (if k = n then [e] else []) := by
  rw [Array.getD_eq_getD_getElem?, Array.getD_eq_getD_getElem?, Array.getElem?_modify]
  by_cases hn : k = n
  · subst hn
    simp [hk]
  · simp [hn]

theorem addEdge_cases {g h : Graph} {e : Edge} (hadd : g.addEdge e = .ok h) :
    e.source < g.size ∧ e.target < g.size ∧
      h = { g with
        edges := g.edges ++ [e]
        outgoing := g.outgoing.modify e.source (· ++ [e])
        incoming := g.incoming.modify e.target (· ++ [e]) } := by
  unfold addEdge at hadd
  split at hadd
  · exact absurd hadd throw_ne_ok
  · rename_i hends
    split at hadd
    · exact absurd hadd throw_ne_ok
    · simp only [Bool.or_eq_true, decide_eq_true_eq, not_or, Nat.not_le] at hends
      exact ⟨hends.1, hends.2, (pure_eq_ok.1 hadd).symm⟩

theorem addEdge_wired {g h : Graph} {e : Edge} (hg : g.Wired) (hadd : g.addEdge e = .ok h) :
    h.Wired := by
  obtain ⟨hsource, htarget, rfl⟩ := addEdge_cases hadd
  have hmem : ∀ f ∈ g.edges ++ [e], f ∈ g.edges ∨ f = e := by simp
  refine ⟨hg.entry_lt, hg.exit_lt, ?_, ?_, ?_, ?_, ?_, ?_⟩
  · intro f hf
    rcases hmem f hf with hf | rfl
    · exact hg.source_lt f hf
    · exact hsource
  · intro f hf
    rcases hmem f hf with hf | rfl
    · exact hg.target_lt f hf
    · exact htarget
  · simpa [size] using hg.outgoing_size
  · simpa [size] using hg.incoming_size
  · intro n
    have hrest := hg.outEdges_eq n
    rw [outEdges] at hrest ⊢
    rw [getD_modify_append _ _ _ _ (hg.outgoing_size ▸ hsource), hrest, List.filter_append]
    by_cases hn : e.source = n <;> simp [hn]
  · intro n
    have hrest := hg.inEdges_eq n
    rw [inEdges] at hrest ⊢
    rw [getD_modify_append _ _ _ _ (hg.incoming_size ▸ htarget), hrest, List.filter_append]
    by_cases hn : e.target = n <;> simp [hn]

/-- Adding edges one after another keeps the nodes and the ends. -/
theorem addEdges_wired {edges : List Edge} {g h : Graph} (hg : g.Wired)
    (hadd : edges.foldlM addEdge g = .ok h) :
    h.Wired ∧ h.nodes = g.nodes ∧ h.edges = g.edges ++ edges ∧ h.entry = g.entry ∧
      h.exit = g.exit := by
  induction edges generalizing g with
  | nil =>
      obtain rfl := pure_eq_ok.1 hadd
      exact ⟨hg, rfl, (List.append_nil _).symm, rfl, rfl⟩
  | cons e edges ih =>
      rw [List.foldlM_cons] at hadd
      obtain ⟨g', hfirst, hrest⟩ := bind_eq_ok.1 hadd
      obtain ⟨hwired, hnodes, hedges, hentry, hexit⟩ := ih (addEdge_wired hg hfirst) hrest
      obtain ⟨-, -, rfl⟩ := addEdge_cases hfirst
      refine ⟨hwired, hnodes, ?_, hentry, hexit⟩
      rw [hedges, List.append_assoc]
      rfl

/-- A graph that was built has the given nodes, edges and ends, and its tables agree with them. -/
theorem build_wired {nodes : List Node} {edges : List Edge} {entry exit : Nat} {g : Graph}
    (hbuild : build nodes edges entry exit = .ok g) :
    g.Wired ∧ g.nodes = nodes.toArray ∧ g.edges = edges ∧ g.entry = entry ∧ g.exit = exit := by
  unfold build at hbuild
  split at hbuild
  · exact absurd hbuild throw_ne_ok
  · split at hbuild
    · exact absurd hbuild throw_ne_ok
    · rename_i hentry hexit
      exact addEdges_wired (ofNodes_wired (Nat.not_le.1 hentry) (Nat.not_le.1 hexit)) hbuild

variable {g : Graph} {e : Edge} {n : Nat}

theorem Wired.mem_inEdges (hg : g.Wired) : e ∈ g.inEdges n ↔ e ∈ g.edges ∧ e.target = n := by
  rw [hg.inEdges_eq, List.mem_filter, decide_eq_true_iff]

theorem Wired.mem_outEdges (hg : g.Wired) : e ∈ g.outEdges n ↔ e ∈ g.edges ∧ e.source = n := by
  rw [hg.outEdges_eq, List.mem_filter, decide_eq_true_iff]

theorem statementsAt_eq {node : Node} (hnode : g.nodes[n]? = some node) :
    g.statementsAt n = node.statements := by
  rw [statementsAt, hnode]
  rfl

/-- Every variable of a statement or of a guard is one of the graph. -/
theorem mem_vars {statement : Stmt} (h : statement ∈ g.statements) :
    ∀ x ∈ statement.occurrences, x ∈ g.vars :=
  fun _ hx => OrderedSet.mem_ofList.2 (List.mem_flatMap.2 ⟨statement, h, hx⟩)

theorem mem_statements_of_mem_statementsAt {statement : Stmt}
    (h : statement ∈ g.statementsAt n) : statement ∈ g.statements := by
  unfold statementsAt at h
  cases hnode : g.nodes[n]? with
  | none => simp [hnode] at h
  | some node =>
      rw [hnode] at h
      refine List.mem_append_left _ (List.mem_flatMap.2 ⟨node, ?_, h⟩)
      exact Array.mem_toList_iff.2 (Array.mem_of_getElem? hnode)

theorem mem_statements_of_guard (he : e ∈ g.edges) {guard : Stmt}
    (h : e.guard = some guard) : guard ∈ g.statements :=
  List.mem_append_right _ (List.mem_filterMap.2 ⟨e, he, h⟩)

/-! ### What building checks -/

/-- Edges between existing nodes, of which no two join the same nodes in the same direction. -/
structure Simple (size : Nat) (edges : List Edge) : Prop where
  source_lt : ∀ e ∈ edges, e.source < size
  target_lt : ∀ e ∈ edges, e.target < size
  nodup_ends : (edges.map Edge.ends).Nodup

section Checks

variable {size : Nat} {edges earlier later : List Edge} {error : GraphError}

theorem simple_nil : Simple size [] := ⟨by simp, by simp, List.nodup_nil⟩

theorem Simple.of_append (h : Simple size (earlier ++ later)) : Simple size earlier where
  source_lt f hf := h.source_lt f (List.mem_append_left _ hf)
  target_lt f hf := h.target_lt f (List.mem_append_left _ hf)
  nodup_ends := by
    have hnodup := h.nodup_ends
    rw [List.map_append] at hnodup
    exact (List.nodup_append.1 hnodup).1

theorem fault?_eq_none_iff : e.fault? size earlier = none ↔
    (e.source < size ∧ e.target < size) ∧ e.ends ∉ earlier.map Edge.ends := by
  unfold Edge.fault?
  split
  · exact iff_of_false (Option.some_ne_none _) fun h => by omega
  · have hlt : e.source < size ∧ e.target < size := by omega
    split
    · rename_i hmem
      exact iff_of_false (Option.some_ne_none _) fun h => h.2 hmem
    · rename_i hmem
      exact iff_of_true rfl ⟨hlt, hmem⟩

theorem simple_concat_iff :
    Simple size (earlier ++ [e]) ↔ Simple size earlier ∧ e.fault? size earlier = none := by
  rw [fault?_eq_none_iff]
  constructor
  · intro h
    refine ⟨h.of_append, ⟨h.source_lt e (by simp), h.target_lt e (by simp)⟩, fun hmem => ?_⟩
    have hnodup := h.nodup_ends
    rw [List.map_append, List.nodup_append] at hnodup
    exact hnodup.2.2 e.ends hmem e.ends (by simp) rfl
  · rintro ⟨⟨hsource, htarget, hnodup⟩, ⟨hs, ht⟩, hfresh⟩
    refine ⟨List.forall_mem_append.2 ⟨hsource, by simpa using hs⟩,
      List.forall_mem_append.2 ⟨htarget, by simpa using ht⟩, ?_⟩
    rw [List.map_append, List.nodup_append]
    refine ⟨hnodup, by simp, fun x hx y hy hxy => hfresh ?_⟩
    rw [List.map_singleton, List.mem_singleton] at hy
    exact hy ▸ hxy ▸ hx

/-- Adding an edge fails with the fault that it has behind the edges that are there. -/
theorem addEdge_eq_error_iff : g.addEdge e = .error error ↔ e.fault? g.size g.edges = some error := by
  have hrepeated : (g.edges.any fun f => f.source == e.source && f.target == e.target) = true ↔
      e.ends ∈ g.edges.map Edge.ends := by
    rw [List.any_eq_true, List.mem_map]
    exact exists_congr fun f => and_congr_right fun _ => by simp [Edge.ends]
  unfold addEdge Edge.fault?
  simp only [Bool.or_eq_true, decide_eq_true_eq, hrepeated]
  split
  · rw [throw_eq_error, Option.some.injEq]
  · split
    · rw [throw_eq_error, Option.some.injEq]
    · exact iff_of_false pure_ne_error (Option.some_ne_none _).symm

theorem exists_addEdge_iff : (∃ h, g.addEdge e = .ok h) ↔ e.fault? g.size g.edges = none := by
  cases hadd : g.addEdge e with
  | error error => simp [addEdge_eq_error_iff.1 hadd]
  | ok h =>
      refine iff_of_true ⟨h, rfl⟩ ?_
      rw [Option.eq_none_iff_forall_ne_some]
      intro error hfault
      rw [addEdge_eq_error_iff.2 hfault] at hadd
      cases hadd

/-- Edges are added up to the first one with a fault, which is the error. -/
theorem addEdges_eq_error_iff (hg : Simple g.size g.edges) :
    edges.foldlM addEdge g = .error error ↔ ∃ before e after, edges = before ++ e :: after ∧
      Simple g.size (g.edges ++ before) ∧ e.fault? g.size (g.edges ++ before) = some error := by
  induction edges generalizing g with
  | nil => exact iff_of_false pure_ne_error (by simp)
  | cons f edges ih =>
      rw [List.foldlM_cons, bind_eq_error]
      constructor
      · rintro (hfirst | ⟨g', hfirst, hrest⟩)
        · refine ⟨[], f, edges, rfl, ?_, ?_⟩
          · rwa [List.append_nil]
          · rw [List.append_nil]
            exact addEdge_eq_error_iff.1 hfirst
        · have hg' := simple_concat_iff.2 ⟨hg, exists_addEdge_iff.1 ⟨g', hfirst⟩⟩
          obtain ⟨-, -, rfl⟩ := addEdge_cases hfirst
          obtain ⟨before, e, after, rfl, hsimple, hfault⟩ := (ih hg').1 hrest
          refine ⟨f :: before, e, after, rfl, ?_, ?_⟩
          · rwa [List.append_cons]
          · rwa [List.append_cons]
      · rintro ⟨before, e, after, hsplit, hsimple, hfault⟩
        cases before with
        | nil =>
            rw [List.append_nil] at hfault
            obtain ⟨rfl, -⟩ := List.cons.inj hsplit
            exact Or.inl (addEdge_eq_error_iff.2 hfault)
        | cons f' before =>
            obtain ⟨rfl, rfl⟩ := List.cons.inj hsplit
            rw [List.append_cons] at hsimple hfault
            obtain ⟨g', hfirst⟩ := exists_addEdge_iff.2 (simple_concat_iff.1 hsimple.of_append).2
            refine Or.inr ⟨g', hfirst, ?_⟩
            obtain ⟨-, -, rfl⟩ := addEdge_cases hfirst
            exact (ih hsimple.of_append).2 ⟨before, e, after, rfl, hsimple, hfault⟩

theorem exists_addEdges_iff (hg : Simple g.size g.edges) :
    (∃ h, edges.foldlM addEdge g = .ok h) ↔ Simple g.size (g.edges ++ edges) := by
  induction edges generalizing g with
  | nil =>
      rw [List.append_nil]
      exact iff_of_true ⟨g, rfl⟩ hg
  | cons e edges ih =>
      rw [List.append_cons]
      constructor
      · rintro ⟨h, hadd⟩
        obtain ⟨g', hfirst, hrest⟩ := bind_eq_ok.1 hadd
        have hg' := simple_concat_iff.2 ⟨hg, exists_addEdge_iff.1 ⟨g', hfirst⟩⟩
        obtain ⟨-, -, rfl⟩ := addEdge_cases hfirst
        exact (ih hg').1 ⟨h, hrest⟩
      · intro hsimple
        obtain ⟨g', hfirst⟩ := exists_addEdge_iff.2 (simple_concat_iff.1 hsimple.of_append).2
        have hg' := hsimple.of_append
        rw [List.foldlM_cons, hfirst]
        obtain ⟨-, -, rfl⟩ := addEdge_cases hfirst
        exact (ih hg').2 hsimple

/-- Edges that agree in one end differ in the other. -/
theorem Simple.nodup_map (h : Simple size edges) {shared other : Edge → Nat}
    (hends : ∀ e f, shared e = shared f → other e = other f → e.ends = f.ends) (n : Nat) :
    ((edges.filter fun e => shared e = n).map other).Nodup := by
  have hpairs : edges.Pairwise fun e f => e.ends ≠ f.ends := List.pairwise_map.1 h.nodup_ends
  refine List.pairwise_map.2 ((hpairs.filter _).imp_of_mem fun {e f} he hf hne hother => ?_)
  have he : shared e = n := of_decide_eq_true (List.mem_filter.1 he).2
  have hf : shared f = n := of_decide_eq_true (List.mem_filter.1 hf).2
  exact hne (hends e f (he.trans hf.symm) hother)

end Checks

theorem build_eq_of_lt {nodes : List Node} {edges : List Edge} {entry exit : Nat} (hentry : entry < nodes.length)
    (hexit : exit < nodes.length) :
    build nodes edges entry exit = edges.foldlM addEdge (ofNodes nodes entry exit) := by
  rw [build, if_neg (Nat.not_le.2 hentry), if_neg (Nat.not_le.2 hexit)]

/-- A graph is built exactly from an entry and an exit that exist and from edges that are simple. -/
theorem exists_build_iff (nodes : List Node) (edges : List Edge) (entry exit : Nat) :
    (∃ g, build nodes edges entry exit = .ok g) ↔
      entry < nodes.length ∧ exit < nodes.length ∧ Simple nodes.length edges := by
  constructor
  · rintro ⟨g, hbuild⟩
    obtain ⟨hwired, hnodes, -, hentry, hexit⟩ := build_wired hbuild
    have hsize : g.size = nodes.length := by rw [size, hnodes, List.size_toArray]
    have hentry : entry < nodes.length := hsize ▸ hentry ▸ hwired.entry_lt
    have hexit : exit < nodes.length := hsize ▸ hexit ▸ hwired.exit_lt
    rw [build_eq_of_lt hentry hexit] at hbuild
    exact ⟨hentry, hexit, (exists_addEdges_iff simple_nil).1 ⟨g, hbuild⟩⟩
  · rintro ⟨hentry, hexit, hsimple⟩
    rw [build_eq_of_lt hentry hexit]
    exact (exists_addEdges_iff simple_nil).2 hsimple

/-- The entry is checked before the exit, the exit before the edges, and these in their order. -/
theorem build_eq_error_iff {nodes : List Node} {edges : List Edge} {entry exit : Nat} {error : GraphError} :
    build nodes edges entry exit = .error error ↔
      (nodes.length ≤ entry ∧ error = .missingEntry entry) ∨
      (entry < nodes.length ∧ nodes.length ≤ exit ∧ error = .missingExit exit) ∨
      (entry < nodes.length ∧ exit < nodes.length ∧ ∃ before e after, edges = before ++ e :: after ∧
        Simple nodes.length before ∧ e.fault? nodes.length before = some error) := by
  by_cases hentry : nodes.length ≤ entry
  · have hnot : ¬ entry < nodes.length := Nat.not_lt.2 hentry
    rw [build, if_pos hentry, throw_eq_error, eq_comm]
    simp [hentry, hnot]
  · have hlt : entry < nodes.length := Nat.lt_of_not_le hentry
    by_cases hexit : nodes.length ≤ exit
    · have hnot : ¬ exit < nodes.length := Nat.not_lt.2 hexit
      rw [build, if_neg hentry, if_pos hexit, throw_eq_error, eq_comm]
      simp [hlt, hentry, hexit, hnot]
    · have hlt' : exit < nodes.length := Nat.lt_of_not_le hexit
      rw [build_eq_of_lt hlt hlt', addEdges_eq_error_iff simple_nil]
      simp only [hentry, hexit, hlt, hlt', false_and, true_and, false_or]
      exact Iff.rfl

theorem Wired.mem_predecessors_iff {m : Nat} (hg : g.Wired) : m ∈ g.predecessors n ↔ n ∈ g.successors m := by
  rw [predecessors, successors, List.mem_map, List.mem_map]
  constructor
  · rintro ⟨e, he, rfl⟩
    rw [hg.mem_inEdges] at he
    exact ⟨e, hg.mem_outEdges.2 ⟨he.1, rfl⟩, he.2⟩
  · rintro ⟨e, he, rfl⟩
    rw [hg.mem_outEdges] at he
    exact ⟨e, hg.mem_inEdges.2 ⟨he.1, rfl⟩, he.2⟩

/-- Exactly valid graphs are built. Where one is not, the error is a missing entry, else a missing exit, else the fault
of the first edge that has one behind the edges before it. What is built has the nodes, edges and ends that it was
built from; the edges at a node are all that end or start there, in their order and none of them twice, so that the
predecessors of a node are those that it succeeds. -/
theorem build_faithful (nodes : List Node) (edges : List Edge) (entry exit : Nat) :
    ((∃ g, build nodes edges entry exit = .ok g) ↔
      entry < nodes.length ∧ exit < nodes.length ∧ Simple nodes.length edges) ∧
    (∀ error, build nodes edges entry exit = .error error ↔
      (nodes.length ≤ entry ∧ error = .missingEntry entry) ∨
      (entry < nodes.length ∧ nodes.length ≤ exit ∧ error = .missingExit exit) ∨
      (entry < nodes.length ∧ exit < nodes.length ∧ ∃ before e after, edges = before ++ e :: after ∧
        Simple nodes.length before ∧ e.fault? nodes.length before = some error)) ∧
    ∀ g, build nodes edges entry exit = .ok g →
      (g.nodes.toList = nodes ∧ g.edges = edges ∧ g.entry = entry ∧ g.exit = exit) ∧
      (∀ n, g.inEdges n = (edges.filter fun e => e.target = n) ∧ (g.predecessors n).Nodup) ∧
      (∀ n, g.outEdges n = (edges.filter fun e => e.source = n) ∧ (g.successors n).Nodup) ∧
      ∀ m n, m ∈ g.predecessors n ↔ n ∈ g.successors m := by
  refine ⟨exists_build_iff nodes edges entry exit, fun error => build_eq_error_iff, fun g hbuild => ?_⟩
  obtain ⟨-, -, hsimple⟩ := (exists_build_iff nodes edges entry exit).1 ⟨g, hbuild⟩
  obtain ⟨hwired, hnodes, rfl, hentry, hexit⟩ := build_wired hbuild
  refine ⟨⟨by rw [hnodes], rfl, hentry, hexit⟩, fun n => ⟨hwired.inEdges_eq n, ?_⟩,
    fun n => ⟨hwired.outEdges_eq n, ?_⟩, fun m n => hwired.mem_predecessors_iff⟩
  · rw [predecessors, hwired.inEdges_eq]
    exact hsimple.nodup_map (fun e f htarget hsource => Prod.ext hsource htarget) n
  · rw [successors, hwired.outEdges_eq]
    exact hsimple.nodup_map (fun e f hsource htarget => Prod.ext hsource htarget) n

/-- A node and a loop head with an edge in each direction; then an edge that is there twice, before one to a node that
does not exist. -/
theorem build_faithful_pair :
    let nodes : List Node := [.basic [], .loop]
    let there : Edge := ⟨0, 1, .plain, none⟩
    let back : Edge := ⟨1, 0, .loopOut, none⟩
    (∃ g, build nodes [there, back] 0 1 = .ok g ∧ g.outEdges 0 = [there] ∧ 0 ∈ g.predecessors 1) ∧
      build nodes [there, back, ⟨0, 1, .ifOut, none⟩, ⟨0, 7, .plain, none⟩] 0 1 =
        .error (.duplicateEdge 0 1) := by
  intro nodes there back
  have hsimple : Simple nodes.length [there, back] := ⟨by decide, by decide, by decide⟩
  constructor
  · obtain ⟨hvalid, -, hbuilt⟩ := build_faithful nodes [there, back] 0 1
    obtain ⟨g, hg⟩ := hvalid.2 ⟨by decide, by decide, hsimple⟩
    obtain ⟨-, -, hout, hconverse⟩ := hbuilt g hg
    have hleaving : g.outEdges 0 = [there] := (hout 0).1
    refine ⟨g, hg, hleaving, (hconverse 0 1).2 ?_⟩
    rw [successors, hleaving]
    decide
  · obtain ⟨-, hfaults, -⟩ := build_faithful nodes [there, back, ⟨0, 1, .ifOut, none⟩, ⟨0, 7, .plain, none⟩] 0 1
    exact (hfaults _).2 (.inr (.inr ⟨by decide, by decide, [there, back], _, _, rfl, hsimple, by decide⟩))

/-! ### A loop that counts -/

namespace Counting

def counter : Identifier := ⟨"i", .int, .variable⟩

def place : Point := ⟨1, 1⟩

/-- The condition `i < 10`. -/
def below : Stmt := .call place "lt" .bool [.var place counter, .literal place (.int 10)]

/-- The statement `i = 0`. -/
def reset : Stmt := .assign place (.var place counter) (.literal place (.int 0))

/-- The statement `i = i + 1`. -/
def increment : Stmt :=
  .assign place (.var place counter)
    (.call place "add" .int [.var place counter, .literal place (.int 1)])

def nodes : List Node := [.basic [reset], .loop, .basic [increment], .basic []]

def edges : List Edge :=
  [⟨0, 1, .plain, none⟩, ⟨1, 2, .loopIn, some below⟩, ⟨2, 1, .plain, none⟩,
    ⟨1, 3, .loopOut, some (.call place "not" .bool [below])⟩]

/-- Sets `i` to zero and increments it while it is below ten. -/
def graph : Graph := (build nodes edges 0 3).toOption.getD (ofNodes nodes 0 3)

theorem build_eq : build nodes edges 0 3 = .ok graph := rfl

end Counting

end Graph

end FlowAnalysis
