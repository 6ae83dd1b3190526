import FlowAnalysis.Proofs.Analysis.Closure

/-!
The states that a run handles. Whatever a run stores, joins, widens or compares comes from its initial
state by operations of the domain, those that statements and guards perform on the way included. A
property that holds at first and that these operations keep is therefore one of every state handled.
-/

namespace FlowAnalysis

variable {S Pre : Type} [StateDomain S Pre]

namespace StateDomain

/-- The states that come from an initial one by operations of the domain. Single expressions are applied
to states that are not bottom alone. -/
inductive Generated (initial : S) : S → Prop where
  | start : Generated initial initial
  | bottom {s : S} (hs : Generated initial s) : Generated initial (Extremal.bottom s)
  | withResult {s : S} (result : Alternatives) (hs : Generated initial s) :
      Generated initial (withResult s result)
  | before {s : S} (point : Point) (known : Option Pre) (hs : Generated initial s) :
      Generated initial (before s point known)
  | join {s t u : S} (hs : Generated initial s) (ht : Generated initial t)
      (h : Domain.join s t = .ok u) : Generated initial u
  | widen {s t u : S} (hs : Generated initial s) (ht : Generated initial t)
      (h : Domain.widen s t = .ok u) : Generated initial u
  | assign {s t : S} {left right : Expr} (hs : Generated initial s)
      (hproper : Extremal.isBottom s = false) (h : assignOne s left right = .ok t) :
      Generated initial t
  | assume {s t : S} {condition : Expr} (hs : Generated initial s)
      (hproper : Extremal.isBottom s = false) (h : assumeOne s condition = .ok t) :
      Generated initial t
  | substitute {s t : S} {left right : Expr} (hs : Generated initial s)
      (hproper : Extremal.isBottom s = false) (h : substituteOne s left right = .ok t) :
      Generated initial t
  | output {s t : S} {value : Expr} (hs : Generated initial s)
      (hproper : Extremal.isBottom s = false) (h : outputOne s value = .ok t) :
      Generated initial t
  | enterIf {s : S} (hs : Generated initial s) : Generated initial (enterIf s)
  | exitIf {s : S} (hs : Generated initial s) : Generated initial (exitIf s)
  | enterLoop {s : S} (hs : Generated initial s) : Generated initial (enterLoop s)
  | exitLoop {s : S} (hs : Generated initial s) : Generated initial (exitLoop s)

variable {E : AnalysisError → Prop} {P : S → Prop} {initial s : S}

/-- What holds of the initial state and is kept by the operations holds of what they generate. -/
theorem Generated.of_closed (hs : Generated initial s) (h : Closed E P) (hinitial : P initial) :
    P s := by
  induction hs with
  | start => exact hinitial
  | bottom _ ih => exact h.bottom ih
  | withResult result _ ih => exact h.withResult result ih
  | before point known _ ih => exact h.before point known ih
  | join _ _ hjoin ihs iht => exact (h.join ihs iht).result hjoin
  | widen _ _ hwiden ihs iht => exact (h.widen ihs iht).result hwiden
  | assign _ hproper hassign ih => exact (h.assignOne _ _ ih hproper).result hassign
  | assume _ hproper hassume ih => exact (h.assumeOne _ ih hproper).result hassume
  | substitute _ hproper hsubstitute ih =>
      exact (h.substituteOne _ _ ih hproper).result hsubstitute
  | output _ hproper houtput ih => exact (h.outputOne _ ih hproper).result houtput
  | enterIf _ ih => exact h.enterIf ih
  | exitIf _ ih => exact h.exitIf ih
  | enterLoop _ ih => exact h.enterLoop ih
  | exitLoop _ ih => exact h.exitLoop ih

/-- Being generated is kept by every operation, whatever errors there are. -/
theorem generated_closed (initial : S) : Closed (fun _ => True) (Generated initial) := by
  have hconcludes : ∀ {x : Outcome S}, (∀ u, x = .ok u → Generated initial u) →
      Concludes (fun _ => True) (Generated initial) x := by
    intro x hx
    cases x with
    | ok u => exact hx u rfl
    | error e => trivial
  exact {
    semantic := fun _ _ => trivial
    bottom := .bottom
    withResult := .withResult
    before := .before
    join := fun hs ht => hconcludes fun _ => .join hs ht
    widen := fun hs ht => hconcludes fun _ => .widen hs ht
    assignOne := fun _ _ hs hproper => hconcludes fun _ => .assign hs hproper
    assumeOne := fun _ hs hproper => hconcludes fun _ => .assume hs hproper
    substituteOne := fun _ _ hs hproper => hconcludes fun _ => .substitute hs hproper
    outputOne := fun _ hs hproper => hconcludes fun _ => .output hs hproper
    enterIf := .enterIf
    exitIf := .exitIf
    enterLoop := .enterLoop
    exitLoop := .exitLoop }

end StateDomain

namespace Analysis

open StateDomain (Closed Generated generated_closed)

/-- The statements that a run performs: those of the nodes and the guards of the edges over which states
arrive. -/
inductive Performs (a : Analysis S Pre) : Stmt → Prop where
  | statement {n : Nat} {statement : Stmt} (h : statement ∈ a.graph.statementsAt n) :
      Performs a statement
  | guard {n : Nat} {e : Edge} {condition : Stmt} (he : e ∈ a.arriving n)
      (h : e.guard = some condition) : Performs a condition

/-- The states that a run stores, joins, widens or compares. -/
inductive Handles (a : Analysis S Pre) : S → Prop where
  /-- The states around the statements of a node are stored. -/
  | stored {p : Progress S} {n : Nat} {r : NodeResult S} {s : S} (hstage : a.Stage p)
      (hr : p.at? n = some r) (hs : s ∈ r.states) : Handles a s
  /-- What an edge brings is joined to what arrived before. -/
  | arriving {p : Progress S} {e : Edge} {s t : S} (hstage : a.Stage p)
      (hs : a.leaving? p (a.origin e) = some s) (h : a.traverse e s = .ok t) : Handles a t
  /-- What arrived over the first edges of a node is joined to the next; it is the state of the node
  without any edge if there are none. -/
  | joining {p : Progress S} {n : Nat} {edges : List Edge} {s : S} (hstage : a.Stage p)
      (hedges : edges <+: a.arriving n) (h : edges.foldlM (a.joinOver p) (a.own n) = .ok s) :
      Handles a s
  /-- The state of the last visit is widened and compared. -/
  | previous {p : Progress S} (hstage : a.Stage p) (n : Nat) : Handles a (a.previous p n)
  /-- The state with which a node is entered is compared. -/
  | entering {p : Progress S} {n : Nat} {node : Node} {s : S} (hstage : a.Stage p)
      (h : a.entering p n node = .ok s) : Handles a s
  /-- Statements and guards apply operations of the domain to such states, and join the outcomes. -/
  | performing {s t : S} (hs : Handles a s) (h : Generated s t) : Handles a t
  /-- The states of the result. -/
  | finished {p : Progress S} {n : Nat} {s : S} (hstage : a.Stage p)
      (hs : s ∈ (a.finish p).statesAt n) : Handles a s

variable {a : Analysis S Pre} {E : AnalysisError → Prop} {P : S → Prop} {s : S}

/-- Every state that a run handles comes from the initial one. -/
theorem Handles.generated (hs : a.Handles s) : Generated a.initial s := by
  have hclosed := generated_closed a.initial
  induction hs with
  | stored hstage hr hs => exact hstage.stored hclosed .start _ _ hr _ hs
  | @arriving p e s t hstage hs h =>
      obtain ⟨r, hr, hout⟩ := Option.bind_eq_some_iff.1 hs
      have hstored := hstage.stored hclosed .start _ r hr s (mem_of_outgoing? hout)
      exact (traverse_concludes hclosed e hstored).result h
  | @joining p n edges s hstage _ h =>
      have hstored := hstage.stored hclosed .start
      exact (Concludes.foldlM (own_closed hclosed .start n) fun _ e ht _ =>
        joinOver_concludes hclosed hstored ht e).result h
  | previous hstage n => exact previous_closed hclosed .start (hstage.stored hclosed .start) n
  | entering hstage h =>
      exact (entering_concludes hclosed .start (hstage.stored hclosed .start) _ _).result h
  | performing _ h ih => exact h.of_closed hclosed ih
  | finished hstage hs => exact finish_closed hclosed .start (hstage.stored hclosed .start) _ hs

/-- What holds of the initial state and is kept by the operations holds of every state handled. -/
theorem Handles.of_closed (hs : a.Handles s) (h : Closed E P) (hinitial : P a.initial) : P s :=
  hs.generated.of_closed h hinitial

omit [StateDomain S Pre] in
/-- In a graph that was built, the statements that are performed are among those of the graph. -/
theorem Performs.mem_statements {statement : Stmt} (hg : a.graph.Wired) (h : a.Performs statement) :
    statement ∈ a.graph.statements := by
  cases h with
  | statement h => exact Graph.mem_statements_of_mem_statementsAt h
  | guard he h => exact Graph.mem_statements_of_guard ((mem_arriving hg).1 he).1 h

end Analysis

end FlowAnalysis
