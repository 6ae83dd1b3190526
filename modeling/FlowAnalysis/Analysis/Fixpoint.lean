import FlowAnalysis.Analysis.Settings
import FlowAnalysis.Analysis.State
import FlowAnalysis.Graph

/-!
Fixpoints on control flow graphs.

A forward analysis starts at the entry of a graph and carries states along its edges, a backward one
starts at the exit and carries them against. Nodes wait in a queue. A node that is taken from it
joins what arrives over its edges, widens at a loop head that has been recomputed often enough, and
is done if the arriving state is covered by the one of its last visit; otherwise its statements are
executed anew and the nodes behind it go to the queue.

The states of a node stand in program order: one before each statement and one after the last. The
loop takes a number of steps, since nothing bounds it in general; the result does not depend on
that number once it suffices.
-/
namespace FlowAnalysis

/-- The states around the statements of a node, and how often they were computed. -/
structure NodeResult (S : Type) where
  states : List S
  iterations : Nat

/-- The states of all nodes, and how often a node was taken from the queue. -/
structure AnalysisResult (S : Type) where
  nodes : Array (NodeResult S)
  visits : Nat

namespace AnalysisResult

variable {S : Type}

/-- The states of a node, none for a node that does not exist. -/
def statesAt (r : AnalysisResult S) (n : Nat) : List S :=
  (r.nodes[n]?.map NodeResult.states).getD []

def entryState? (r : AnalysisResult S) (n : Nat) : Option S := (r.statesAt n).head?

def exitState? (r : AnalysisResult S) (n : Nat) : Option S := (r.statesAt n).getLast?

/-- How often the states of a node were computed. -/
def iterations (r : AnalysisResult S) (n : Nat) : Nat :=
  (r.nodes[n]?.map NodeResult.iterations).getD 0

end AnalysisResult

/-- An analysis of a graph: which way it goes and what it starts from. -/
structure Analysis (S Pre : Type) where
  graph : Graph
  direction : Direction
  settings : Settings
  /-- The result of an earlier analysis of the graph, if there is one. -/
  precursory : Option (AnalysisResult Pre) := none
  /-- The state at the node where the analysis starts. -/
  initial : S

/-- How far an analysis has come. -/
structure Progress (S : Type) where
  /-- What is known of each node that was computed. -/
  stored : Array (Option (NodeResult S))
  /-- The nodes that wait. -/
  queue : List Nat
  visits : Nat

namespace Progress

variable {S : Type}

def at? (p : Progress S) (n : Nat) : Option (NodeResult S) := (p.stored[n]?).join

/-- How often a node was computed. -/
def iterations (p : Progress S) (n : Nat) : Nat := ((p.at? n).map NodeResult.iterations).getD 0

/-- Puts nodes at the end of the queue unless they wait already. -/
def enqueue (queue : List Nat) : List Nat → List Nat
  | [] => queue
  | n :: rest => enqueue (if n ∈ queue then queue else queue ++ [n]) rest

end Progress

namespace Analysis

variable {S Pre : Type}

def start (a : Analysis S Pre) : Nat :=
  match a.direction with
  | .forward => a.graph.entry
  | .backward => a.graph.exit

/-- The edges over which states arrive at a node. -/
def arriving (a : Analysis S Pre) (n : Nat) : List Edge :=
  match a.direction with
  | .forward => a.graph.inEdges n
  | .backward => a.graph.outEdges n

def origin (a : Analysis S Pre) (e : Edge) : Nat :=
  match a.direction with
  | .forward => e.source
  | .backward => e.target

/-- The nodes behind a node. -/
def behind (a : Analysis S Pre) (n : Nat) : List Nat :=
  match a.direction with
  | .forward => a.graph.successors n
  | .backward => a.graph.predecessors n

/-- The state of a node where it is entered. -/
def incoming? (a : Analysis S Pre) (states : List S) : Option S :=
  match a.direction with
  | .forward => states.head?
  | .backward => states.getLast?

/-- The state of a node where it is left. -/
def outgoing? (a : Analysis S Pre) (states : List S) : Option S :=
  match a.direction with
  | .forward => states.getLast?
  | .backward => states.head?

/-- What the earlier analysis knows at a position of a node. -/
def precursoryAt (a : Analysis S Pre) (n position : Nat) : Option Pre :=
  a.precursory.bind fun r => (r.statesAt n)[position]?

/-- What the earlier analysis knows where an edge starts. -/
def precursoryFor (a : Analysis S Pre) (e : Edge) : Option Pre :=
  a.precursory.bind fun r => r.exitState? e.source

variable [StateDomain S Pre]

/-- Scopes are entered before the guard of an edge is assumed. -/
def enterScope (direction : Direction) (kind : EdgeKind) (s : S) : S :=
  match direction, kind with
  | .forward, .ifIn => StateDomain.enterIf s
  | .forward, .loopIn => StateDomain.enterLoop s
  | .backward, .ifOut => StateDomain.enterIf s
  | .backward, .loopOut => StateDomain.enterLoop s
  | _, _ => s

/-- Scopes are left after the guard of an edge is assumed. -/
def exitScope (direction : Direction) (kind : EdgeKind) (s : S) : S :=
  match direction, kind with
  | .forward, .ifOut => StateDomain.exitIf s
  | .forward, .loopOut => StateDomain.exitLoop s
  | .backward, .ifIn => StateDomain.exitIf s
  | .backward, .loopIn => StateDomain.exitLoop s
  | _, _ => s

def passGuard (a : Analysis S Pre) (e : Edge) (s : S) : Outcome S :=
  match e.guard with
  | none => pure s
  | some condition => do
    let s := StateDomain.before s condition.point (a.precursoryFor e)
    let s ← StateDomain.perform .forward condition s
    StateDomain.filter s

def traverse (a : Analysis S Pre) (e : Edge) (s : S) : Outcome S := do
  let s ← a.passGuard e (enterScope a.direction e.kind s)
  return exitScope a.direction e.kind s

/-- The states around statements from position `i` of node `n` on, given the one before them. -/
def executeForward (a : Analysis S Pre) (n : Nat) : Nat → List Stmt → S → Outcome (List S)
  | _, [], s => pure [s]
  | i, statement :: rest, s => do
    let next ← StateDomain.perform .forward statement
      (StateDomain.before s statement.point (a.precursoryAt n i))
    let later ← executeForward a n (i + 1) rest next
    return s :: later

/-- The states around statements from position `i` of node `n` on, given the one after them. -/
def executeBackward (a : Analysis S Pre) (n : Nat) : Nat → List Stmt → S → Outcome (List S)
  | _, [], s => pure [s]
  | i, statement :: rest, s => do
    let later ← executeBackward a n (i + 1) rest s
    let previous ← StateDomain.perform .backward statement
      (StateDomain.before (later.headD s) statement.point (a.precursoryAt n (i + 1)))
    return previous :: later

/-- The states around the statements of a node that is entered with `s`. -/
def execute (a : Analysis S Pre) (n : Nat) (s : S) : Outcome (List S) :=
  match a.direction with
  | .forward => a.executeForward n 0 (a.graph.statementsAt n) s
  | .backward => a.executeBackward n 0 (a.graph.statementsAt n) s

def previous (a : Analysis S Pre) (p : Progress S) (n : Nat) : S :=
  ((p.at? n).bind fun r => a.incoming? r.states).getD (Extremal.bottom a.initial)

/-- Joins what arrives over an edge, if its origin was computed. -/
def joinOver (a : Analysis S Pre) (p : Progress S) (s : S) (e : Edge) : Outcome S :=
  match (p.at? (a.origin e)).bind fun r => a.outgoing? r.states with
  | none => pure s
  | some t => do
    let t ← a.traverse e t
    Domain.join s t

/-- The state that a node has without any edge. -/
def own (a : Analysis S Pre) (n : Nat) : S :=
  if n = a.start then a.initial else Extremal.bottom a.initial

/-- The state that arrives at a node. -/
def arrival (a : Analysis S Pre) (p : Progress S) (n : Nat) : Outcome S :=
  (a.arriving n).foldlM (a.joinOver p) (a.own n)

/-- The state with which a node is entered: what arrives, widened where it is time to. -/
def entering (a : Analysis S Pre) (p : Progress S) (n : Nat) (node : Node) : Outcome S := do
  let s ← a.arrival p n
  if node.isLoop && a.settings.widening < p.iterations n then Domain.widen (a.previous p n) s
  else return s

/-- Whether a number of iterations is past the cap. -/
def exceeds (a : Analysis S Pre) (iterations : Nat) : Bool :=
  a.settings.maxIterations.any (· < iterations)

/-- Stores what was computed for a node and puts the nodes behind it into the queue. -/
def record (a : Analysis S Pre) (p : Progress S) (n : Nat) (states : List S) :
    Outcome (Progress S) :=
  let iterations := p.iterations n + 1
  if a.exceeds iterations then throw (.notConverged n iterations)
  else
    pure { p with
      stored := p.stored.setIfInBounds n (some ⟨states, iterations⟩)
      queue := Progress.enqueue p.queue (a.behind n) }

/-- Visits a node that was taken from the queue. -/
def visit (a : Analysis S Pre) (p : Progress S) (n : Nat) : Outcome (Progress S) :=
  match a.graph.nodes[n]? with
  | none => pure p
  | some node => do
    let s ← a.entering p n node
    if Domain.le s (a.previous p n) then return p
    else do
      let states ← a.execute n s
      a.record p n states

/-- Takes nodes from the queue until it is empty, none if the steps do not suffice. -/
def iterate (a : Analysis S Pre) : Nat → Progress S → Option (Outcome (Progress S))
  | 0, _ => none
  | steps + 1, p =>
    match p.queue with
    | [] => some (pure p)
    | n :: queue =>
      match a.visit { p with queue := queue, visits := p.visits + 1 } n with
      | .error e => some (.error e)
      | .ok p => a.iterate steps p

def begin (a : Analysis S Pre) : Progress S where
  stored := .replicate a.graph.size none
  queue := [a.start]
  visits := 0

/-- The states of a node that was never computed: bottom all over. -/
def untouched (a : Analysis S Pre) (node : Node) : NodeResult S :=
  ⟨List.replicate (node.statements.length + 1) (Extremal.bottom a.initial), 0⟩

/-- The result of an analysis whose queue is empty. -/
def finish (a : Analysis S Pre) (p : Progress S) : AnalysisResult S where
  nodes := a.graph.nodes.mapIdx fun n node => (p.at? n).getD (a.untouched node)
  visits := p.visits

/-- The result of an analysis within a number of steps, none if they do not suffice. -/
def runWithin (a : Analysis S Pre) (steps : Nat) : Option (Outcome (AnalysisResult S)) :=
  (a.iterate steps a.begin).map fun outcome => outcome.map a.finish

/-- More steps than any run takes that ends in a lifetime. -/
def ampleSteps : Nat := 1000000000000000

/-- The result of an analysis, none if it goes on for ever. -/
def run (a : Analysis S Pre) : Option (Outcome (AnalysisResult S)) := a.runWithin ampleSteps

end Analysis

end FlowAnalysis
