import FlowAnalysis.Program.Stmt

/-!
Control flow graphs.

Nodes are numbered from zero. A node is a sequence of statements or a loop head, and an edge may
carry a guard, the condition under which it is taken. A graph is built from nodes and edges once,
and building it checks that its ends exist, that every edge joins existing nodes and that no two
edges join the same nodes in the same direction.
-/
namespace FlowAnalysis

/-- A node of a control flow graph. -/
inductive Node where
  | basic (statements : List Stmt)
  | loop

namespace Node

/-- The statements of a node; a loop head has none. -/
def statements : Node → List Stmt
  | basic statements => statements
  | loop => []

def isLoop : Node → Bool
  | basic _ => false
  | loop => true

end Node

/-- The scope that an edge enters or leaves. -/
inductive EdgeKind where
  | plain
  | ifIn
  | ifOut
  | loopIn
  | loopOut
  deriving DecidableEq

/-- An edge between two nodes. -/
structure Edge where
  source : Nat
  target : Nat
  kind : EdgeKind
  guard : Option Stmt

/-- Why nodes and edges do not form a graph. -/
inductive GraphError where
  | missingEntry (node : Nat)
  | missingExit (node : Nat)
  | unknownNode (source target : Nat)
  | duplicateEdge (source target : Nat)
  deriving DecidableEq

def GraphError.message : GraphError → String
  | missingEntry node => "entry node " ++ toString node ++ " does not exist"
  | missingExit node => "exit node " ++ toString node ++ " does not exist"
  | unknownNode source target =>
    "edge " ++ toString source ++ " -> " ++ toString target ++ " references an unknown node"
  | duplicateEdge source target =>
    "duplicate edge " ++ toString source ++ " -> " ++ toString target

/-- A control flow graph, with the edges of each node at hand. -/
structure Graph where
  nodes : Array Node
  edges : List Edge
  outgoing : Array (List Edge)
  incoming : Array (List Edge)
  entry : Nat
  exit : Nat

namespace Graph

def ofNodes (nodes : List Node) (entry exit : Nat) : Graph where
  nodes := nodes.toArray
  edges := []
  outgoing := .replicate nodes.length []
  incoming := .replicate nodes.length []
  entry := entry
  exit := exit

def size (g : Graph) : Nat := g.nodes.size

/-- Adds an edge behind those that are there. -/
def addEdge (g : Graph) (e : Edge) : Except GraphError Graph :=
  if g.size ≤ e.source || g.size ≤ e.target then throw (.unknownNode e.source e.target)
  else if g.edges.any fun f => f.source == e.source && f.target == e.target then
    throw (.duplicateEdge e.source e.target)
  else
    pure { g with
      edges := g.edges ++ [e]
      outgoing := g.outgoing.modify e.source (· ++ [e])
      incoming := g.incoming.modify e.target (· ++ [e]) }

def build (nodes : List Node) (edges : List Edge) (entry exit : Nat) : Except GraphError Graph :=
  if nodes.length ≤ entry then throw (.missingEntry entry)
  else if nodes.length ≤ exit then throw (.missingExit exit)
  else edges.foldlM addEdge (ofNodes nodes entry exit)

/-- The edges that end at a node, in the order in which they were added. -/
def inEdges (g : Graph) (n : Nat) : List Edge := g.incoming.getD n []

/-- The edges that start at a node, in the order in which they were added. -/
def outEdges (g : Graph) (n : Nat) : List Edge := g.outgoing.getD n []

def predecessors (g : Graph) (n : Nat) : List Nat := (g.inEdges n).map Edge.source

def successors (g : Graph) (n : Nat) : List Nat := (g.outEdges n).map Edge.target

/-- The statements of a node, none for a node that does not exist. -/
def statementsAt (g : Graph) (n : Nat) : List Stmt := (g.nodes[n]?.map Node.statements).getD []

/-- All statements: those of the nodes, then the guards of the edges. -/
def statements (g : Graph) : List Stmt :=
  g.nodes.toList.flatMap Node.statements ++ g.edges.filterMap Edge.guard

/-- The variables that statements and guards mention, in the order of their first occurrence. -/
def vars (g : Graph) : OrderedSet Identifier :=
  .ofList (g.statements.flatMap Stmt.occurrences)

end Graph

end FlowAnalysis
