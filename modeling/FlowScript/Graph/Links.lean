import FlowScript.Graph.Basic

/-!
# Links between the nodes of a graph

What the edges say about one node. Lists of nodes name each node once, in the order in which the
edges first do. Of several data edges into one port the last binds the port, at the place of the
first.
-/

namespace FlowScript

/-- What feeds an input port. -/
structure Binding where
  edge : String
  targetPort : String
  source : Nat
  sourcePort : String
deriving DecidableEq, Repr

/-- The binding that a data edge makes. -/
def Edge.binding (e : Edge) : Binding where
  edge := e.id
  targetPort := e.targetPort
  source := e.source
  sourcePort := e.sourcePort

/-- Bind a port, in place of its earlier binding if it has one. -/
def bindPort (b : Binding) : List Binding → List Binding
  | [] => [b]
  | c :: rest => if c.targetPort = b.targetPort then b :: rest else c :: bindPort b rest

namespace FlowGraph

/-- The data edges into a node. -/
def dataInto (g : FlowGraph) (t : Nat) : List Edge :=
  g.edges.filter fun e => e.kind = .data ∧ e.target = t

/-- The execution edges into a node. -/
def executionInto (g : FlowGraph) (t : Nat) : List Edge :=
  g.edges.filter fun e => e.kind = .execution ∧ e.target = t

/-- The execution edges out of a node. -/
def executionFrom (g : FlowGraph) (s : Nat) : List Edge :=
  g.edges.filter fun e => e.kind = .execution ∧ e.source = s

/-- The nodes whose values a node reads. -/
def dependencies (g : FlowGraph) (t : Nat) : List Nat :=
  ((g.dataInto t).map (·.source)).eraseDups

/-- The nodes that run after a node. -/
def successors (g : FlowGraph) (s : Nat) : List Nat :=
  ((g.executionFrom s).map (·.target)).eraseDups

/-- The nodes after which a node runs. -/
def predecessors (g : FlowGraph) (t : Nat) : List Nat :=
  ((g.executionInto t).map (·.source)).eraseDups

/-- The labelled execution edges out of a node: label and target of each. -/
def branches (g : FlowGraph) (s : Nat) : List (String × Nat) :=
  (g.executionFrom s).filterMap fun e => e.label.map fun l => (l, e.target)

/-- The bound input ports of a node. -/
def bindings (g : FlowGraph) (t : Nat) : List Binding :=
  (g.dataInto t).foldl (fun bs e => bindPort e.binding bs) []

/-- What feeds an input port of a node. -/
def binding? (g : FlowGraph) (t : Nat) (port : String) : Option Binding :=
  (g.bindings t).find? (·.targetPort == port)

/-- The target of the first branch with the given label, up to case. -/
def branchTarget? (g : FlowGraph) (s : Nat) (label : String) : Option Nat :=
  ((g.branches s).find? fun b => Text.lower b.1 == Text.lower label).map Prod.snd

/-- Where the program starts: the nodes of the flow of execution that nothing precedes or, without
such a flow, the input nodes. -/
def entryPoints (g : FlowGraph) : List Nat :=
  if g.anyExecutionPorts then
    g.positions.filter fun v => g.hasExecutionPorts v && (g.predecessors v).isEmpty
  else g.positions.filter fun v => (g.node? v).any (·.kind == .input)

/-- The nodes of the flow of execution that nothing follows. -/
def exitPoints (g : FlowGraph) : List Nat :=
  g.positions.filter fun v => g.hasExecutionPorts v && (g.successors v).isEmpty

end FlowGraph

end FlowScript
