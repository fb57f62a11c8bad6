import FlowScript.Graph.Handle
import FlowScript.Graph.Kind

/-!
# Flow graphs

The graph of a document. Of several nodes with one id the first counts, and an edge counts when both
its ends are nodes. Nodes are addressed by their position. An edge is for execution when it says so
or, saying nothing, when one of its handles is; edges for execution may carry a label.
-/

namespace FlowScript

/-- A port whose name is its id unless another one is declared. -/
def Port.named (p : Port) : Port :=
  { p with name := if p.name.isEmpty then p.id else p.name }

/-- An execution port whose name is its id unless another one is declared. -/
def ExecutionPort.named (p : ExecutionPort) : ExecutionPort :=
  { p with name := if p.name.isEmpty then p.id else p.name }

/-- A node of a flow graph. -/
structure Node where
  id : String
  label : String
  category : Option String
  kind : Kind
  inputs : List Port
  outputs : List Port
  executionInputs : List ExecutionPort
  executionOutputs : List ExecutionPort
  functionId : Option String
  value : Option Json.Value
  /-- The node takes part in the flow of execution even without ports for it. -/
  executionFlag : Bool
deriving Repr

namespace Node

/-- The node that a declaration describes. -/
def ofDocument (n : Document.Node) : Node where
  id := n.id
  label := n.label
  category := n.category
  kind := Kind.classify n.kind n.category n.label
  inputs := n.inputs.map Port.named
  outputs := n.outputs.map Port.named
  executionInputs := n.executionInputs.map ExecutionPort.named
  executionOutputs := n.executionOutputs.map ExecutionPort.named
  functionId := n.functionId.filter fun f => !f.isEmpty
  value := n.value
  executionFlag := n.hasExecutionPorts.getD false

/-- Whether a node takes part in the flow of execution. -/
def hasExecutionPorts (n : Node) : Bool :=
  n.executionFlag || !n.executionInputs.isEmpty || !n.executionOutputs.isEmpty

/-- The first input port with the given id. -/
def input? (n : Node) (port : String) : Option Port :=
  n.inputs.find? (·.id == port)

/-- The first output port with the given id. -/
def output? (n : Node) (port : String) : Option Port :=
  n.outputs.find? (·.id == port)

/-- The first execution output with the given id. -/
def executionOutput? (n : Node) (port : String) : Option ExecutionPort :=
  n.executionOutputs.find? (·.id == port)

end Node

/-- An edge between two nodes, given by their positions. -/
structure Edge where
  id : String
  source : Nat
  target : Nat
  kind : EdgeKind
  sourcePort : String
  targetPort : String
  label : Option String
deriving DecidableEq, Repr

/-- Nodes and edges in the order of their declaration. -/
structure FlowGraph where
  nodes : List Node
  edges : List Edge
deriving Repr

/-- The nodes whose id is neither in `seen` nor declared before. -/
def firstDeclared (seen : List String) : List Document.Node → List Document.Node
  | [] => []
  | n :: rest =>
    if seen.contains n.id then firstDeclared seen rest
    else n :: firstDeclared (n.id :: seen) rest

/-- The position of the node with the given id. -/
def position? (nodes : List Node) (id : String) : Option Nat :=
  nodes.findIdx? (·.id == id)

/-- The kind of an edge between two handles. -/
def edgeKind (declared : Option EdgeKind) (source target : Handle) : EdgeKind :=
  declared.getD (if source.role.isExecution || target.role.isExecution then .execution else .data)

/-- The label of an execution edge: the declared one, the name of the port it leaves, or the id of
that port; empty texts are no label, save an empty name. -/
def branchLabel (declared : Option String) (source : Node) (port : String) : Option String :=
  (declared.filter fun l => !l.isEmpty) <|> (source.executionOutput? port).map (·.name) <|>
    (if port.isEmpty then none else some port)

/-- The edge that a declaration describes, if both its ends are among the nodes. -/
def Edge.ofDocument? (nodes : List Node) (e : Document.Edge) : Option Edge := do
  let source ← position? nodes e.source
  let target ← position? nodes e.target
  let node ← nodes[source]?
  let sourceHandle := Handle.parse (e.sourceHandle.getD "")
  let targetHandle := Handle.parse (e.targetHandle.getD "")
  let kind := edgeKind (e.data.bind (·.type)) sourceHandle targetHandle
  some {
    id := e.id
    source := source
    target := target
    kind := kind
    sourcePort := sourceHandle.port
    targetPort := targetHandle.port
    label :=
      match kind with
      | .data => none
      | .execution => branchLabel (e.data.bind (·.label)) node sourceHandle.port }

namespace FlowGraph

/-- The graph of a document. -/
def ofDocument (d : Document) : FlowGraph :=
  let nodes := (firstDeclared [] d.nodes).map Node.ofDocument
  { nodes := nodes, edges := d.edges.filterMap (Edge.ofDocument? nodes) }

/-- The number of nodes. -/
def size (g : FlowGraph) : Nat :=
  g.nodes.length

/-- The positions of all nodes. -/
def positions (g : FlowGraph) : List Nat :=
  List.range g.size

/-- The node at a position. -/
def node? (g : FlowGraph) (v : Nat) : Option Node :=
  g.nodes[v]?

/-- The position of the node with the given id. -/
def index? (g : FlowGraph) (id : String) : Option Nat :=
  position? g.nodes id

/-- The id of the node at a position. -/
def idAt (g : FlowGraph) (v : Nat) : String :=
  ((g.node? v).map (·.id)).getD ""

/-- Whether the node at a position takes part in the flow of execution. -/
def hasExecutionPorts (g : FlowGraph) (v : Nat) : Bool :=
  (g.node? v).any (·.hasExecutionPorts)

/-- Whether there is a node at a position and it takes no part in the flow of execution. -/
def isDataOnly (g : FlowGraph) (v : Nat) : Bool :=
  (g.node? v).any fun n => !n.hasExecutionPorts

/-- Whether some node takes part in the flow of execution. -/
def anyExecutionPorts (g : FlowGraph) : Bool :=
  g.nodes.any (·.hasExecutionPorts)

/-- The declared type of an output port, `any` if there is no such port. -/
def outputType (g : FlowGraph) (v : Nat) (port : String) : String :=
  (((g.node? v).bind (·.output? port)).map (·.type)).getD "any"

end FlowGraph

end FlowScript
