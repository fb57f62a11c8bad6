import FlowScript.Diagnostic
import FlowScript.Graph.Labels

/-!
# Findings about the structure of a graph

Repeated edges, edges from a node to itself, conditionals without a branch to take and loops without
a body, in this order.
-/

namespace FlowScript.Lint

/-- Whether two edges connect the same ports in the same way. -/
def sameConnection (a b : Edge) : Bool :=
  a.source == b.source && a.target == b.target && a.kind == b.kind &&
    a.sourcePort == b.sourcePort && a.targetPort == b.targetPort

/-- The edges that repeat a connection of an earlier edge; `seen` holds the earlier ones. -/
def repeatedEdges (seen : List Edge) : List Edge → List Edge
  | [] => []
  | e :: rest =>
    if seen.any (sameConnection e) then e :: repeatedEdges seen rest
    else repeatedEdges (e :: seen) rest

/-- A report about the node at a position. -/
def reportAt (g : FlowGraph) (v : Nat) (kind : DiagnosticKind) (message : String) : Diagnostic :=
  Diagnostic.forNode kind message (g.idAt v) (((g.node? v).map (·.label)).getD "")

/-- The findings about repeated edges. -/
def duplicates (g : FlowGraph) : List Diagnostic :=
  (repeatedEdges [] g.edges).map fun e =>
    reportAt g e.target .duplicateConnection
      ("Duplicate connection '" ++ e.id ++ "' from '" ++ g.idAt e.source ++ "' to '" ++
        g.idAt e.target ++ "'")

/-- The findings about edges from a node to itself. -/
def selfLoops (g : FlowGraph) : List Diagnostic :=
  (g.edges.filter fun e => e.source == e.target).map fun e =>
    reportAt g e.source .selfLoop
      ("Connection '" ++ e.id ++ "' links node '" ++ g.idAt e.source ++ "' to itself")

/-- The nodes of a control kind in the flow of execution that no edge with one of the given labels
leaves. -/
def withoutBranch (g : FlowGraph) (kind : Kind) (labels : List String) : List Node :=
  g.positions.filterMap fun v => (g.node? v).filter fun n =>
    n.kind == kind && n.hasExecutionPorts && (g.branchTargets v labels).isEmpty

/-- The findings about conditionals without a branch to take. -/
def missingThen (g : FlowGraph) : List Diagnostic :=
  (withoutBranch g .conditional thenLabels).map fun n =>
    Diagnostic.forNode .missingBranch
      ("Conditional '" ++ n.label ++ "' has no connected then-branch") n.id n.label

/-- The findings about loops without a body. -/
def missingBody (g : FlowGraph) : List Diagnostic :=
  (withoutBranch g .loop bodyLabels).map fun n =>
    Diagnostic.forNode .missingBranch ("Loop '" ++ n.label ++ "' has no connected body")
      n.id n.label

/-- All findings about the structure of a graph. -/
def structural (g : FlowGraph) : List Diagnostic :=
  duplicates g ++ selfLoops g ++ missingThen g ++ missingBody g

end FlowScript.Lint
