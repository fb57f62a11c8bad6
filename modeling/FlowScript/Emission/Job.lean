import FlowScript.Graph.Labels
import FlowScript.Naming
import FlowScript.Pattern.Basic
import FlowScript.Types.Conversion

/-!
# Jobs

A job is everything that an emission reads and does not change: the graph with its order and the
names of its variables, the pattern of every node, and the conversions between types.
-/

namespace FlowScript

/-- How the body of a program is walked. -/
inductive Mode where
  /-- Along the edges of execution, from the entry points. -/
  | execution
  /-- In the order of the schedule, with all returns together at the end. -/
  | dataFlow
deriving DecidableEq, Repr

/-- What is known about the function of a node. -/
inductive Fitting where
  | absent
  | pattern (pattern : Pattern)
  | missing (function : String)
deriving DecidableEq, Repr

/-- A fault in the program that writes programs. -/
inductive Fault where
  | unknownNode (position : Nat)
  | missingInput (node : String) (index : Nat)
deriving DecidableEq, Repr

/-- The text of a fault. -/
def Fault.message : Fault → String
  | .unknownNode position => "node index " ++ toString position ++ " is not part of the graph"
  | .missingInput node index =>
    "node '" ++ node ++ "' has no input at position " ++ toString index

/-- What an emission works from. -/
structure Job where
  graph : FlowGraph
  order : List Nat
  names : List String
  fittings : List Fitting
  conversions : Conversions
  mode : Mode

namespace Job

/-- What is known about the function of the node at a position. -/
def fitting (job : Job) (v : Nat) : Fitting :=
  job.fittings.getD v .absent

/-- Whether the pattern of a node opens a scope. -/
def opensScope (job : Job) (v : Nat) : Bool :=
  match job.fitting v with
  | .pattern p => p.opensScope
  | _ => false

/-- The variable of the node at a position. -/
def nameOf (job : Job) (v : Nat) (n : Node) : String :=
  job.names.getD v (Naming.ofNode n)

/-- The node at a position; there being none is a fault. -/
def node (job : Job) (v : Nat) : Except Fault Node :=
  match job.graph.node? v with
  | some n => .ok n
  | none => .error (.unknownNode v)

end Job

end FlowScript
