import FlowScript.Json.Value

/-!
# Documents

A document lists the nodes of a visual program and the edges between their handles, as an editor
saves them. Nothing is checked here: ids may repeat, and edges may name nodes that do not exist.
-/

namespace FlowScript

/-- What a node is for. -/
inductive Kind where
  | plain
  | input
  | output
  | start
  | finish
  | conditional
  | loop
deriving DecidableEq, Repr

/-- Whether an edge carries a value or the flow of execution. -/
inductive EdgeKind where
  | data
  | execution
deriving DecidableEq, Repr

/-- A data port of a node. -/
structure Port where
  id : String
  name : String
  type : String
  required : Bool
  default : Option Json.Value
deriving Repr

/-- An execution port of a node. -/
structure ExecutionPort where
  id : String
  name : String
deriving DecidableEq, Repr

namespace Document

/-- A node as it is declared. -/
structure Node where
  id : String
  label : String
  category : Option String
  kind : Option Kind
  inputs : List Port
  outputs : List Port
  hasExecutionPorts : Option Bool
  executionInputs : List ExecutionPort
  executionOutputs : List ExecutionPort
  functionId : Option String
  value : Option Json.Value
deriving Repr

/-- What an edge says about itself. -/
structure EdgeData where
  type : Option EdgeKind
  label : Option String
deriving DecidableEq, Repr

/-- An edge as it is declared, between handles of two nodes. -/
structure Edge where
  id : String
  source : String
  target : String
  sourceHandle : Option String
  targetHandle : Option String
  data : Option EdgeData
deriving DecidableEq, Repr

end Document

/-- The declared nodes and edges of a visual program. -/
structure Document where
  nodes : List Document.Node
  edges : List Document.Edge
deriving Repr

end FlowScript
