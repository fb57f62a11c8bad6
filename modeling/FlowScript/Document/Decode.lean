import FlowScript.Document.Basic
import FlowScript.Document.Record

/-!
# Reading a document

The names and the order of the fields of every record, and which of them may be absent. A free value
inside a record may be nested as deep as the depth of that record leaves room for.
-/

namespace FlowScript

open Record
open FlowScript.Json (Form Value)

/-- The names of the kinds of a node. -/
def Kind.names : List (String × Kind) :=
  [("plain", .plain), ("input", .input), ("output", .output), ("start", .start),
    ("end", .finish), ("conditional", .conditional), ("loop", .loop)]

/-- The names of the kinds of an edge. -/
def EdgeKind.names : List (String × EdgeKind) :=
  [("data", .data), ("execution", .execution), ("exec", .execution)]

/-- The fields of a port. -/
def Port.fields : List (List String) :=
  [["id"], ["name"], ["type"], ["required"], ["defaultValue", "value"]]

/-- Read a port; `depth` is the nesting left for its parts. -/
def Port.ofForm (depth : Nat) (f : Form) : Option Port := do
  match ← slots Port.fields f with
  | [id, name, type, required, default] =>
    some {
      id := ← Record.required string id
      name := ← orElse string "" name
      type := ← orElse string "" type
      required := ← orElse bool false required
      default := ← optional (Form.value? depth) default }
  | _ => none

/-- The fields of an execution port. -/
def ExecutionPort.fields : List (List String) :=
  [["id"], ["name"]]

/-- Read an execution port. -/
def ExecutionPort.ofForm (f : Form) : Option ExecutionPort := do
  match ← slots ExecutionPort.fields f with
  | [id, name] => some { id := ← required string id, name := ← orElse string "" name }
  | _ => none

namespace Document

/-- The fields of a node. -/
def Node.fields : List (List String) :=
  [["id"], ["label"], ["category"], ["kind"], ["inputs"], ["outputs"], ["hasExecutionPorts"],
    ["executionInputs"], ["executionOutputs"], ["functionId"], ["value"]]

/-- Read a node; `depth` is the nesting left for its parts. -/
def Node.ofForm (depth : Nat) (f : Form) : Option Node := do
  match ← slots Node.fields f with
  | [id, label, category, kind, inputs, outputs, hasPorts, exInputs, exOutputs, function, value] =>
    some {
      id := ← required string id
      label := ← orElse string "" label
      category := ← optional string category
      kind := ← optional (choice Kind.names) kind
      inputs := ← orElse (list (Port.ofForm (depth - 2))) [] inputs
      outputs := ← orElse (list (Port.ofForm (depth - 2))) [] outputs
      hasExecutionPorts := ← optional bool hasPorts
      executionInputs := ← orElse (list ExecutionPort.ofForm) [] exInputs
      executionOutputs := ← orElse (list ExecutionPort.ofForm) [] exOutputs
      functionId := ← optional string function
      value := ← optional (Form.value? depth) value }
  | _ => none

/-- The fields of an edge's data. -/
def EdgeData.fields : List (List String) :=
  [["type"], ["label"]]

/-- Read an edge's data. -/
def EdgeData.ofForm (f : Form) : Option EdgeData := do
  match ← slots EdgeData.fields f with
  | [type, label] =>
    some {
      type := ← optional (choice EdgeKind.names) type
      label := ← optional string label }
  | _ => none

/-- The fields of an edge. -/
def Edge.fields : List (List String) :=
  [["id"], ["source"], ["target"], ["sourceHandle"], ["targetHandle"], ["data"]]

/-- Read an edge. -/
def Edge.ofForm (f : Form) : Option Edge := do
  match ← slots Edge.fields f with
  | [id, source, target, sourceHandle, targetHandle, data] =>
    some {
      id := ← required string id
      source := ← required string source
      target := ← required string target
      sourceHandle := ← optional string sourceHandle
      targetHandle := ← optional string targetHandle
      data := ← optional EdgeData.ofForm data }
  | _ => none

/-- The fields of a document. -/
def fields : List (List String) :=
  [["nodes"], ["edges"]]

/-- Read a document. Its nodes are nested three deep. -/
def ofForm (f : Form) : Option Document := do
  match ← slots fields f with
  | [nodes, edges] =>
    some {
      nodes := ← required (list (Node.ofForm (Json.maxDepth - 3))) nodes
      edges := ← orElse (list Edge.ofForm) [] edges }
  | _ => none

/-- Read a document from its text. -/
def parse? (text : String) : Option Document :=
  (Form.parse? text).bind ofForm

end Document

end FlowScript
