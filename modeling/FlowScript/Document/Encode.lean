import FlowScript.Document.Basic

/-!
# Writing a document

Every record is written as an object with all its fields, in the order of their declaration; what is
absent is written as `null`.
-/

namespace FlowScript

open FlowScript.Json (Value)

/-- A value that may be absent. -/
def optionValue {α : Type} (write : α → Value) : Option α → Value
  | none => .null
  | some a => write a

/-- The written name of a node's kind. -/
def Kind.tag : Kind → String
  | .plain => "plain"
  | .input => "input"
  | .output => "output"
  | .start => "start"
  | .finish => "end"
  | .conditional => "conditional"
  | .loop => "loop"

/-- The written name of an edge's kind. -/
def EdgeKind.tag : EdgeKind → String
  | .data => "data"
  | .execution => "execution"

/-- A port with all its fields. -/
def Port.toValue (p : Port) : Value :=
  .object [
    ("id", .string p.id),
    ("name", .string p.name),
    ("type", .string p.type),
    ("required", .bool p.required),
    ("defaultValue", p.default.getD .null)]

/-- An execution port with all its fields. -/
def ExecutionPort.toValue (p : ExecutionPort) : Value :=
  .object [("id", .string p.id), ("name", .string p.name)]

namespace Document

/-- A node with all its fields. -/
def Node.toValue (n : Node) : Value :=
  .object [
    ("id", .string n.id),
    ("label", .string n.label),
    ("category", optionValue .string n.category),
    ("kind", optionValue (fun k => .string k.tag) n.kind),
    ("inputs", .array (n.inputs.map Port.toValue)),
    ("outputs", .array (n.outputs.map Port.toValue)),
    ("hasExecutionPorts", optionValue .bool n.hasExecutionPorts),
    ("executionInputs", .array (n.executionInputs.map ExecutionPort.toValue)),
    ("executionOutputs", .array (n.executionOutputs.map ExecutionPort.toValue)),
    ("functionId", optionValue .string n.functionId),
    ("value", n.value.getD .null)]

/-- An edge's data with all its fields. -/
def EdgeData.toValue (d : EdgeData) : Value :=
  .object [
    ("type", optionValue (fun k => .string k.tag) d.type),
    ("label", optionValue .string d.label)]

/-- An edge with all its fields. -/
def Edge.toValue (e : Edge) : Value :=
  .object [
    ("id", .string e.id),
    ("source", .string e.source),
    ("target", .string e.target),
    ("sourceHandle", optionValue .string e.sourceHandle),
    ("targetHandle", optionValue .string e.targetHandle),
    ("data", optionValue EdgeData.toValue e.data)]

/-- A document with all its fields. -/
def toValue (d : Document) : Value :=
  .object [
    ("nodes", .array (d.nodes.map Node.toValue)),
    ("edges", .array (d.edges.map Edge.toValue))]

/-- The text of a document. -/
def text (d : Document) : String :=
  d.toValue.text

end Document

end FlowScript
