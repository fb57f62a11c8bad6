import FlowScript.Emission.Draft
import FlowScript.Emission.Job
import FlowScript.Literal

/-!
# Arguments

The expression for an input port: the value of the port that feeds it, converted if the types need
it, or the declared default, or the value that stands in for the type of the port.
-/

namespace FlowScript

/-- An expression, with what there is to report about it. -/
structure Argument where
  text : String
  notes : List Diagnostic
deriving DecidableEq, Repr

namespace Job

/-- The expression for the value of the port that a binding names. -/
def sourceText (job : Job) (d : Draft) (b : Binding) : String :=
  ((d.value? b.source b.sourcePort) <|> (job.graph.node? b.source).map (job.nameOf b.source)).getD
    Literal.neutral

/-- The kind and the message of the report about a conversion at an input port. -/
def conversionNote? (c : Conversion) (source : String) (p : Port) :
    Option (DiagnosticKind × String) :=
  match c.compatibility with
  | .withConversion =>
    if c.applied then
      some (.typeConversionApplied,
        "Converted " ++ source ++ " to " ++ p.type ++ " for input '" ++ p.name ++ "'")
    else
      some (.typeIncompatible,
        "No conversion from " ++ source ++ " to " ++ p.type ++ " is available for input '" ++
          p.name ++ "'")
  | .incompatible =>
    some (.typeIncompatible,
      "Cannot pass " ++ source ++ " to input '" ++ p.name ++ "' of type " ++ p.type)
  | .compatible | .unknown => none

/-- The expression for an input port that is fed by another port. -/
def boundArgument (job : Job) (d : Draft) (n : Node) (p : Port) (b : Binding) : Argument :=
  let sourceType := job.graph.outputType b.source b.sourcePort
  let c := job.conversions.convert (job.sourceText d b) sourceType p.type
  let connection : Connection :=
    ⟨b.edge, job.graph.idAt b.source, b.sourcePort, sourceType, n.id, p.id, p.type⟩
  { text := c.expression
    notes := ((conversionNote? c sourceType p).map fun note =>
      (Diagnostic.forNode note.1 note.2 n.id n.label).withConnection connection).toList }

/-- The expression for an input port that nothing feeds. -/
def freeArgument (n : Node) (p : Port) : Argument :=
  match p.default with
  | some v => ⟨Literal.ofValue v, []⟩
  | none =>
    let text := Literal.ofType p.type
    { text := text
      notes :=
        if p.required then
          [Diagnostic.forNode .disconnectedRequiredInput
            ("Required input '" ++ p.name ++ "' is not connected; using " ++ text) n.id n.label]
        else [] }

/-- The expression for an input port of the node at a position. -/
def argument (job : Job) (d : Draft) (v : Nat) (n : Node) (p : Port) : Argument :=
  match job.graph.binding? v p.id with
  | some b => job.boundArgument d n p b
  | none => freeArgument n p

/-- The expression for the input port with the given number; there being none is a fault. -/
def argumentAt (job : Job) (d : Draft) (v : Nat) (n : Node) (index : Nat) :
    Except Fault Argument :=
  match n.inputs[index]? with
  | some p => .ok (job.argument d v n p)
  | none => .error (.missingInput n.id index)

end Job

end FlowScript
