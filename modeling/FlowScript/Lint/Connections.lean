import FlowScript.Diagnostic
import FlowScript.Types.Compatibility

/-!
# Findings about connections

A data edge is reported when the declared types of its ports do not fit or need a conversion.
-/

namespace FlowScript.Lint

/-- The finding about one data edge between two nodes. -/
def connectionFinding? (rules : TypeRules) (g : FlowGraph) (e : Edge) (source target : Node) :
    Option Diagnostic :=
  let sourceType := g.outputType e.source e.sourcePort
  let targetType := ((target.input? e.targetPort).map (·.type)).getD ""
  let ends := "'" ++ source.label ++ "' (" ++ sourceType ++ ") to '" ++ target.label ++ "' (" ++
    targetType ++ ")"
  let report (kind : DiagnosticKind) (message : String) : Diagnostic :=
    (Diagnostic.forNode kind message target.id target.label).withConnection
      ⟨e.id, source.id, e.sourcePort, sourceType, target.id, e.targetPort, targetType⟩
  match rules.checkPorts g (source.id, e.sourcePort) (target.id, e.targetPort) with
  | .incompatible => some (report .typeIncompatible ("Cannot connect " ++ ends))
  | .withConversion =>
    some (report .typeConversionApplied
      ("Connection from " ++ ends ++ " requires a type conversion"))
  | .compatible | .unknown => none

/-- The findings about all data edges, in the order of the edges. -/
def connections (rules : TypeRules) (g : FlowGraph) : List Diagnostic :=
  g.edges.filterMap fun e =>
    if e.kind = .data then do
      let source ← g.node? e.source
      let target ← g.node? e.target
      connectionFinding? rules g e source target
    else none

end FlowScript.Lint
