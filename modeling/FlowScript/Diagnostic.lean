/-!
# Diagnostics

What is reported about a graph: a kind, which decides the severity, a message, and the node and the
connection that it concerns. Diagnostics are kept in the order in which they arise.
-/

namespace FlowScript

/-- How serious a diagnostic is. -/
inductive Severity where
  | warning
  | error
deriving DecidableEq, Repr

/-- The name of a severity. -/
def Severity.name : Severity → String
  | .warning => "warning"
  | .error => "error"

/-- What a diagnostic is about. -/
inductive DiagnosticKind where
  | syntaxPatternMissing
  | unresolvedPlaceholder
  | dependencyCycle
  | disconnectedRequiredInput
  | typeIncompatible
  | typeConversionApplied
  | initializationFailure
  | internalGenerationFailure
  | duplicateConnection
  | selfLoop
  | missingBranch
deriving DecidableEq, Repr

namespace DiagnosticKind

/-- The severity of all diagnostics of a kind. -/
def severity : DiagnosticKind → Severity
  | .typeIncompatible | .initializationFailure | .internalGenerationFailure => .error
  | _ => .warning

/-- All kinds. -/
def all : List DiagnosticKind :=
  [.syntaxPatternMissing, .unresolvedPlaceholder, .dependencyCycle, .disconnectedRequiredInput,
    .typeIncompatible, .typeConversionApplied, .initializationFailure, .internalGenerationFailure,
    .duplicateConnection, .selfLoop, .missingBranch]

/-- The name of a kind. -/
def name : DiagnosticKind → String
  | .syntaxPatternMissing => "SyntaxPatternMissing"
  | .unresolvedPlaceholder => "UnresolvedPlaceholder"
  | .dependencyCycle => "DependencyCycle"
  | .disconnectedRequiredInput => "DisconnectedRequiredInput"
  | .typeIncompatible => "TypeIncompatible"
  | .typeConversionApplied => "TypeConversionApplied"
  | .initializationFailure => "InitializationFailure"
  | .internalGenerationFailure => "InternalGenerationFailure"
  | .duplicateConnection => "DuplicateConnection"
  | .selfLoop => "SelfLoop"
  | .missingBranch => "MissingBranch"

/-- The kind with the given name. -/
def ofName? (name : String) : Option DiagnosticKind :=
  all.find? (·.name == name)

end DiagnosticKind

/-- Both ends of a data connection, with the declared types of the ports. -/
structure Connection where
  edge : String
  sourceNode : String
  sourcePort : String
  sourceType : String
  targetNode : String
  targetPort : String
  targetType : String
deriving DecidableEq, Repr

/-- One report. -/
structure Diagnostic where
  kind : DiagnosticKind
  message : String
  nodeId : Option String := none
  nodeLabel : Option String := none
  connection : Option Connection := none
deriving DecidableEq, Repr

namespace Diagnostic

/-- A report about a node. -/
def forNode (kind : DiagnosticKind) (message id label : String) : Diagnostic where
  kind := kind
  message := message
  nodeId := some id
  nodeLabel := some label

/-- A report that also concerns a connection; without a node it is about the target. -/
def withConnection (d : Diagnostic) (c : Connection) : Diagnostic :=
  { d with nodeId := d.nodeId <|> some c.targetNode, connection := some c }

/-- The severity of a report. -/
def severity (d : Diagnostic) : Severity :=
  d.kind.severity

/-- Whether a report is an error. -/
def isError (d : Diagnostic) : Bool :=
  d.severity == .error

/-- A report on one line. -/
def display (d : Diagnostic) : String :=
  let head := "[" ++ d.severity.name ++ ":" ++ d.kind.name ++ "] " ++ d.message
  match d.nodeId with
  | some id => head ++ " (node '" ++ id ++ "')"
  | none => head

/-- The errors among some reports, in their order. -/
def errors (ds : List Diagnostic) : List Diagnostic :=
  ds.filter isError

/-- The warnings among some reports, in their order. -/
def warnings (ds : List Diagnostic) : List Diagnostic :=
  ds.filter fun d => !d.isError

end Diagnostic

end FlowScript
