import FlowScript.Document.Decode
import FlowScript.Generator
import FlowScript.Lint.All
import FlowScript.Settings.Decode

/-!
# From text to program in one call

Compile or lint the text of a graph. The settings are read first, then the graph, then the patterns;
the first of them that cannot be read is the reason for a refusal.
-/

namespace FlowScript

/-- Why an input is refused. -/
inductive InputError where
  | settings (cause : SettingsError)
  | graph
  | patterns
deriving DecidableEq, Repr

/-- The text of a refusal. -/
def InputError.message : InputError → String
  | .settings cause => cause.message
  | .graph => "failed to parse graph JSON"
  | .patterns => "failed to parse pattern list JSON"

/-- The phase in which an input is refused. -/
def InputError.phase : InputError → String
  | .settings _ => "Config"
  | .graph | .patterns => "Parse"

/-- The graph of a document's text. -/
def FlowGraph.parse? (text : String) : Option FlowGraph :=
  (Document.parse? text).map FlowGraph.ofDocument

/-- What a program is generated from. -/
structure Inputs where
  settings : Settings
  graph : FlowGraph
  patterns : PatternLibrary

namespace Inputs

/-- Gather the inputs; the first that is not there is the reason for a refusal. -/
def gather (settings : Except SettingsError Settings) (graph : Option FlowGraph)
    (patterns : Option PatternLibrary) : Except InputError Inputs :=
  match settings, graph, patterns with
  | .error cause, _, _ => .error (.settings cause)
  | _, none, _ => .error .graph
  | _, _, none => .error .patterns
  | .ok s, some g, some p => .ok ⟨s, g, p⟩

/-- Generate the program with a library that always answers. -/
def compile (i : Inputs) : Outcome :=
  ((Generator.new i.graph i.settings).run Outages.answer (.ofLibrary i.patterns)).1

end Inputs

/-- Compile the text of a graph with the text of a pattern list and, if it is given, the text of the
settings. -/
def compile (graph patterns : String) (settings : Option String) : Except InputError Outcome :=
  let settings := (settings.map Settings.parse).getD (.ok .standard)
  (Inputs.gather settings (FlowGraph.parse? graph) (PatternLibrary.parse? patterns)).map
    Inputs.compile

/-- The findings about the text of a graph. -/
def lint (graph : String) : Except InputError (List Diagnostic) :=
  match FlowGraph.parse? graph with
  | some g => .ok (Lint.findings .standard g)
  | none => .error .graph

end FlowScript
