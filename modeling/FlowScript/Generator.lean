import FlowScript.Emission.Body
import FlowScript.Pattern.Source
import FlowScript.Program
import FlowScript.Schedule.Cycles

/-!
# The generator

A generator writes the program of one graph, as often as it is asked. It keeps what its pattern
source has answered for a function, found or not found, and asks again only after a failure.
-/

namespace FlowScript

/-- What the writing of a program gives: its text, and what there is to report. -/
structure Outcome where
  code : String
  diagnostics : List Diagnostic
deriving DecidableEq, Repr

/-- A generator: a graph, and how its program is written. -/
structure Generator where
  graph : FlowGraph
  settings : Settings
  conversions : Conversions
  /-- What the pattern source has answered, by function. -/
  known : List (String × Option Pattern)

/-- What is known about the functions of some nodes, with what there is to report about it, and the
answers and the source's state after the lookups. -/
structure Fitted (σ : Type) where
  fittings : List Fitting
  notes : List Diagnostic
  known : List (String × Option Pattern)
  source : σ

namespace Generator

/-- A generator that has not asked for any pattern, with the conversions between types that are
known from the start. -/
def new (graph : FlowGraph) (settings : Settings) : Generator :=
  ⟨graph, settings, .standard .standard, []⟩

/-- The answer for a function, from what is known or from the source, and what is known then. -/
def lookup {σ : Type} (ask : PatternSource σ) (language function : String)
    (known : List (String × Option Pattern)) (s : σ) :
    Answer × List (String × Option Pattern) × σ :=
  match known.lookup function with
  | some (some p) => (.found p, known, s)
  | some none => (.notFound, known, s)
  | none =>
    match ask s function language with
    | (.found p, s) => (.found p, known ++ [(function, some p)], s)
    | (.notFound, s) => (.notFound, known ++ [(function, none)], s)
    | (.failed f, s) => (.failed f, known, s)

/-- What an answer means for a node. -/
def fit (language function : String) (n : Node) : Answer → Fitting × List Diagnostic
  | .found p => (.pattern p, [])
  | .notFound =>
    (.missing function, [Diagnostic.forNode .syntaxPatternMissing
      ("No syntax pattern '" ++ function ++ "' for language '" ++ language ++ "'") n.id n.label])
  | .failed f =>
    (.missing function, [Diagnostic.forNode .initializationFailure
      ("Failed to load syntax pattern '" ++ function ++ "': " ++ f.message) n.id n.label])

/-- Look up the function of one more node. -/
def fitNode {σ : Type} (ask : PatternSource σ) (language : String) (r : Fitted σ) (n : Node) :
    Fitted σ :=
  match n.functionId with
  | none => { r with fittings := r.fittings ++ [.absent] }
  | some function =>
    let (answer, known, source) := lookup ask language function r.known r.source
    let (fitting, notes) := fit language function n answer
    { fittings := r.fittings ++ [fitting], notes := r.notes ++ notes, known := known,
      source := source }

/-- Look up the functions of all nodes, in the order of their declaration. -/
def fitAll {σ : Type} (ask : PatternSource σ) (gen : Generator) (s : σ) : Fitted σ :=
  gen.graph.nodes.foldl (fitNode ask gen.settings.language) ⟨[], [], gen.known, s⟩

/-- How the graph is walked: along the edges of execution if there is a flow of execution with an
entry point. -/
def mode (g : FlowGraph) : Mode :=
  if g.anyExecutionPorts && !g.entryPoints.isEmpty then .execution else .dataFlow

/-- The job of writing the program of the graph, given what is known about its functions. -/
def job (gen : Generator) (schedule : Schedule) (fittings : List Fitting) : Job where
  graph := gen.graph
  order := schedule.order
  names := Naming.assign gen.graph.nodes
  fittings := fittings
  conversions := gen.conversions
  mode := mode gen.graph

/-- The text and the reports of a finished body, or of one that ended in a fault. -/
def finish (settings : Settings) : Except (Fault × Draft) Draft → Outcome
  | .ok d => ⟨Program.text ⟨d.imports, d.listing.items⟩ settings, d.diagnostics⟩
  | .error (fault, d) =>
    let note : Diagnostic :=
      { kind := .internalGenerationFailure
        message := "Code generation failed: " ++ fault.message }
    ⟨"# Code generation failed: " ++ fault.message ++ "\n", d.diagnostics ++ [note]⟩

/-- Write the program, given what is known about the functions of the graph. -/
def write (gen : Generator) (fittings : List Fitting) (notes : List Diagnostic) : Outcome :=
  let schedule := gen.graph.schedule
  let start := Draft.start (notes ++ gen.graph.cycleReports schedule)
  finish gen.settings ((gen.job schedule fittings).body start)

/-- Write the program with the answers of a source. Gives the generator that knows these answers,
and the state of the source after its lookups. -/
def run {σ : Type} (ask : PatternSource σ) (gen : Generator) (s : σ) : Outcome × Generator × σ :=
  let fitted := gen.fitAll ask s
  (gen.write fitted.fittings fitted.notes, { gen with known := fitted.known }, fitted.source)

end Generator

end FlowScript
