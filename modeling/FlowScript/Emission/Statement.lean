import FlowScript.Emission.Argument
import FlowScript.Pattern.Template

/-!
# The lines of one node

A node with a pattern contributes the filled pattern, a node whose pattern is missing a comment, an
input node a declaration and an output node a return. Other nodes contribute nothing.
-/

namespace FlowScript.Job

/-- The report about a hole of a pattern without an argument. -/
def holeNote (n : Node) (available index : Nat) : Diagnostic :=
  Diagnostic.forNode .unresolvedPlaceholder
    ("Placeholder \x7b" ++ toString index ++ "\x7d has no matching input (" ++
      toString available ++ " available)")
    n.id n.label

/-- Write the filled text of a pattern the way its kind asks for. -/
def writeFilled (job : Job) (d : Draft) (v : Nat) (n : Node) (kind : PatternKind) (text : String) :
    Draft :=
  match kind with
  | .expression =>
    let name := job.nameOf v n
    (d.writeLines (some v) (name ++ " = " ++ Text.trim text)).bindOutputs v
      (n.outputs.map (·.id)) name
  | .statement =>
    (((Text.lines text).map Text.trim).filter fun l => !l.isEmpty).foldl
      (fun d l => d.write (some v) l) d
  | .block => d.writeLines (some v) (Text.trimEnd text)

/-- Write the pattern of a node. -/
def writePattern (job : Job) (d : Draft) (v : Nat) (n : Node) (p : Pattern) : Draft :=
  let arguments := n.inputs.map (job.argument d v n)
  let filled := Template.fill p.text (arguments.map (·.text))
  let d := d.report (arguments.flatMap (·.notes))
  let d := d.report (filled.unresolved.map (holeNote n arguments.length))
  job.writeFilled (d.require p.imports) v n p.kind filled.text

/-- The literal that an input node declares: its value, the default of its first output, or what
stands in for the type of that output. -/
def declaredLiteral (n : Node) : String :=
  match n.value <|> n.outputs.head?.bind (·.default) with
  | some v => Literal.ofValue v
  | none => Literal.ofType ((n.outputs.head?.map (·.type)).getD "any")

/-- Declare the variable of an input node. -/
def writeInput (job : Job) (d : Draft) (v : Nat) (n : Node) : Draft :=
  let name := job.nameOf v n
  (d.write (some v) (name ++ " = " ++ declaredLiteral n)).bindOutputs v (n.outputs.map (·.id)) name

/-- Return the value of an output node, or leave that for the end of the program. -/
def writeOutput (job : Job) (d : Draft) (v : Nat) (n : Node) : Except Fault Draft :=
  match job.mode with
  | .dataFlow => .ok (d.defer v)
  | .execution =>
    if n.inputs.isEmpty then .ok (d.write (some v) "return")
    else
      match job.argumentAt d v n 0 with
      | .ok a => .ok ((d.report a.notes).write (some v) ("return " ++ a.text))
      | .error fault => .error fault

/-- Write the lines of the node at a position. -/
def writeNode (job : Job) (d : Draft) (v : Nat) : Except Fault Draft :=
  match job.node v with
  | .error fault => .error fault
  | .ok n =>
    match job.fitting v with
    | .pattern p => .ok (job.writePattern d v n p)
    | .missing function =>
      .ok (d.write (some v) ("# missing syntax pattern '" ++ function ++ "' for node '" ++
        n.label ++ "' (" ++ n.id ++ ")"))
    | .absent =>
      match n.kind with
      | .input => .ok (job.writeInput d v n)
      | .output => job.writeOutput d v n
      | _ => .ok d

/-- Write the lines of the node at a position; a fault becomes a comment and an error. -/
def writeGuarded (job : Job) (d : Draft) (v : Nat) : Draft :=
  match job.writeNode d v with
  | .ok d => d
  | .error fault =>
    let (id, label) :=
      match job.graph.node? v with
      | some n => (n.id, n.label)
      | none => ("?", "")
    let d := d.write (some v) ("# error: failed to generate node '" ++ label ++ "' (" ++ id ++
      "): " ++ fault.message)
    d.report [Diagnostic.forNode .internalGenerationFailure
      ("Failed to generate code: " ++ fault.message) id label]

/-- Enter a node that is reached through a data edge: what it reads first, then its own lines. What
runs after it is left alone, so a scope that its pattern opens holds a `pass`. `budget` is at least
the number of nodes that have not been entered. -/
def standalone (job : Job) : Nat → Nat → Draft → Draft
  | 0, _, d => d
  | budget + 1, v, d =>
    if d.entered.contains v then d
    else
      let d := (job.graph.dependencies v).foldl (fun d u => standalone job budget u d) (d.enter v)
      let d := job.writeGuarded d v
      if job.opensScope v then ((d.openArm v .scope).write none "pass").closeArm v .scope else d

/-- Enter a node, and everything it reads before it. -/
def enter (job : Job) (v : Nat) (d : Draft) : Draft :=
  (job.graph.dependencies v).foldl (fun d u => job.standalone job.graph.size u d) (d.enter v)

end FlowScript.Job
