import FlowScript.Diagnostic
import FlowScript.Emission.Event
import FlowScript.Listing.Imports

/-!
# Drafts

A draft is the state of an emission: its trace so far, the nodes that have been entered, the nodes
that must wait behind a barrier, and the expressions that hold the values of output ports.
-/

namespace FlowScript

/-- A program body that is being written. -/
structure Draft where
  level : Nat
  trace : List Event
  entered : List Nat
  /-- Nodes at which the flow stops until the block that holds them back is closed. -/
  barriers : List Nat
  /-- The expression that holds the value of an output port; the first entry for a port counts. -/
  values : List ((Nat × String) × String)
  diagnostics : List Diagnostic
  imports : List String
  /-- Output nodes whose values are returned together at the end. -/
  deferred : List Nat
deriving DecidableEq, Repr

namespace Draft

/-- The draft before anything is written, with the diagnostics that are known by then. -/
def start (diagnostics : List Diagnostic) : Draft where
  level := 0
  trace := []
  entered := []
  barriers := []
  values := []
  diagnostics := diagnostics
  imports := []
  deferred := []

/-- Enter a node. -/
def enter (d : Draft) (v : Nat) : Draft :=
  { d with trace := d.trace ++ [.enter v], entered := d.entered ++ [v] }

/-- Write a line at the current level. -/
def write (d : Draft) (origin : Option Nat) (text : String) : Draft :=
  { d with trace := d.trace ++ [.line origin d.level text] }

/-- The step that writes one line of a longer text; a blank line has no level. -/
def lineEvent (origin : Option Nat) (level : Nat) (text : String) : Event :=
  if Text.isBlankText text then .blank origin else .line origin level text

/-- Write the lines of a text at the current level. -/
def writeLines (d : Draft) (origin : Option Nat) (text : String) : Draft :=
  { d with trace := d.trace ++ (Text.lines text).map (lineEvent origin d.level) }

/-- Open an arm of a block; its lines go one level deeper. -/
def openArm (d : Draft) (owner : Nat) (arm : Arm) : Draft :=
  { d with trace := d.trace ++ [.opened owner arm], level := d.level + 1 }

/-- Close an arm of a block. -/
def closeArm (d : Draft) (owner : Nat) (arm : Arm) : Draft :=
  { d with trace := d.trace ++ [.closed owner arm], level := d.level - 1 }

/-- Let an expression hold the values of all output ports of a node. -/
def bindOutputs (d : Draft) (v : Nat) (ports : List String) (expression : String) : Draft :=
  { d with values := ports.map (fun p => ((v, p), expression)) ++ d.values }

/-- The expression that holds the value of an output port. -/
def value? (d : Draft) (v : Nat) (port : String) : Option String :=
  d.values.lookup (v, port)

/-- Add diagnostics. -/
def report (d : Draft) (diagnostics : List Diagnostic) : Draft :=
  { d with diagnostics := d.diagnostics ++ diagnostics }

/-- Ask for import lines. -/
def require (d : Draft) (lines : List String) : Draft :=
  { d with imports := Imports.addAll d.imports lines }

/-- Return the value of an output node at the end. -/
def defer (d : Draft) (v : Nat) : Draft :=
  { d with deferred := d.deferred ++ [v] }

/-- Hold nodes back. -/
def hold (d : Draft) (nodes : List Nat) : Draft :=
  { d with barriers := d.barriers ++ nodes }

/-- Let nodes go that were held back. -/
def letGo (d : Draft) (nodes : List Nat) : Draft :=
  { d with barriers := d.barriers.filter fun v => !nodes.contains v }

/-- The listing that has been written so far. -/
def listing (d : Draft) : Listing :=
  ⟨d.level, traceItems d.trace⟩

/-- The number of lines written so far. -/
def written (d : Draft) : Nat :=
  d.listing.lineCount

end Draft

end FlowScript
