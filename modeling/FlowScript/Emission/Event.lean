import FlowScript.Listing.Basic

/-!
# What happens while a program body is written

The trace of an emission: nodes are entered, lines are written, and the arms of blocks are opened
and closed around the lines that belong to them. The body of the program is what the trace writes.
-/

namespace FlowScript

/-- The part of a block that lines belong to. -/
inductive Arm where
  | thenArm
  | elseArm
  | loopBody
  | scope
deriving DecidableEq, Repr

/-- One step of an emission. A line has the node that contributes it as its origin; the lines that
only complete a block or the program have none. -/
inductive Event where
  | enter (node : Nat)
  | line (origin : Option Nat) (level : Nat) (text : String)
  | blank (origin : Option Nat)
  | opened (owner : Nat) (arm : Arm)
  | closed (owner : Nat) (arm : Arm)
deriving DecidableEq, Repr

/-- What a step writes into the listing. -/
def Event.item? : Event → Option Item
  | .line _ level text => some (.line level text)
  | .blank _ => some .blank
  | _ => none

/-- What a trace writes into the listing. -/
def traceItems (trace : List Event) : List Item :=
  trace.filterMap Event.item?

end FlowScript
