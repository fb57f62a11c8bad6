import FlowScript.Emission.Flow
import FlowScript.Schedule.Groups

/-!
# The body of a program

With a flow of execution, the body follows it from every entry point, after the plain inputs of the
entry point's group, and then takes up what was not reached. Without one, the body goes through all
nodes in order, inputs first, and returns the values of the output nodes together.
-/

namespace FlowScript.Job

/-- Declare the input nodes of a group that take no part in the flow of execution. -/
def declareInputs (job : Job) (members : List Nat) (d : Draft) : Except (Fault × Draft) Draft :=
  members.foldlM (fun d v =>
    match job.node v with
    | .error fault => .error (fault, d)
    | .ok n =>
      if n.kind = .input ∧ ¬ n.hasExecutionPorts then .ok (job.standalone job.graph.size v d)
      else .ok d) d

/-- Follow the flow from an entry point. -/
def walkEntry (job : Job) (groups : List Group) (d : Draft) (entry : Nat) :
    Except (Fault × Draft) Draft := do
  let members := ((groups.find? (·.members.contains entry)).map (·.members)).getD []
  let d ← job.declareInputs members d
  .ok (job.flow job.graph.size entry d)

/-- The body of a program with a flow of execution. -/
def executionBody (job : Job) (d : Draft) : Except (Fault × Draft) Draft := do
  let d ← job.graph.entryPoints.foldlM (job.walkEntry job.graph.groups) d
  .ok (walkAll (job.flow job.graph.size) job.order d)

/-- Enter the input nodes, in order. -/
def inputsFirst (job : Job) (d : Draft) : Except (Fault × Draft) Draft :=
  job.order.foldlM (fun d v =>
    match job.node v with
    | .error fault => .error (fault, d)
    | .ok n => if n.kind = .input then .ok (job.standalone job.graph.size v d) else .ok d) d

/-- Add the value of an output node to the values that are returned; a node without input has
none. -/
def returnValue (job : Job) (r : List String × Draft) (v : Nat) :
    Except (Fault × Draft) (List String × Draft) :=
  match job.node v with
  | .error fault => .error (fault, r.2)
  | .ok n =>
    if n.inputs.isEmpty then .ok r
    else
      match job.argumentAt r.2 v n 0 with
      | .ok a => .ok (r.1 ++ [a.text], r.2.report a.notes)
      | .error fault => .error (fault, r.2)

/-- The body of a program without a flow of execution. -/
def dataFlowBody (job : Job) (d : Draft) : Except (Fault × Draft) Draft := do
  let d ← job.inputsFirst d
  let d := walkAll (job.standalone job.graph.size) job.order d
  let (values, d) ← d.deferred.foldlM job.returnValue ([], d)
  .ok (if values.isEmpty then d
    else d.write none ("return " ++ String.intercalate ", " values))

/-- The body of a program. -/
def body (job : Job) (d : Draft) : Except (Fault × Draft) Draft :=
  match job.mode with
  | .execution => job.executionBody d
  | .dataFlow => job.dataFlowBody d

end FlowScript.Job
