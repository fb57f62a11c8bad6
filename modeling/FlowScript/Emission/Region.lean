import FlowScript.Emission.Statement
import FlowScript.Graph.Reach

/-!
# Regions of the flow after a block

A block splits the flow into regions, one for each of its arms and one for what runs after it. A
node in two regions is held back until the block is closed. A value that two regions read is
computed before the block, if that can be done without the node that owns the block.
-/

namespace FlowScript.Job

/-- The nodes that the flow can come to from some targets, through nodes that have not been entered
and are not behind a barrier. -/
def flowRegion (job : Job) (d : Draft) (targets : List Nat) : List Nat :=
  reach job.graph.size job.graph.successors
    (fun v => !d.entered.contains v && !d.barriers.contains v) targets

/-- The nodes outside the flow of execution whose values a region reads, directly or through other
such nodes, and that have not been entered. -/
def dataNeeds (job : Job) (d : Draft) (region : List Nat) : List Nat :=
  reach job.graph.size job.graph.dependencies
    (fun v => !d.entered.contains v && !region.contains v && job.graph.isDataOnly v)
    (region.flatMap job.graph.dependencies)

/-- Whether a node and the values it reads can be computed before the block of `owner`: nothing that
is still to be entered for it takes part in the flow of execution, and nothing reads `owner`. -/
def hoistable (job : Job) (d : Draft) (owner v : Nat) : Bool :=
  let pending := reach job.graph.size job.graph.dependencies
    (fun u => u != owner && !d.entered.contains u && job.graph.isDataOnly u)
    (job.graph.dependencies v)
  (v :: pending).all fun u => (job.graph.dependencies u).all fun w =>
    w != owner && (d.entered.contains w || job.graph.isDataOnly w)

/-- Whether a node lies in more than one of some regions. -/
def shared (regions : List (List Nat)) (v : Nat) : Bool :=
  1 < (regions.filter (·.contains v)).length

/-- The nodes that are walked for each region, given the nodes that are held back: the arms without
those, and last what runs after the block together with them. -/
def walked (arms : List (List Nat)) (after held : List Nat) : List (List Nat) :=
  arms.map (fun r => r.filter fun v => !held.contains v) ++ [after ++ held]

/-- Compute the values that more than one region reads, as far as they can be hoisted. -/
def hoist (job : Job) (owner : Nat) (needs : List (List Nat)) (d : Draft) : Draft :=
  job.order.foldl (fun d v =>
    if shared needs v && job.hoistable d owner v then job.standalone job.graph.size v d else d) d

/-- Split the flow after a block, with the targets of its arms and of what runs after it. Gives the
nodes that are held back, in order, and the draft in which they are. -/
def splitRegions (job : Job) (owner : Nat) (arms : List (List Nat)) (rest : List Nat) (d : Draft) :
    List Nat × Draft :=
  let regions := arms.map (job.flowRegion d)
  let after := job.flowRegion d rest
  let joins := job.order.filter (shared (regions ++ [after]))
  let d := job.hoist owner ((walked regions after joins).map (job.dataNeeds d)) d
  let held := joins.filter fun v => !d.barriers.contains v
  (held, d.hold held)

end FlowScript.Job
