import FlowScript.Graph.Links

/-!
# Groups of nodes that belong to one entry point

Every entry point draws together what runs after it and the values that these nodes read. A node
belongs to the first group that comes to it; a node that no entry point comes to is a group by
itself.
-/

namespace FlowScript

/-- A group of nodes in the order of their discovery. -/
structure Group where
  /-- The entry point, absent in a group that no entry point came to. -/
  entry : Option Nat
  members : List Nat
deriving DecidableEq, Repr

namespace FlowGraph

/-- Add a node and the values it reads, unless it is taken already. `budget` is at least the number
of nodes that are free. -/
def gatherData (g : FlowGraph) (taken : List Nat) : Nat → Nat → List Nat → List Nat
  | 0, _, members => members
  | budget + 1, v, members =>
    if taken.contains v || members.contains v then members
    else (g.dependencies v).foldl (fun ms d => gatherData g taken budget d ms) (members ++ [v])

/-- Add a node, the values it reads and what runs after it, unless it is taken already. -/
def gatherFlow (g : FlowGraph) (taken : List Nat) : Nat → Nat → List Nat → List Nat
  | 0, _, members => members
  | budget + 1, v, members =>
    if taken.contains v || members.contains v then members
    else
      let members := (g.dependencies v).foldl (fun ms d => gatherData g taken g.size d ms)
        (members ++ [v])
      (g.successors v).foldl (fun ms w => gatherFlow g taken budget w ms) members

/-- The nodes that groups hold. -/
def taken (groups : List Group) : List Nat :=
  groups.flatMap (·.members)

/-- Add the group of an entry point, unless another group holds it. -/
def addFlowGroup (g : FlowGraph) (groups : List Group) (entry : Nat) : List Group :=
  if (taken groups).contains entry then groups
  else groups ++ [⟨some entry, g.gatherFlow (taken groups) g.size entry []⟩]

/-- Add a group for a single node, unless another group holds it. -/
def addSingleGroup (groups : List Group) (v : Nat) : List Group :=
  if (taken groups).contains v then groups else groups ++ [⟨none, [v]⟩]

/-- The groups of a graph: those of its entry points, then the remaining nodes one by one. -/
def groups (g : FlowGraph) : List Group :=
  g.positions.foldl addSingleGroup (g.entryPoints.foldl g.addFlowGroup [])

/-- The group that holds a node. -/
def groupOf? (g : FlowGraph) (v : Nat) : Option Group :=
  g.groups.find? (·.members.contains v)

end FlowGraph

end FlowScript
