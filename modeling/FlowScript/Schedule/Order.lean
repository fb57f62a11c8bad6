import FlowScript.Graph.Links

/-!
# The order in which nodes are worked off

A depth-first walk puts every node after the nodes whose values it reads and after the nodes that
run before it. An edge back to a node that is still being worked on closes a cycle: it is recorded
and otherwise ignored, so that every node is still put in order once.
-/

namespace FlowScript

/-- An edge that closes a cycle: a node met again, and the node that depends on it. -/
structure BackEdge where
  node : Nat
  via : Nat
deriving DecidableEq, Repr

/-- The nodes in order, and the edges that were ignored for it. -/
structure Schedule where
  order : List Nat
  cycles : List BackEdge
deriving DecidableEq, Repr

namespace Schedule

/-- Record an edge that closes a cycle. -/
def closeCycle (s : Schedule) (node via : Nat) : Schedule :=
  { s with cycles := s.cycles ++ [⟨node, via⟩] }

/-- Put a node at the end of the order. -/
def finish (s : Schedule) (v : Nat) : Schedule :=
  { s with order := s.order ++ [v] }

/-- Work off a node after everything it needs. `path` holds the nodes that are being worked on, and
`budget` is at least the number of the others. -/
def visit (needs : Nat → List Nat) : Nat → List Nat → Nat → Schedule → Schedule
  | 0, _, _, s => s
  | budget + 1, path, v, s =>
    if path.contains v || s.order.contains v then s
    else
      let s := (needs v).foldl (fun s d =>
        if s.order.contains d then s
        else if (v :: path).contains d then s.closeCycle d v
        else visit needs budget (v :: path) d s) s
      s.finish v

/-- Work off all nodes below `size`, in their own order. -/
def ofNeeds (size : Nat) (needs : Nat → List Nat) : Schedule :=
  (List.range size).foldl (fun s v => visit needs size [] v s) ⟨[], []⟩

end Schedule

namespace FlowGraph

/-- What a node needs before it: the nodes whose values it reads, then the nodes it runs after. -/
def needs (g : FlowGraph) (v : Nat) : List Nat :=
  g.dependencies v ++ g.predecessors v

/-- The schedule of a graph. -/
def schedule (g : FlowGraph) : Schedule :=
  Schedule.ofNeeds g.size g.needs

end FlowGraph

end FlowScript
