/-!
# Reachability through admitted nodes

The nodes that a walk can come to when it starts at given nodes, follows the steps of a graph and
passes only through nodes that are admitted, its first and last node included.
-/

namespace FlowScript

/-- Extend `seen` by the admitted nodes of the frontier and by what they lead to; every round but
the last finds a new node, so `rounds` may be the number of nodes. -/
def reachFrom (step : Nat → List Nat) (admits : Nat → Bool) :
    Nat → List Nat → List Nat → List Nat
  | 0, _, seen => seen
  | rounds + 1, frontier, seen =>
    let fresh := (frontier.filter fun v => admits v && !seen.contains v).eraseDups
    if fresh.isEmpty then seen
    else reachFrom step admits rounds (fresh.flatMap step) (seen ++ fresh)

/-- The nodes that can be reached from `starts` through admitted nodes, in a graph of `size`
nodes. -/
def reach (size : Nat) (step : Nat → List Nat) (admits : Nat → Bool) (starts : List Nat) :
    List Nat :=
  reachFrom step admits size starts []

end FlowScript
