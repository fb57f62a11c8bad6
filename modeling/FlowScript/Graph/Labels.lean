import FlowScript.Graph.Links

/-!
# Labels of branches

The labels under which an execution edge leads into a branch of a conditional or the body of a loop.
-/

namespace FlowScript

/-- Labels of the branch that is taken when a condition holds. -/
def thenLabels : List String :=
  ["then", "true", "yes"]

/-- Labels of the branch that is taken when a condition fails. -/
def elseLabels : List String :=
  ["else", "false", "no"]

/-- Labels of the body of a loop. -/
def bodyLabels : List String :=
  ["body", "loop", "loop_body", "each", "do"]

/-- The targets of the branches of a node whose label is in a set, each once. -/
def FlowGraph.branchTargets (g : FlowGraph) (v : Nat) (labels : List String) : List Nat :=
  (((g.branches v).filter fun b => Text.labelIn labels b.1).map Prod.snd).eraseDups

end FlowScript
