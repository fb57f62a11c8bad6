import FlowScript.Diagnostic
import FlowScript.Schedule.Order

/-!
# Reports about cycles

One warning for every edge that the schedule ignores because it closes a cycle.
-/

namespace FlowScript.FlowGraph

/-- The warning about an edge that closes a cycle. -/
def cycleReport (g : FlowGraph) (c : BackEdge) : Diagnostic :=
  Diagnostic.forNode .dependencyCycle
    ("Dependency cycle detected at node '" ++ g.idAt c.node ++ "' (reached from '" ++
      g.idAt c.via ++ "')")
    (g.idAt c.node) (((g.node? c.node).map (·.label)).getD "")

/-- The warnings about all cycles of a schedule. -/
def cycleReports (g : FlowGraph) (s : Schedule) : List Diagnostic :=
  s.cycles.map g.cycleReport

end FlowScript.FlowGraph
