import FlowScript.Lint.Connections
import FlowScript.Lint.Structure

/-!
# All findings about a graph

The structural findings, then those about connections. Nothing here stands in the way of generating
a program.
-/

namespace FlowScript.Lint

/-- Every finding about a graph under the given type rules. -/
def findings (rules : TypeRules) (g : FlowGraph) : List Diagnostic :=
  structural g ++ connections rules g

end FlowScript.Lint
