import FlowScript.Graph.Basic

/-!
# Names of variables

A node's variable is named after its label and its id. Nodes are named in the order of their
declaration, and a name that is taken gets the least number from two on that makes it new.
-/

namespace FlowScript.Naming

/-- A name from a label and an id, with letters and digits joined by underscores. -/
def nameFor (label id : String) : String :=
  let base := Text.snake (Text.lower label)
  let base := if base.isEmpty then "node" else base
  let suffix := Text.snake id
  let name := if suffix.isEmpty then base else base ++ "_" ++ suffix
  if Text.startsWithDigit name then "n_" ++ name else name

/-- The name of a node's variable before names are told apart. -/
def ofNode (n : Node) : String :=
  nameFor n.label n.id

/-- The first free name among a base and the base with a number from two on. -/
def fresh (taken : List String) (base : String) : String :=
  if taken.contains base then
    (((List.range (taken.length + 1)).map fun k => base ++ "_" ++ toString (k + 2)).find?
      fun name => !taken.contains name).getD base
  else base

/-- Give every node a name that no node before it has. -/
def assign (nodes : List Node) : List String :=
  nodes.foldl (fun taken n => taken ++ [fresh taken (ofNode n)]) []

/-- The identifier that a text makes, if it makes one. -/
def identifier? (text : String) : Option String :=
  let name := Text.snake text
  if name.isEmpty || Text.startsWithDigit name then none else some name

end FlowScript.Naming
