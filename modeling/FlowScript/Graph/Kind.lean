import FlowScript.Document.Basic
import FlowScript.Text.Word

/-!
# The kind of a node

A declared kind stands. Otherwise the words of the category decide between input and output, and
the words of category and label between the remaining kinds.
-/

namespace FlowScript.Kind

/-- Whether nodes of this kind shape the flow of execution. -/
def isControl : Kind → Bool
  | .conditional | .loop => true
  | _ => false

/-- Whether one of the given words occurs. -/
def mentions (ws : List String) (set : List String) : Bool :=
  ws.any set.contains

/-- The kind that the words of a category and a label suggest. -/
def ofWords (category label : List String) : Kind :=
  let all := category ++ label
  if mentions category ["input", "inputs"] then .input
  else if mentions category ["output", "outputs"] then .output
  else if mentions all ["if", "branch", "condition", "conditional"] then .conditional
  else if mentions all ["for", "foreach", "loop", "each"] then .loop
  else if mentions all ["start", "begin", "entry"] then .start
  else if mentions all ["end", "finish", "exit"] then .finish
  else .plain

/-- The kind of a node with the given declaration, category and label. -/
def classify (declared : Option Kind) (category : Option String) (label : String) : Kind :=
  declared.getD (ofWords (Text.words (category.getD "")) (Text.words label))

end FlowScript.Kind
