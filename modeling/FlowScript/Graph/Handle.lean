/-!
# Handles

An edge is attached to a handle of a node. The text of a handle starts with a mark for its role, and
the rest is the id of a port; a text without a mark is the id of a port as a whole.
-/

namespace FlowScript

/-- The role of a handle. -/
inductive Role where
  | input
  | output
  | executionInput
  | executionOutput
  | raw
deriving DecidableEq, Repr

/-- The mark at the front of a handle's text. -/
def Role.mark : Role → String
  | .input => "input-"
  | .output => "output-"
  | .executionInput => "exec-input-"
  | .executionOutput => "exec-output-"
  | .raw => ""

/-- Whether the flow of execution passes through handles of this role. -/
def Role.isExecution : Role → Bool
  | .executionInput | .executionOutput => true
  | _ => false

/-- A handle: its role and the id of its port. -/
structure Handle where
  role : Role
  port : String
deriving DecidableEq, Repr

/-- The text of a handle. -/
def Handle.text (h : Handle) : String :=
  h.role.mark ++ h.port

/-- What follows a mark, if the text starts with it. -/
def afterMark? (mark text : String) : Option String :=
  if mark.toList.isPrefixOf text.toList then
    some (String.ofList (text.toList.drop mark.toList.length))
  else none

/-- The handle that a text denotes: the first role whose mark it starts with. -/
def Handle.parse (text : String) : Handle :=
  let marked := [Role.executionInput, .executionOutput, .input, .output].findSome? fun role =>
    (afterMark? role.mark text).map (Handle.mk role)
  marked.getD ⟨.raw, text⟩

end FlowScript
