import FlowScript.Json.Value

/-!
# JSON texts as they are written

A form is the tree of a syntactically correct text. It keeps what the meaning drops: the order of
members, repeated keys, strings that name half of a surrogate pair, and numbers beyond every double.
Parts of a text that nothing reads may hold any form; the parts that are read must have a value.
-/

namespace FlowScript.Json

/-- The tree of a JSON text. A string or number without a value is kept as `none`. -/
inductive Form where
  | null
  | bool (value : Bool)
  | number (value : Option Number)
  | string (text : Option String)
  | array (items : List Form)
  | object (members : List (Option String × Form))
deriving Repr

/-- How deep arrays and objects may be nested in a text that is read. -/
def maxDepth : Nat := 127

mutual

/-- The value of a form that is nested at most `depth` deep, if every part of it has one. -/
def Form.value? (depth : Nat) : Form → Option Value
  | .null => some .null
  | .bool b => some (.bool b)
  | .number n => n.map .number
  | .string s => s.map .string
  | .array items => if depth = 0 then none else (itemValues? (depth - 1) items).map .array
  | .object members =>
    if depth = 0 then none
    else (memberValues? (depth - 1) members).map fun ms => .object (sortMembers ms)

/-- The values of array items. -/
def itemValues? (depth : Nat) : List Form → Option (List Value)
  | [] => some []
  | f :: rest => do
    let v ← f.value? depth
    let vs ← itemValues? depth rest
    some (v :: vs)

/-- The values of object members, in the order in which they are written. -/
def memberValues? (depth : Nat) : List (Option String × Form) → Option (List (String × Value))
  | [] => some []
  | (k, f) :: rest => do
    let k ← k
    let v ← f.value? depth
    let vs ← memberValues? depth rest
    some ((k, v) :: vs)

end

/-- The last member of an object with the given key. -/
def Form.member? (key : String) : Form → Option Form
  | .object members => (members.reverse.find? fun m => m.1 == some key).map Prod.snd
  | _ => none

end FlowScript.Json
