import FlowScript.Json.Scan

/-!
# Records in a JSON text

A record is written as an object, or as an array of its fields in the order of their declaration.
In an object, unknown keys are skipped and a field must not be given twice. In an array, fields may
be left off at the end. What a missing field means is decided by the reader of that field.
-/

namespace FlowScript.Record

open FlowScript.Json (Form Value)

/-- The members of an object whose keys are all readable. -/
def keyed : List (Option String × Form) → Option (List (String × Form))
  | [] => some []
  | (k, f) :: rest => do
    let k ← k
    let ms ← keyed rest
    some ((k, f) :: ms)

/-- The one member under any of a field's names, absent if there is none; two are an error. -/
def slot (members : List (String × Form)) (names : List String) : Option (Option Form) :=
  match members.filter fun m => names.contains m.1 with
  | [] => some none
  | [m] => some (some m.2)
  | _ => none

/-- What is written for each field of a record, given the names that each field goes by. -/
def slots (fields : List (List String)) : Form → Option (List (Option Form))
  | .object members => do
    let ms ← keyed members
    fields.mapM (slot ms)
  | .array items =>
    if items.length ≤ fields.length then
      some (items.map some ++ List.replicate (fields.length - items.length) none)
    else none
  | _ => none

/-- A field that must be present. -/
def required {α : Type} (read : Form → Option α) (written : Option Form) : Option α :=
  written.bind read

/-- A field with a value of its own when it is absent. -/
def orElse {α : Type} (read : Form → Option α) (absent : α) : Option Form → Option α
  | none => some absent
  | some f => read f

/-- A field that may be absent; `null` says the same. -/
def optional {α : Type} (read : Form → Option α) : Option Form → Option (Option α)
  | none => some none
  | some .null => some none
  | some f => (read f).map some

/-- A string. -/
def string : Form → Option String
  | .string s => s
  | _ => none

/-- A truth value. -/
def bool : Form → Option Bool
  | .bool b => some b
  | _ => none

/-- An array of parts. -/
def list {α : Type} (read : Form → Option α) : Form → Option (List α)
  | .array items => items.mapM read
  | _ => none

/-- A name, written as a string or as the only key of an object whose member is `null`. -/
def name : Form → Option String
  | .string s => s
  | .object [(k, .null)] => k
  | _ => none

/-- One of a closed list of names. -/
def choice {α : Type} (names : List (String × α)) (f : Form) : Option α :=
  (name f).bind fun n => names.lookup n

end FlowScript.Record
