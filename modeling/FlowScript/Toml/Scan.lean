import FlowScript.Toml.Number

/-!
# Reading a TOML text

A text is a list of statements, one on a line: a header, or a key with its value. The statements are
read first and then carried out one after the other.
-/

namespace FlowScript.Toml

/-- A statement, with the path and the last part of its key. -/
inductive Statement where
  | assign (path : List String) (key : String) (value : Value)
  | table (path : List String) (key : String)
  | element (path : List String) (key : String)

/-- Skip blanks, line breaks and comments; `comment` says that a comment has begun. -/
def skipLayout : Bool → List Char → Option (List Char)
  | _, [] => some []
  | _, '\n' :: rest => skipLayout false rest
  | _, '\r' :: '\n' :: rest => skipLayout false rest
  | true, c :: rest => if isPrintable c then skipLayout true rest else none
  | false, c :: rest =>
    if isSpace c then skipLayout false rest
    else if c = '#' then skipLayout true rest
    else some (c :: rest)

/-- Skip the end of a line: blanks, a comment, and the line break or the end of the text. -/
def skipLineEnd (cs : List Char) : Option (List Char) :=
  let rest :=
    match skipSpace cs with
    | '#' :: rest => rest.dropWhile isPrintable
    | rest => rest
  match rest with
  | [] => some []
  | '\n' :: rest => some rest
  | '\r' :: '\n' :: rest => some rest
  | _ => none

/-- A value that holds no other values. -/
def scanScalar (cs : List Char) : Option (Value × List Char) :=
  match cs with
  | 't' :: 'r' :: 'u' :: 'e' :: rest => some (.boolean true, rest)
  | 'f' :: 'a' :: 'l' :: 's' :: 'e' :: rest => some (.boolean false, rest)
  | c :: _ =>
    if c = '"' ∨ c = '\'' then (scanString cs).map fun (s, rest) => (.string s, rest)
    else (scanMoment cs).or (scanNumber cs)
  | [] => none

/-- The items of an array after its opening bracket, with layout and commas between them; a comma
may follow the last. `bound` limits their number. -/
def scanItems (value : List Char → Option (Value × List Char)) :
    Nat → List Char → Option (List Value × List Char)
  | 0, _ => none
  | bound + 1, cs => do
    match ← skipLayout false cs with
    | ']' :: rest => some ([], rest)
    | rest => do
      let (v, rest) ← value rest
      match ← skipLayout false rest with
      | ']' :: rest => some ([v], rest)
      | ',' :: rest => do
        let (vs, rest) ← scanItems value bound rest
        some (v :: vs, rest)
      | _ => none

/-- A key, an equals sign and a value. -/
def scanAssignment (value : List Char → Option (Value × List Char)) (cs : List Char) :
    Option ((List String × String × Value) × List Char) := do
  let ((path, key), rest) ← scanKey maxKeyParts cs
  let (v, rest) ← value (skipSpace (← skipChar '=' rest))
  some ((path, key, v), rest)

/-- The assignments of an inline table, at least one, up to its closing brace; `bound` limits their
number. -/
def scanAssignments (value : List Char → Option (Value × List Char)) :
    Nat → List Char → Option (List (List String × String × Value) × List Char)
  | 0, _ => none
  | bound + 1, cs => do
    let (a, rest) ← scanAssignment value cs
    match skipSpace rest with
    | '}' :: rest => some ([a], rest)
    | ',' :: rest => do
      let (as, rest) ← scanAssignments value bound rest
      some (a :: as, rest)
    | _ => none

/-- An inline table after its opening brace. -/
def scanInline (value : List Char → Option (Value × List Char)) (cs : List Char) :
    Option (Value × List Char) :=
  match skipSpace cs with
  | '}' :: rest => some (.table .inline [], rest)
  | rest => do
    let (as, rest) ← scanAssignments value rest.length rest
    let entries ← as.foldlM (fun (es : Entries) (path, key, v) => es.assign path key v) []
    some (.table .inline entries, rest)

/-- How deep arrays and inline tables may be nested. -/
def maxNesting : Nat := 79

/-- A value that is nested at most so deep. -/
def scanValue : Nat → List Char → Option (Value × List Char)
  | 0, cs => scanScalar cs
  | depth + 1, cs =>
    match cs with
    | '[' :: rest => (scanItems (scanValue depth) cs.length rest).map fun (vs, rest) =>
      (.array vs, rest)
    | '{' :: rest => scanInline (scanValue depth) rest
    | cs => scanScalar cs

/-- A statement, without the end of its line. -/
def scanStatement (cs : List Char) : Option (Statement × List Char) :=
  match cs with
  | '[' :: '[' :: rest => do
    let ((path, key), rest) ← scanKey maxKeyParts rest
    some (.element path key, ← skipChar ']' (← skipChar ']' rest))
  | '[' :: rest => do
    let ((path, key), rest) ← scanKey maxKeyParts rest
    some (.table path key, ← skipChar ']' rest)
  | cs => do
    let ((path, key, v), rest) ← scanAssignment (scanValue maxNesting) cs
    some (.assign path key v, rest)

/-- The statements of a text; `bound` limits their number. -/
def scanStatements : Nat → List Char → Option (List Statement)
  | 0, _ => none
  | bound + 1, cs => do
    match ← skipLayout false cs with
    | [] => some []
    | rest => do
      let (s, rest) ← scanStatement rest
      let statements ← scanStatements bound (← skipLineEnd rest)
      some (s :: statements)

/-- A document that is being put together, with the path of the header that is open. -/
structure Document where
  entries : Entries
  header : List String

/-- Carry out a statement. -/
def Document.perform (d : Document) : Statement → Option Document
  | .assign path key v =>
    (d.entries.change false (fun _ es => es.assign path key v) d.header .header).map fun es =>
      { d with entries := es }
  | .table path key => (d.entries.openTable path key).map fun es => ⟨es, path ++ [key]⟩
  | .element path key => (d.entries.openElement path key).map fun es => ⟨es, path ++ [key]⟩

/-- The text without the mark of its encoding. -/
def skipMark : List Char → List Char
  | '\uFEFF' :: rest => rest
  | cs => cs

/-- The entries of a text. -/
def Entries.parse? (text : String) : Option Entries := do
  let cs := skipMark text.toList
  let statements ← scanStatements (cs.length + 1) cs
  let d ← statements.foldlM Document.perform ⟨[], []⟩
  some d.entries

end FlowScript.Toml
