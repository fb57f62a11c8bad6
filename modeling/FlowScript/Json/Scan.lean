import FlowScript.Json.Form

/-!
# Reading a JSON text

The grammar is strict: no comments, no trailing commas, no text after the value, and no control
character inside a string. Every scanner takes the characters that remain and returns what it read
with the characters after it.
-/

namespace FlowScript.Json

/-- The blanks that may stand between the parts of a text. -/
def isSpace (c : Char) : Bool :=
  c == ' ' || c == '\n' || c == '\r' || c == '\t'

/-- Skip blanks. -/
def skipSpace (cs : List Char) : List Char :=
  cs.dropWhile isSpace

/-- The value of a decimal digit. -/
def digitValue (c : Char) : Nat :=
  c.toNat - 48

/-- The value of a hexadecimal digit of either case. -/
def hexValue (c : Char) : Option Nat :=
  if c.isDigit then some (c.toNat - 48)
  else if 'a' ≤ c ∧ c ≤ 'f' then some (c.toNat - 87)
  else if 'A' ≤ c ∧ c ≤ 'F' then some (c.toNat - 55)
  else none

/-- One unit of a string: a character, or the code that a `\u` escape names. -/
inductive StringUnit where
  | char (c : Char)
  | code (n : Nat)
deriving DecidableEq, Repr

/-- The character of an escape with one letter. -/
def escapeChar (c : Char) : Option Char :=
  if c = '"' ∨ c = '\\' ∨ c = '/' then some c
  else if c = 'b' then some '\x08'
  else if c = 'f' then some '\x0c'
  else if c = 'n' then some '\n'
  else if c = 'r' then some '\r'
  else if c = 't' then some '\t'
  else none

/-- Put a unit in front of the units read after it. -/
def consUnit (u : StringUnit) (r : List StringUnit × List Char) : List StringUnit × List Char :=
  (u :: r.1, r.2)

/-- The units of a string up to its closing quote; the opening quote has been read. -/
def scanUnits : List Char → Option (List StringUnit × List Char)
  | [] => none
  | '"' :: rest => some ([], rest)
  | '\\' :: 'u' :: a :: b :: c :: d :: rest => do
    let a ← hexValue a
    let b ← hexValue b
    let c ← hexValue c
    let d ← hexValue d
    (scanUnits rest).map (consUnit (.code (((a * 16 + b) * 16 + c) * 16 + d)))
  | '\\' :: c :: rest => do
    let e ← escapeChar c
    (scanUnits rest).map (consUnit (.char e))
  | c :: rest => if c.toNat < 32 ∨ c = '\\' then none else (scanUnits rest).map (consUnit (.char c))

/-- Whether a code is the first half of a surrogate pair. -/
def isHighHalf (n : Nat) : Bool :=
  0xD800 ≤ n && n ≤ 0xDBFF

/-- Whether a code is the second half of a surrogate pair. -/
def isLowHalf (n : Nat) : Bool :=
  0xDC00 ≤ n && n ≤ 0xDFFF

/-- The characters of a string's units, absent when a half of a surrogate pair stands alone. -/
def joinUnits : List StringUnit → Option (List Char)
  | [] => some []
  | .char c :: rest => (joinUnits rest).map (c :: ·)
  | .code n :: .code m :: rest =>
    if isHighHalf n && isLowHalf m then
      (joinUnits rest).map (Char.ofNat (0x10000 + (n - 0xD800) * 0x400 + (m - 0xDC00)) :: ·)
    else if isHighHalf n || isLowHalf n then none
    else (joinUnits (.code m :: rest)).map (Char.ofNat n :: ·)
  | .code n :: rest =>
    if isHighHalf n || isLowHalf n then none else (joinUnits rest).map (Char.ofNat n :: ·)

/-- A string after its opening quote: its text if it has one. -/
def scanString (cs : List Char) : Option (Option String × List Char) := do
  let (units, rest) ← scanUnits cs
  some ((joinUnits units).map String.ofList, rest)

/-- The values of the digits at the front of a text. -/
def scanDigits (cs : List Char) : List Nat × List Char :=
  ((cs.takeWhile Char.isDigit).map digitValue, cs.dropWhile Char.isDigit)

/-- The digits before the point: a single zero, or digits that start with another one. -/
def scanWhole (cs : List Char) : Option (List Nat × List Char) :=
  match scanDigits cs with
  | ([], _) => none
  | (0 :: _ :: _, _) => none
  | (ds, rest) => some (ds, rest)

/-- The digits after a point, if there is one. -/
def scanFraction : List Char → Option (List Nat × List Char)
  | '.' :: cs =>
    match scanDigits cs with
    | ([], _) => none
    | (ds, rest) => some (ds, rest)
  | cs => some ([], cs)

/-- The sign of an exponent, true if it is negative. -/
def scanSign : List Char → Bool × List Char
  | '+' :: cs => (false, cs)
  | '-' :: cs => (true, cs)
  | cs => (false, cs)

/-- An exponent, if there is one. -/
def scanExponent : List Char → Option (Option (Bool × List Nat) × List Char)
  | c :: cs =>
    if c = 'e' ∨ c = 'E' then
      let (down, cs) := scanSign cs
      match scanDigits cs with
      | ([], _) => none
      | (ds, rest) => some (some (down, ds), rest)
    else some (none, c :: cs)
  | [] => some (none, [])

/-- A number after its sign. -/
def scanNumber (negative : Bool) (cs : List Char) : Option (Form × List Char) := do
  let (whole, cs) ← scanWhole cs
  let (fraction, cs) ← scanFraction cs
  let (exponent, cs) ← scanExponent cs
  some (.number (Literal.value ⟨negative, whole, fraction, exponent⟩), cs)

/-- One or more parts with commas between them, up to the closing character; `bound` limits their
number. -/
def scanSeparated {α : Type} (part : List Char → Option (α × List Char)) (close : Char) :
    Nat → List Char → Option (List α × List Char)
  | 0, _ => none
  | bound + 1, cs => do
    let (a, rest) ← part cs
    match skipSpace rest with
    | c :: rest =>
      if c = close then some ([a], rest)
      else if c = ',' then do
        let (as, rest) ← scanSeparated part close bound rest
        some (a :: as, rest)
      else none
    | [] => none

/-- A list of parts after its opening character. -/
def scanList {α : Type} (part : List Char → Option (α × List Char)) (close : Char)
    (cs : List Char) : Option (List α × List Char) :=
  match skipSpace cs with
  | [] => none
  | c :: rest => if c = close then some ([], rest) else scanSeparated part close cs.length cs

/-- An object member: a string, a colon and a form. -/
def scanMember (form : List Char → Option (Form × List Char)) (cs : List Char) :
    Option ((Option String × Form) × List Char) :=
  match skipSpace cs with
  | '"' :: rest => do
    let (key, rest) ← scanString rest
    match skipSpace rest with
    | ':' :: rest => do
      let (f, rest) ← form rest
      some ((key, f), rest)
    | _ => none
  | _ => none

/-- One form, with blanks in front of it; `depth` limits how deep it may be nested. -/
def scanForm : Nat → List Char → Option (Form × List Char)
  | 0, _ => none
  | depth + 1, cs =>
    match skipSpace cs with
    | 'n' :: 'u' :: 'l' :: 'l' :: rest => some (.null, rest)
    | 't' :: 'r' :: 'u' :: 'e' :: rest => some (.bool true, rest)
    | 'f' :: 'a' :: 'l' :: 's' :: 'e' :: rest => some (.bool false, rest)
    | '"' :: rest => (scanString rest).map fun (s, rest) => (.string s, rest)
    | '[' :: rest => (scanList (scanForm depth) ']' rest).map fun (fs, rest) => (.array fs, rest)
    | '{' :: rest =>
      (scanList (scanMember (scanForm depth)) '}' rest).map fun (ms, rest) => (.object ms, rest)
    | '-' :: rest => scanNumber true rest
    | rest => scanNumber false rest

/-- The form of a whole text. -/
def Form.parse? (text : String) : Option Form :=
  let cs := text.toList
  match scanForm (cs.length + 1) cs with
  | some (f, rest) => if (skipSpace rest).isEmpty then some f else none
  | none => none

/-- The value of a whole text. -/
def Value.parse? (text : String) : Option Value :=
  (Form.parse? text).bind (Form.value? maxDepth)

end FlowScript.Json
