import FlowScript.Toml.Table

/-!
# Strings and keys of a TOML text

Every scanner takes the characters that remain and returns what it read with the characters after
it.
-/

namespace FlowScript.Toml

/-- Blanks within a line. -/
def isSpace (c : Char) : Bool :=
  c == ' ' || c == '\t'

/-- Skip blanks within a line. -/
def skipSpace (cs : List Char) : List Char :=
  cs.dropWhile isSpace

/-- Characters that may stand in comments and strings: no control character but the tab. -/
def isPrintable (c : Char) : Bool :=
  c == '\t' || (32 ≤ c.toNat && c.toNat ≠ 127)

/-- The value of a hexadecimal digit of either case. -/
def hexValue (c : Char) : Option Nat :=
  if c.isDigit then some (c.toNat - 48)
  else if 'a' ≤ c ∧ c ≤ 'f' then some (c.toNat - 87)
  else if 'A' ≤ c ∧ c ≤ 'F' then some (c.toNat - 55)
  else none

/-- The character with the code that some hexadecimal digits name. -/
def hexChar (digits : List Char) : Option Char := do
  let values ← digits.mapM hexValue
  let code := values.foldl (fun n d => n * 16 + d) 0
  if code.isValidChar then some (Char.ofNat code) else none

/-- The character of an escape with one letter. -/
def escapeChar (c : Char) : Option Char :=
  if c = '"' ∨ c = '\\' then some c
  else if c = 'b' then some '\x08'
  else if c = 'f' then some '\x0c'
  else if c = 'n' then some '\n'
  else if c = 'r' then some '\r'
  else if c = 't' then some '\t'
  else none

/-- Put a character in front of those read after it. -/
def consChar (c : Char) (r : List Char × List Char) : List Char × List Char :=
  (c :: r.1, r.2)

/-- A basic string after its opening quote. -/
def scanBasic : List Char → Option (List Char × List Char)
  | [] => none
  | '"' :: rest => some ([], rest)
  | '\\' :: 'u' :: a :: b :: c :: d :: rest => do
    let e ← hexChar [a, b, c, d]
    (scanBasic rest).map (consChar e)
  | '\\' :: 'U' :: a :: b :: c :: d :: e :: f :: g :: h :: rest => do
    let e ← hexChar [a, b, c, d, e, f, g, h]
    (scanBasic rest).map (consChar e)
  | '\\' :: c :: rest => do
    let e ← escapeChar c
    (scanBasic rest).map (consChar e)
  | c :: rest => if isPrintable c && c != '\\' then (scanBasic rest).map (consChar c) else none

/-- A literal string after its opening apostrophe. -/
def scanLiteral : List Char → Option (List Char × List Char)
  | [] => none
  | c :: rest =>
    if c = '\'' then some ([], rest)
    else if isPrintable c then (scanLiteral rest).map (consChar c)
    else none

/-- Skip the line break right after the opening of a string of several lines. -/
def skipFirstBreak : List Char → List Char
  | '\n' :: rest => rest
  | '\r' :: '\n' :: rest => rest
  | cs => cs

/-- Where a scanner of a string of several lines stands. -/
inductive LinePlace where
  /-- Within the text. -/
  | text
  /-- After a backslash that hides the line break to come. -/
  | hiding
  /-- After a hidden line break, where blanks and line breaks are skipped. -/
  | skipping
deriving DecidableEq, Repr

/-- A basic string of several lines after its opening. One or two quotes may stand anywhere, also
right before the closing ones. A backslash at the end of a line hides the line break and all blanks
and line breaks after it. -/
def scanBasicLines : LinePlace → List Char → Option (List Char × List Char)
  | .hiding, '\n' :: rest => scanBasicLines .skipping rest
  | .hiding, '\r' :: '\n' :: rest => scanBasicLines .skipping rest
  | .hiding, c :: rest => if isSpace c then scanBasicLines .hiding rest else none
  | .skipping, '\n' :: rest => scanBasicLines .skipping rest
  | .skipping, '\r' :: '\n' :: rest => scanBasicLines .skipping rest
  | .skipping, ' ' :: rest => scanBasicLines .skipping rest
  | .skipping, '\t' :: rest => scanBasicLines .skipping rest
  | _, '"' :: '"' :: '"' :: '"' :: '"' :: rest => some (['"', '"'], rest)
  | _, '"' :: '"' :: '"' :: '"' :: rest => some (['"'], rest)
  | _, '"' :: '"' :: '"' :: rest => some ([], rest)
  | _, '\n' :: rest => (scanBasicLines .text rest).map (consChar '\n')
  | _, '\r' :: '\n' :: rest => (scanBasicLines .text rest).map (consChar '\n')
  | _, '\\' :: 'u' :: a :: b :: c :: d :: rest => do
    let e ← hexChar [a, b, c, d]
    (scanBasicLines .text rest).map (consChar e)
  | _, '\\' :: 'U' :: a :: b :: c :: d :: e :: f :: g :: h :: rest => do
    let e ← hexChar [a, b, c, d, e, f, g, h]
    (scanBasicLines .text rest).map (consChar e)
  | _, '\\' :: c :: rest =>
    match escapeChar c with
    | some e => (scanBasicLines .text rest).map (consChar e)
    | none => scanBasicLines .hiding (c :: rest)
  | _, c :: rest =>
    if isPrintable c && c != '\\' then (scanBasicLines .text rest).map (consChar c) else none
  | _, [] => none

/-- A literal string of several lines after its opening. -/
def scanLiteralLines : List Char → Option (List Char × List Char)
  | '\'' :: '\'' :: '\'' :: '\'' :: '\'' :: rest => some (['\'', '\''], rest)
  | '\'' :: '\'' :: '\'' :: '\'' :: rest => some (['\''], rest)
  | '\'' :: '\'' :: '\'' :: rest => some ([], rest)
  | '\n' :: rest => (scanLiteralLines rest).map (consChar '\n')
  | '\r' :: '\n' :: rest => (scanLiteralLines rest).map (consChar '\n')
  | c :: rest => if isPrintable c then (scanLiteralLines rest).map (consChar c) else none
  | [] => none

/-- A string of any of the four forms. -/
def scanString : List Char → Option (String × List Char)
  | '"' :: '"' :: '"' :: rest => (scanBasicLines .text (skipFirstBreak rest)).map fun (s, rest) =>
    (String.ofList s, rest)
  | '"' :: rest => (scanBasic rest).map fun (s, rest) => (String.ofList s, rest)
  | '\'' :: '\'' :: '\'' :: rest => (scanLiteralLines (skipFirstBreak rest)).map fun (s, rest) =>
    (String.ofList s, rest)
  | '\'' :: rest => (scanLiteral rest).map fun (s, rest) => (String.ofList s, rest)
  | _ => none

/-- Characters of a key without quotes. -/
def isKeyChar (c : Char) : Bool :=
  c.isAlphanum || c == '-' || c == '_'

/-- One part of a key, without quotes or as a string on one line. -/
def scanKeyPart : List Char → Option (String × List Char)
  | '"' :: rest => (scanBasic rest).map fun (s, rest) => (String.ofList s, rest)
  | '\'' :: rest => (scanLiteral rest).map fun (s, rest) => (String.ofList s, rest)
  | cs =>
    let part := cs.takeWhile isKeyChar
    if part.isEmpty then none else some (String.ofList part, cs.dropWhile isKeyChar)

/-- How many parts a key may have. -/
def maxKeyParts : Nat := 79

/-- The parts of a dotted key, with blanks around each of them; `bound` limits their number. Gives
the path and the last part. -/
def scanKey : Nat → List Char → Option ((List String × String) × List Char)
  | 0, _ => none
  | bound + 1, cs => do
    let (part, rest) ← scanKeyPart (skipSpace cs)
    match skipSpace rest with
    | '.' :: rest => do
      let ((path, last), rest) ← scanKey bound rest
      some ((part :: path, last), rest)
    | rest => some (([], part), rest)

end FlowScript.Toml
