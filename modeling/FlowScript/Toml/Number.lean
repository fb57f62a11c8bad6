import FlowScript.Toml.Text

/-!
# Numbers and moments of a TOML text

Scanners of numbers and moments give the written form. An integer must fit 64 bits with a sign, and
a number with a fraction or an exponent must not exceed every double. A moment must exist in the
calendar.
-/

namespace FlowScript.Toml

/-- Digits with single underscores between them, given as the digits alone. -/
def scanGrouped (isDigit : Char → Bool) : List Char → Option (List Char × List Char)
  | [] => none
  | [c] => if isDigit c then some ([c], []) else none
  | c :: next :: rest =>
    if !isDigit c then none
    else if next = '_' then (scanGrouped isDigit rest).map (consChar c)
    else if isDigit next then (scanGrouped isDigit (next :: rest)).map (consChar c)
    else some ([c], next :: rest)

/-- A sign, true if it is negative, if there is one. -/
def scanSign : List Char → Option Bool × List Char
  | '+' :: rest => (some false, rest)
  | '-' :: rest => (some true, rest)
  | cs => (none, cs)

/-- The value of digits in a base. -/
def digitsValue (base : Nat) (digits : List Char) : Nat :=
  digits.foldl (fun n c => n * base + (hexValue c).getD 0) 0

/-- Whether a digit belongs to a base. -/
def isDigitOf (base : Nat) (c : Char) : Bool :=
  match hexValue c with
  | some d => d < base
  | none => false

/-- The base that a letter after a zero stands for. -/
def baseOf (c : Char) : Option Nat :=
  if c = 'x' then some 16 else if c = 'o' then some 8 else if c = 'b' then some 2 else none

/-- An integer in another base than ten, after the zero and the letter of the base. -/
def scanBased (base : Nat) (cs : List Char) : Option (Value × List Char) := do
  let (digits, rest) ← scanGrouped (isDigitOf base) cs
  let n := digitsValue base digits
  if n < Nat.pow 2 63 then some (.number (toString n), rest) else none

/-- The digits before the point: a single zero, or digits that start with another one. -/
def scanWhole : List Char → Option (List Char × List Char)
  | '0' :: rest => some (['0'], rest)
  | cs => scanGrouped Char.isDigit cs

/-- The digits after a point, if there is one. -/
def scanFraction : List Char → Option (List Char × List Char)
  | '.' :: rest => scanGrouped Char.isDigit rest
  | cs => some ([], cs)

/-- An exponent, if there is one. -/
def scanExponent : List Char → Option (Option Int × List Char)
  | c :: rest =>
    if c = 'e' ∨ c = 'E' then do
      let (sign, rest) := scanSign rest
      let (digits, rest) ← scanGrouped Char.isDigit rest
      let e : Int := digitsValue 10 digits
      some (some (if sign = some true then -e else e), rest)
    else some (none, c :: rest)
  | [] => some (none, [])

/-- Whether the decimal `significand * 10 ^ e` is rounded to a value above every double: it is at
least half a unit in the last place above the largest double. The exponent alone decides when it is
far from the range of doubles. -/
def overflows (significand : Nat) (e : Int) : Bool :=
  let limit := Nat.pow 2 1024 - Nat.pow 2 970
  if significand = 0 then false
  else if e < 0 then
    let digits := (toString significand).length
    (309 : Int) ≤ digits + e && limit * Nat.pow 10 e.natAbs ≤ significand
  else (310 : Int) ≤ e || limit ≤ significand * Nat.pow 10 e.toNat

/-- A decimal number. A fraction or an exponent makes it a double; above the range of doubles only
negative ones are read. -/
def scanDecimal (cs : List Char) : Option (Value × List Char) := do
  let (sign, cs) := scanSign cs
  let negative := sign = some true
  let (whole, cs) ← scanWhole cs
  let (fraction, cs) ← scanFraction cs
  let (exponent, cs) ← scanExponent cs
  let n := digitsValue 10 (whole ++ fraction)
  let mark := if negative then "-" else ""
  if fraction.isEmpty ∧ exponent.isNone then
    if n < Nat.pow 2 63 ∨ (negative ∧ n = Nat.pow 2 63) then some (.number (mark ++ toString n), cs)
    else none
  else
    let e := exponent.getD 0 - fraction.length
    if negative ∨ ¬ overflows n e then
      some (.number (mark ++ toString n ++ "e" ++ toString e), cs)
    else none

/-- Infinity or the number that is none, with or without a sign. -/
def scanSpecial (cs : List Char) : Option (Value × List Char) :=
  match (scanSign cs).2 with
  | 'i' :: 'n' :: 'f' :: rest => some (.number "inf", rest)
  | 'n' :: 'a' :: 'n' :: rest => some (.number "nan", rest)
  | _ => none

/-- A number of any form. -/
def scanNumber : List Char → Option (Value × List Char)
  | '0' :: c :: rest =>
    match baseOf c with
    | some base => scanBased base rest
    | none => scanDecimal ('0' :: c :: rest)
  | cs => (scanSpecial cs).or (scanDecimal cs)

/-- The value of a number with a fixed count of digits. -/
def scanFixed (count : Nat) (cs : List Char) : Option (Nat × List Char) :=
  let digits := cs.take count
  if digits.length = count ∧ digits.all Char.isDigit then
    some (digitsValue 10 digits, cs.drop count)
  else none

/-- Two digits whose value lies between two bounds. -/
def scanPair (low high : Nat) (cs : List Char) : Option (Nat × List Char) := do
  let (n, rest) ← scanFixed 2 cs
  if low ≤ n ∧ n ≤ high then some (n, rest) else none

/-- Skip a given character. -/
def skipChar (c : Char) : List Char → Option (List Char)
  | [] => none
  | d :: rest => if d = c then some rest else none

/-- The number of days of a month. -/
def daysIn (year month : Nat) : Nat :=
  if month = 2 then
    if year % 4 = 0 ∧ (year % 100 ≠ 0 ∨ year % 400 = 0) then 29 else 28
  else if month = 4 ∨ month = 6 ∨ month = 9 ∨ month = 11 then 30
  else 31

/-- Skip a date. -/
def skipDate (cs : List Char) : Option (List Char) := do
  let (year, cs) ← scanFixed 4 cs
  let (month, cs) ← scanPair 1 12 (← skipChar '-' cs)
  let (_, cs) ← scanPair 1 (daysIn year month) (← skipChar '-' cs)
  some cs

/-- Skip the fraction of a second, if there is one. -/
def skipFraction (cs : List Char) : List Char :=
  match cs with
  | '.' :: c :: rest => if c.isDigit then rest.dropWhile Char.isDigit else cs
  | _ => cs

/-- Skip a time of day. A minute may have a leap second. -/
def skipTime (cs : List Char) : Option (List Char) := do
  let (_, cs) ← scanPair 0 23 cs
  let (_, cs) ← scanPair 0 59 (← skipChar ':' cs)
  let (_, cs) ← scanPair 0 60 (← skipChar ':' cs)
  some (skipFraction cs)

/-- Skip the offset of a time zone, if there is one. -/
def skipOffset (cs : List Char) : Option (List Char) :=
  match cs with
  | [] => some []
  | c :: rest =>
    if c = 'Z' ∨ c = 'z' then some rest
    else if c = '+' ∨ c = '-' then do
      let (_, rest) ← scanPair 0 23 rest
      let (_, rest) ← scanPair 0 59 (← skipChar ':' rest)
      some rest
    else some cs

/-- Skip the time after a date, if there is one. A blank before it may also stand for itself. -/
def skipTimeOfDate (cs : List Char) : Option (List Char) :=
  match cs with
  | [] => some []
  | c :: rest =>
    if c = 'T' ∨ c = 't' ∨ c = ' ' then
      match skipTime rest with
      | some rest => skipOffset rest
      | none => if c = ' ' then some cs else none
    else some cs

/-- A moment: a date, a date with a time, or a time. -/
def scanMoment (cs : List Char) : Option (Value × List Char) := do
  let rest ← ((skipDate cs).bind skipTimeOfDate).or (skipTime cs)
  some (.moment (String.ofList (cs.take (cs.length - rest.length))), rest)

end FlowScript.Toml
