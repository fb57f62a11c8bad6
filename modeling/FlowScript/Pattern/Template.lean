/-!
# Templates with numbered holes

In a template a number in braces is a hole, a doubled brace is one brace, and every other character
is itself, a lone brace included. A hole is filled with the argument of its number, or with `None`
if there is no such argument. Arguments are copied as they are.
-/

namespace FlowScript.Template

/-- A part of a template. -/
inductive Piece where
  | literal (text : List Char)
  | hole (index : Nat)
deriving DecidableEq, Repr

/-- Whether a character is a brace. -/
def isBrace (c : Char) : Bool :=
  c == '{' || c == '}'

/-- The number that digits stand for. -/
def numberOf (digits : List Char) : Nat :=
  digits.foldl (fun n c => n * 10 + (c.toNat - 48)) 0

/-- The hole after an opening brace, with the text after it: digits and a closing brace. A number
that does not fit 64 bits makes no hole. -/
def holeAt? (cs : List Char) : Option (Nat × List Char) :=
  let digits := cs.takeWhile Char.isDigit
  match cs.dropWhile Char.isDigit with
  | '}' :: rest =>
    if digits.isEmpty ∨ Nat.pow 2 64 ≤ numberOf digits then none else some (numberOf digits, rest)
  | _ => none

/-- Cut a template into pieces, from brace to brace; `bound` is more than its length. -/
def cut : Nat → List Char → List Piece
  | 0, _ => []
  | bound + 1, cs =>
    .literal (cs.takeWhile fun c => !isBrace c) ::
      match cs.dropWhile fun c => !isBrace c with
      | [] => []
      | '{' :: '{' :: rest => .literal ['{'] :: cut bound rest
      | '}' :: '}' :: rest => .literal ['}'] :: cut bound rest
      | c :: rest =>
        match if c = '{' then holeAt? rest else none with
        | some (index, rest) => .hole index :: cut bound rest
        | none => .literal [c] :: cut bound rest

/-- The pieces of a template. -/
def pieces (template : String) : List Piece :=
  cut (template.toList.length + 1) template.toList

/-- A filled template, with the numbers of the holes that had no argument. -/
structure Filled where
  text : String
  unresolved : List Nat
deriving DecidableEq, Repr

/-- The text that takes the place of a piece. -/
def Piece.fill (args : List String) : Piece → List Char
  | .literal text => text
  | .hole index => (args.getD index "None").toList

/-- The number of a hole that has no argument. -/
def Piece.unresolved? (args : List String) : Piece → Option Nat
  | .literal _ => none
  | .hole index => if index < args.length then none else some index

/-- Fill the holes of a template. -/
def fill (template : String) (args : List String) : Filled where
  text := String.ofList ((pieces template).flatMap (Piece.fill args))
  unresolved := (pieces template).filterMap (Piece.unresolved? args)

end FlowScript.Template
