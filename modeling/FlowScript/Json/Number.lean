import FlowScript.Decimal.Notation

/-!
# Numbers of a JSON text

A literal without fraction and exponent is an integer if it fits 64 bits, signed below zero and
unsigned above; minus zero and every other literal is a double. The double is computed from a
significand that keeps as many leading digits as fit 64 bits, scaled by a power of ten in double
arithmetic. A literal whose magnitude exceeds every double has no value.
-/

namespace FlowScript.Json

/-- A number: an integer, or a finite double given by its bits. -/
inductive Number where
  | integer (value : Int)
  | double (bits : UInt64)
deriving DecidableEq, Repr

/-- The written form of a number. -/
def Number.text : Number → String
  | .integer value => toString value
  | .double bits => Decimal.doubleText bits

/-- A number literal, part by part; digits are given by their values. -/
structure Literal where
  negative : Bool
  whole : List Nat
  fraction : List Nat
  /-- The sign of the exponent, true if it is negative, and its digits. -/
  exponent : Option (Bool × List Nat)
deriving DecidableEq, Repr

/-- Append digits to a significand while it fits 64 bits, counting those that were taken. -/
def absorb (significand : Nat) : List Nat → Nat × Nat
  | [] => (significand, 0)
  | d :: rest =>
    if significand * 10 + d < Nat.pow 2 64 then
      let (result, taken) := absorb (significand * 10 + d) rest
      (result, taken + 1)
    else (significand, 0)

/-- The value of an exponent's digits, absent when it does not fit 32 bits with a sign. -/
def exponentValue (digits : List Nat) : Option Nat :=
  let value := digits.foldl (fun n d => n * 10 + d) 0
  if value < Nat.pow 2 31 then some value else none

/-- Divide by a power of ten, at most `10 ^ 308` at a time; `rounds` bounds the steps. -/
def scaleDown : Nat → Float → Nat → Float
  | 0, f, _ => f
  | rounds + 1, f, e =>
    if e ≤ 308 then f / Float.ofScientific 1 false e
    else if f == 0.0 then f
    else scaleDown rounds (f / Float.ofScientific 1 false 308) (e - 308)

/-- Scale a significand by a power of ten, absent when the result exceeds every double. -/
def scaled (significand : Nat) (e : Int) : Option Float :=
  let f := Float.ofScientific significand false 0
  if e < 0 then some (scaleDown (e.natAbs / 308 + 1) f e.natAbs)
  else if e ≤ 308 then
    let g := f * Float.ofScientific 1 false e.toNat
    if g.isInf then none else some g
  else if significand = 0 then some 0.0
  else none

/-- A double with the sign of its literal. -/
def signed (negative : Bool) (f : Float) : Number :=
  .double (if negative then -f else f).toBits

/-- The number that a literal stands for, absent when it exceeds every double. -/
def Literal.value (l : Literal) : Option Number :=
  let (head, taken) := absorb 0 l.whole
  let dropped := l.whole.length - taken
  if l.fraction.isEmpty ∧ l.exponent.isNone ∧ dropped = 0 then
    if ¬ l.negative then some (.integer head)
    else if 0 < head ∧ head ≤ Nat.pow 2 63 then some (.integer (-head))
    else some (signed true (Float.ofScientific head false 0))
  else
    let (significand, places) := absorb head l.fraction
    let shift : Int := (dropped : Int) - places
    match l.exponent with
    | none => (scaled significand shift).map (signed l.negative)
    | some (down, digits) =>
      match exponentValue digits with
      | some e =>
        (scaled significand (if down then shift - e else shift + e)).map (signed l.negative)
      | none => if significand ≠ 0 ∧ ¬ down then none else some (signed l.negative 0.0)

end FlowScript.Json
