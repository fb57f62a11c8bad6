import FlowScript.Decimal.Shortest

/-!
# The text of a double

Doubles are written with the fewest digits that identify them: positionally, with at least one digit
after the point, from `0.00001` up to but not including `10 ^ 16`, and otherwise with one digit
before the point and a signed exponent.
-/

namespace FlowScript.Decimal

/-- The sign of an exponent and its digits. -/
def exponentText (e : Int) : List Char :=
  (if e < 0 then '-' else '+') :: Nat.toDigits 10 e.natAbs

/-- One digit, the other digits after a point, then the exponent. -/
def scientific (ds : List Char) (leading : Int) : List Char :=
  ds.take 1 ++ (if ds.length ≤ 1 then [] else '.' :: ds.drop 1) ++ 'e' :: exponentText leading

/-- The digits with the point in its place, filled up with zeros on either side. -/
def positional (ds : List Char) (leading : Int) : List Char :=
  if leading < 0 then
    ['0', '.'] ++ List.replicate ((-leading).toNat - 1) '0' ++ ds
  else
    let whole := leading.toNat + 1
    let fraction := ds.drop whole
    ds.take whole ++ List.replicate (whole - ds.length) '0' ++
      '.' :: (if fraction.isEmpty then ['0'] else fraction)

/-- The text of a decimal with no zero at its end. -/
def Numeral.layout (d : Numeral) : List Char :=
  let ds := Nat.toDigits 10 d.digits
  let leading := d.exponent + ds.length - 1
  if -5 ≤ leading ∧ leading < 16 then positional ds leading else scientific ds leading

/-- The text of a finite double, given by its bits. -/
def doubleText (bits : UInt64) : String :=
  let sign := if bits >>> 63 = 1 then ['-'] else []
  let x := Magnitude.ofBits bits
  String.ofList (sign ++ if x.mantissa = 0 then ['0', '.', '0'] else x.shortest.layout)

end FlowScript.Decimal
