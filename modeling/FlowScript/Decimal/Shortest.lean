/-!
# The fewest decimal digits that identify a double

A finite double stands for the reals that round to it. Among the decimals in that interval the
shortest is chosen, of two equally short ones the nearer, and of two equally near ones the even one.
All comparisons are exact, between natural numbers.
-/

namespace FlowScript.Decimal

/-- The magnitude of a finite double: `mantissa * 2 ^ exponent`. -/
structure Magnitude where
  mantissa : Nat
  exponent : Int
  /-- The next double below is half as far away as the next one above. -/
  closeBelow : Bool
deriving DecidableEq, Repr

/-- The magnitude that the bits of a finite double stand for. -/
def Magnitude.ofBits (bits : UInt64) : Magnitude :=
  let scale := ((bits >>> 52) &&& 0x7FF).toNat
  let fraction := (bits &&& 0xFFFFFFFFFFFFF).toNat
  if scale = 0 then ⟨fraction, -1074, false⟩
  else ⟨Nat.pow 2 52 + fraction, (scale : Int) - 1075, fraction = 0 ∧ 1 < scale⟩

/-- The decimal `digits * 10 ^ exponent`. -/
structure Numeral where
  digits : Nat
  exponent : Int
deriving DecidableEq, Repr

/-- The order of `a * 10 ^ i` and `b * 2 ^ j`. -/
def compareScaled (a : Nat) (i : Int) (b : Nat) (j : Int) : Ordering :=
  compare (a * Nat.pow 10 i.toNat * Nat.pow 2 (-j).toNat)
    (b * Nat.pow 2 j.toNat * Nat.pow 10 (-i).toNat)

/-- Whether a decimal lies among the reals that round to the double. The ends of the interval belong
to it when the mantissa is even. -/
def Magnitude.contains (x : Magnitude) (d : Numeral) : Bool :=
  let low := if x.closeBelow then 4 * x.mantissa - 1 else 4 * x.mantissa - 2
  let high := 4 * x.mantissa + 2
  let even := x.mantissa % 2 == 0
  let atLow := compareScaled d.digits d.exponent low (x.exponent - 2)
  let atHigh := compareScaled d.digits d.exponent high (x.exponent - 2)
  (atLow == .gt || (even && atLow == .eq)) && (atHigh == .lt || (even && atHigh == .eq))

/-- The largest multiple of `10 ^ grid` that does not exceed the double, as a count of steps. -/
def Magnitude.floorAt (x : Magnitude) (grid : Int) : Nat :=
  x.mantissa * Nat.pow 2 x.exponent.toNat * Nat.pow 10 (-grid).toNat /
    (Nat.pow 2 (-x.exponent).toNat * Nat.pow 10 grid.toNat)

/-- The least power of ten above a double other than zero, searched near its binary logarithm. -/
def Magnitude.scale (x : Magnitude) : Int :=
  let guess := ((x.mantissa.log2 : Int) + x.exponent) * 30103 / 100000
  (([guess - 1, guess, guess + 1, guess + 2].find? fun k =>
    compareScaled 1 k x.mantissa x.exponent == .gt)).getD (guess + 3)

/-- The nearer of the two neighbours of the double on a decimal grid that identify it. -/
def Magnitude.onGrid (x : Magnitude) (grid : Int) : Option Numeral :=
  let below : Numeral := ⟨x.floorAt grid, grid⟩
  let above : Numeral := ⟨x.floorAt grid + 1, grid⟩
  match x.contains below, x.contains above with
  | true, true =>
    match compareScaled (2 * below.digits + 1) grid (2 * x.mantissa) x.exponent with
    | .gt => some below
    | .lt => some above
    | .eq => if below.digits % 2 = 0 then some below else some above
  | true, false => some below
  | false, true => some above
  | false, false => none

/-- Move the zeros at the end of the digits into the exponent; `bound` is at least their number. -/
def Numeral.strip : Nat → Numeral → Numeral
  | 0, d => d
  | bound + 1, d =>
    if d.digits ≠ 0 ∧ d.digits % 10 = 0 then strip bound ⟨d.digits / 10, d.exponent + 1⟩ else d

/-- The exact value of a double, with as many digits as it takes. -/
def Magnitude.exact (x : Magnitude) : Numeral :=
  ⟨x.mantissa * Nat.pow 2 x.exponent.toNat * Nat.pow 5 (-x.exponent).toNat, min x.exponent 0⟩

/-- The shortest decimal that identifies a double other than zero: the first of the grids of one to
seventeen digits on which a neighbour of the double identifies it. -/
def Magnitude.shortest (x : Magnitude) : Numeral :=
  let found := (List.range 17).findSome? fun n => x.onGrid (x.scale - (n + 1 : Nat))
  (found.getD x.exact).strip 400

end FlowScript.Decimal
