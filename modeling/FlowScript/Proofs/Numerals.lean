import FlowScript.Json.Scan
import Mathlib.Algebra.Ring.Int.Defs
import Mathlib.Tactic.SplitIfs

/-!
# Numbers in a JSON text

The text of a number is a literal of the grammar, so a reader comes to its end and takes it for a
number. An integer that fits is read back as it was. What a double is read back as is left to double
arithmetic.
-/

namespace FlowScript.Json

/-- What may follow a number: nothing that a number could go on with. -/
def EndsNumber (rest : List Char) : Prop :=
  ∀ c ∈ rest.head?, c.isDigit = false ∧ c ≠ '.' ∧ c ≠ 'e' ∧ c ≠ 'E'

/-- A literal of the grammar, character by character. -/
structure Spelling where
  negative : Bool
  whole : List Char
  fraction : List Char
  /-- The sign of the exponent, true if it is negative, and its digits. -/
  exponent : Option (Bool × List Char)
  whole_ne_nil : whole ≠ []
  whole_isDigit : ∀ c ∈ whole, c.isDigit = true
  /-- A zero in front stands alone. -/
  whole_leading : whole.head? = some '0' → whole = ['0']
  fraction_isDigit : ∀ c ∈ fraction, c.isDigit = true
  exponent_isDigit : ∀ x ∈ exponent, x.2 ≠ [] ∧ ∀ c ∈ x.2, c.isDigit = true

namespace Spelling

/-- The literal that is spelled. -/
def literal (l : Spelling) : Literal where
  negative := l.negative
  whole := l.whole.map digitValue
  fraction := l.fraction.map digitValue
  exponent := l.exponent.map fun x => (x.1, x.2.map digitValue)

/-- The point and the digits after it, if there are any. -/
def fractionText (l : Spelling) : List Char :=
  if l.fraction.isEmpty then [] else '.' :: l.fraction

/-- The exponent with its sign, if there is one. -/
def exponentText (l : Spelling) : List Char :=
  match l.exponent with
  | none => []
  | some (down, ds) => 'e' :: (if down then '-' else '+') :: ds

/-- The text of a literal. -/
def write (l : Spelling) : List Char :=
  (if l.negative then ['-'] else []) ++ (l.whole ++ (l.fractionText ++ l.exponentText))

end Spelling

/-- Digits are read up to the first character that is none. -/
theorem scanDigits_append {ds rest : List Char} (hds : ∀ c ∈ ds, c.isDigit = true)
    (hrest : ∀ c ∈ rest.head?, c.isDigit = false) :
    scanDigits (ds ++ rest) = (ds.map digitValue, rest) := by
  have htake : rest.takeWhile Char.isDigit = [] := by
    cases rest with
    | nil => rfl
    | cons c rest => simp [hrest c rfl]
  have hdrop : rest.dropWhile Char.isDigit = rest := by
    cases rest with
    | nil => rfl
    | cons c rest => simp [hrest c rfl]
  rw [scanDigits, List.takeWhile_append_of_pos hds, List.dropWhile_append_of_pos hds, htake, hdrop,
    List.append_nil]

/-- The values of the characters of a digit. -/
theorem digit_toNat {c : Char} (hc : c.isDigit = true) : 48 ≤ c.toNat ∧ c.toNat ≤ 57 :=
  Char.isDigit_iff_toNat.mp hc

/-- A digit is none of the characters that other parts of a text start with. -/
theorem digit_ne {c x : Char} (hc : c.isDigit = true) (hx : x.isDigit = false) : c ≠ x := by
  rintro rfl
  rw [hc] at hx
  cases hx

/-- Only the digit zero has no value. -/
theorem digitValue_ne_zero {c : Char} (hc : c.isDigit = true) (hzero : c ≠ '0') :
    digitValue c ≠ 0 := by
  intro hvalue
  have hlow := (digit_toNat hc).1
  rw [digitValue] at hvalue
  exact hzero (Char.toNat_inj.mp (by change c.toNat = 48; omega))

/-- A digit is no blank. -/
theorem isSpace_digit {c : Char} (hc : c.isDigit = true) : isSpace c = false := by
  simp [isSpace, digit_ne hc (x := ' ') rfl, digit_ne hc (x := '\n') rfl,
    digit_ne hc (x := '\r') rfl, digit_ne hc (x := '\t') rfl]

/-- What starts with a digit is a number. -/
theorem scanForm_digit (fuel : Nat) {c : Char} (hc : c.isDigit = true) (cs : List Char) :
    scanForm (fuel + 1) (c :: cs) = scanNumber false (c :: cs) := by
  rw [scanForm, skipSpace, List.dropWhile_cons_of_neg (by simp [isSpace_digit hc])]
  split
  case h_8 => rfl
  -- no other form starts with a digit
  all_goals
    rename_i heq
    obtain ⟨rfl, -⟩ := List.cons.inj heq
    exact absurd hc (by decide)

namespace Spelling

variable (l : Spelling)

/-- No zero stands in front of other digits. -/
theorem literal_whole_ne {d : Nat} {ds : List Nat} : l.literal.whole ≠ 0 :: d :: ds := by
  intro hwhole
  obtain ⟨c, cs, hcs, hvalue, hrest⟩ := List.map_eq_cons_iff.mp hwhole
  have hleading : c ≠ '0' := by
    rintro rfl
    have hone := l.whole_leading (by rw [hcs]; rfl)
    rw [hone] at hcs
    obtain ⟨-, rfl⟩ := List.cons.inj hcs
    cases hrest
  exact digitValue_ne_zero (l.whole_isDigit c (by simp [hcs])) hleading hvalue

/-- The digits before the point are read. -/
theorem scanWhole_append {rest : List Char} (hrest : ∀ c ∈ rest.head?, c.isDigit = false) :
    scanWhole (l.whole ++ rest) = some (l.literal.whole, rest) := by
  rw [scanWhole, scanDigits_append l.whole_isDigit hrest]
  split
  · rename_i hnil
    exact absurd (List.map_eq_nil_iff.mp (Prod.mk.inj hnil).1) l.whole_ne_nil
  · rename_i hzero
    exact absurd (Prod.mk.inj hzero).1 l.literal_whole_ne
  · rename_i heq
    obtain ⟨rfl, rfl⟩ := Prod.mk.inj heq
    rfl

/-- The digits after the point are read. -/
theorem scanFraction_append {rest : List Char}
    (hrest : ∀ c ∈ rest.head?, c.isDigit = false ∧ c ≠ '.') :
    scanFraction (l.fractionText ++ rest) = some (l.literal.fraction, rest) := by
  rw [fractionText, literal]
  cases hfraction : l.fraction with
  | nil =>
    rw [List.isEmpty_nil, if_pos rfl, List.nil_append]
    cases rest with
    | nil => rfl
    | cons c rest =>
      have hpoint : c ≠ '.' := (hrest c rfl).2
      rw [scanFraction]
      · rfl
      · simp [hpoint]
  | cons c cs =>
    have hdigits : ∀ x ∈ c :: cs, x.isDigit = true := hfraction ▸ l.fraction_isDigit
    rw [List.isEmpty_cons, if_neg Bool.false_ne_true, List.cons_append, scanFraction,
      scanDigits_append hdigits fun x hx => (hrest x hx).1]
    rfl

/-- The exponent is read. -/
theorem scanExponent_append {rest : List Char} (hrest : EndsNumber rest) :
    scanExponent (l.exponentText ++ rest) = some (l.literal.exponent, rest) := by
  rw [exponentText, literal]
  cases hexponent : l.exponent with
  | none =>
    cases rest with
    | nil => rfl
    | cons c rest =>
      obtain ⟨-, -, hlower, hupper⟩ := hrest c rfl
      rw [List.nil_append, scanExponent, if_neg (by simp [hlower, hupper])]
      rfl
  | some x =>
    obtain ⟨down, ds⟩ := x
    obtain ⟨hne, hdigits⟩ := l.exponent_isDigit (down, ds) hexponent
    have hscan := scanDigits_append hdigits fun c hc => (hrest c hc).1
    have hsign : scanSign ((if down then '-' else '+') :: (ds ++ rest)) = (down, ds ++ rest) := by
      cases down <;> rfl
    rw [List.cons_append, List.cons_append, scanExponent, if_pos (.inl rfl), hsign]
    simp only [hscan]
    cases ds with
    | nil => exact absurd rfl hne
    | cons c ds => rfl

/-- What follows the point, or the number if there is none. -/
theorem exponentText_head {rest : List Char} (hrest : EndsNumber rest) :
    ∀ c ∈ (l.exponentText ++ rest).head?, c.isDigit = false ∧ c ≠ '.' := by
  intro c hc
  rw [exponentText] at hc
  cases hexponent : l.exponent with
  | none =>
    rw [hexponent] at hc
    exact ⟨(hrest c hc).1, (hrest c hc).2.1⟩
  | some x =>
    rw [hexponent] at hc
    obtain rfl : 'e' = c := Option.some.inj hc
    exact ⟨by decide, by decide⟩

/-- What follows the digits before the point. -/
theorem fractionText_head {rest : List Char} (hrest : EndsNumber rest) :
    ∀ c ∈ (l.fractionText ++ (l.exponentText ++ rest)).head?, c.isDigit = false := by
  intro c hc
  rw [fractionText] at hc
  split at hc
  · exact (l.exponentText_head hrest c hc).1
  · obtain rfl : '.' = c := Option.some.inj hc
    decide

/-- A literal is read as such after its sign. -/
theorem scanNumber_append {rest : List Char} (hrest : EndsNumber rest) :
    scanNumber l.negative (l.whole ++ (l.fractionText ++ l.exponentText) ++ rest) =
      some (.number l.literal.value, rest) := by
  rw [List.append_assoc, List.append_assoc, scanNumber,
    l.scanWhole_append (l.fractionText_head hrest)]
  simp only [Option.bind_eq_bind, Option.bind_some, l.scanFraction_append (l.exponentText_head hrest),
    l.scanExponent_append hrest]
  rfl

/-- A literal is read as a number. -/
theorem scanForm_append (fuel : Nat) {rest : List Char} (hrest : EndsNumber rest) :
    scanForm (fuel + 1) (l.write ++ rest) = some (.number l.literal.value, rest) := by
  have hnumber := l.scanNumber_append hrest
  rw [write]
  cases hnegative : l.negative with
  | true =>
    rw [hnegative] at hnumber
    exact hnumber
  | false =>
    rw [hnegative] at hnumber
    cases hwhole : l.whole with
    | nil => exact absurd hwhole l.whole_ne_nil
    | cons c cs =>
      rw [hwhole] at hnumber
      have hc : c.isDigit = true := l.whole_isDigit c (by simp [hwhole])
      exact (scanForm_digit fuel hc _).trans hnumber

end Spelling

/-- The digits of a number are digits. -/
theorem toDigits_isDigit (n : Nat) : ∀ c ∈ Nat.toDigits 10 n, c.isDigit = true :=
  fun _ => Nat.isDigit_of_mem_toDigits (by decide) (by decide)

/-- Only zero starts with a zero. -/
theorem eq_zero_of_head?_toDigits {n : Nat} (h : (Nat.toDigits 10 n).head? = some '0') : n = 0 := by
  induction n using Nat.strongRecOn with
  | ind n ih =>
    rcases Nat.lt_or_ge n 10 with hlt | hle
    · have hall : ∀ k < 10, Nat.digitChar k = '0' → k = 0 := by decide
      rw [Nat.toDigits_of_lt_base hlt] at h
      exact hall n hlt (Option.some.inj h)
    · obtain ⟨c, cs, hcs⟩ := List.exists_cons_of_ne_nil (@Nat.toDigits_ne_nil (n / 10) 10)
      rw [Nat.toDigits_of_base_le (by decide) hle, hcs] at h
      have hzero := ih (n / 10) (by omega) (by rw [hcs]; exact h)
      omega

/-- The literal of an integer. -/
def Spelling.ofInt (i : Int) : Spelling where
  negative := decide (i < 0)
  whole := Nat.toDigits 10 i.natAbs
  fraction := []
  exponent := none
  whole_ne_nil := Nat.toDigits_ne_nil
  whole_isDigit := toDigits_isDigit i.natAbs
  whole_leading h := by rw [eq_zero_of_head?_toDigits h, Nat.toDigits_zero]
  fraction_isDigit := by simp
  exponent_isDigit := by simp

/-- The text of an integer is its literal. -/
theorem Spelling.write_ofInt (i : Int) : (Spelling.ofInt i).write = (toString i).toList := by
  have hdigits : (Spelling.ofInt i).write =
      (if decide (i < 0) then ['-'] else []) ++ Nat.toDigits 10 i.natAbs := by
    simp [write, ofInt, fractionText, exponentText]
  rw [hdigits, Int.toString_eq_repr, Int.repr_eq_if]
  by_cases hnegative : i < 0
  · have habs : (-i).toNat = i.natAbs := by omega
    simp [hnegative, Int.not_le.mpr hnegative, habs, Nat.repr_eq_ofList_toDigits]
  · have habs : i.toNat = i.natAbs := by omega
    simp [hnegative, Int.not_lt.mp hnegative, habs, Nat.repr_eq_ofList_toDigits]

/-- Digits are taken up as long as the significand fits. -/
theorem absorb_digits {cs : List Char} {start : Nat} (h : Nat.ofDigitChars 10 cs start < Nat.pow 2 64) :
    absorb start (cs.map digitValue) = (Nat.ofDigitChars 10 cs start, cs.length) := by
  induction cs generalizing start with
  | nil => rfl
  | cons c cs ih =>
    rw [Nat.ofDigitChars_cons] at h ⊢
    have hgrow : 10 * start + (c.toNat - '0'.toNat) ≤
        Nat.ofDigitChars 10 cs (10 * start + (c.toNat - '0'.toNat)) := by
      rw [Nat.ofDigitChars_eq_ofDigitChars_zero]
      exact Nat.le_trans (Nat.le_mul_of_pos_left _ (Nat.pow_pos (by decide))) (Nat.le_add_right _ _)
    have hnext : start * 10 + digitValue c = 10 * start + (c.toNat - '0'.toNat) := by
      rw [Nat.mul_comm]
      rfl
    rw [List.map_cons, absorb, hnext, if_pos (Nat.lt_of_le_of_lt hgrow h), ih h]
    rfl

/-- The digits of a number that fits are taken up. -/
theorem absorb_toDigits {n : Nat} (hn : n < Nat.pow 2 64) :
    absorb 0 ((Nat.toDigits 10 n).map digitValue) = (n, (Nat.toDigits 10 n).length) := by
  have hvalue : Nat.ofDigitChars 10 (Nat.toDigits 10 n) 0 = n := Nat.ofDigitChars_ten_toDigits
  rw [absorb_digits (by rwa [hvalue]), hvalue]

/-- Digits alone stand for a natural number that fits. -/
theorem Literal.value_positive {n : Nat} (hn : n < Nat.pow 2 64) :
    Literal.value ⟨false, (Nat.toDigits 10 n).map digitValue, [], none⟩ = some (.integer n) := by
  simp [Literal.value, absorb_toDigits hn]

/-- Digits after a minus stand for a negative number that fits. -/
theorem Literal.value_negative {n : Nat} (hpos : 0 < n) (hn : n ≤ Nat.pow 2 63) :
    Literal.value ⟨true, (Nat.toDigits 10 n).map digitValue, [], none⟩ = some (.integer (-n)) := by
  have hfits : n < Nat.pow 2 64 := Nat.lt_of_le_of_lt hn (by decide)
  simp [Literal.value, absorb_toDigits hfits, hpos, hn]

/-- The literal of an integer that fits is read back. -/
theorem Spelling.value_ofInt {i : Int} (hlow : -(2 ^ 63) ≤ i) (hhigh : i < 2 ^ 64) :
    (Spelling.ofInt i).literal.value = some (.integer i) := by
  have hliteral : (Spelling.ofInt i).literal =
      ⟨decide (i < 0), (Nat.toDigits 10 i.natAbs).map digitValue, [], none⟩ := rfl
  rw [hliteral]
  by_cases hnegative : i < 0
  · have hpos : 0 < i.natAbs := by omega
    have hbound : i.natAbs ≤ Nat.pow 2 63 := by
      change i.natAbs ≤ 2 ^ 63
      omega
    rw [decide_eq_true hnegative, Literal.value_negative hpos hbound,
      Int.ofNat_natAbs_of_nonpos (by omega), Int.neg_neg]
  · have hbound : i.natAbs < Nat.pow 2 64 := by
      change i.natAbs < 2 ^ 64
      omega
    rw [decide_eq_false hnegative, Literal.value_positive hbound, Int.natAbs_of_nonneg (by omega)]

end FlowScript.Json

namespace FlowScript.Decimal

/-- The power of ten that the first digit of a decimal counts. -/
def Numeral.leading (d : Numeral) : Int :=
  d.exponent + (Nat.toDigits 10 d.digits).length - 1

/-- A decimal among the reals that round to a double other than zero is not zero. -/
theorem Magnitude.contains_ne_zero {x : Magnitude} {d : Numeral} (hx : x.mantissa ≠ 0)
    (h : x.contains d = true) : d.digits ≠ 0 := by
  intro hzero
  have hlow (low : Nat) (hlow : 0 < low) (j : Int) :
      compareScaled 0 d.exponent low j = .lt := by
    have hpos : 0 < low * Nat.pow 2 j.toNat * Nat.pow 10 (-d.exponent).toNat :=
      Nat.mul_pos (Nat.mul_pos hlow (Nat.pow_pos (by decide))) (Nat.pow_pos (by decide))
    rw [compareScaled, Nat.zero_mul, Nat.zero_mul]
    exact Nat.compare_eq_lt.mpr hpos
  have hbelow : 0 < if x.closeBelow then 4 * x.mantissa - 1 else 4 * x.mantissa - 2 := by
    split <;> omega
  simp [contains, hzero, hlow _ hbelow] at h

/-- A decimal is taken from a grid only if it is among the reals that round to the double. -/
theorem Magnitude.contains_of_onGrid {x : Magnitude} {grid : Int} {d : Numeral}
    (h : x.onGrid grid = some d) : x.contains d = true := by
  simp only [onGrid] at h
  split at h
  · rename_i hbelow habove
    split at h
    · exact Option.some.inj h ▸ hbelow
    · exact Option.some.inj h ▸ habove
    · split at h
      · exact Option.some.inj h ▸ hbelow
      · exact Option.some.inj h ▸ habove
  · rename_i hbelow _
    exact Option.some.inj h ▸ hbelow
  · rename_i _ habove
    exact Option.some.inj h ▸ habove
  · cases h

/-- Moving zeros into the exponent leaves a number other than zero. -/
theorem Numeral.strip_ne_zero {d : Numeral} (hd : d.digits ≠ 0) (bound : Nat) :
    (d.strip bound).digits ≠ 0 := by
  induction bound generalizing d with
  | zero => exact hd
  | succ bound ih =>
    rw [strip]
    split_ifs with hzeros
    · exact ih (by dsimp only; omega)
    · exact hd

/-- The shortest decimal of a double other than zero is not zero. -/
theorem Magnitude.shortest_ne_zero {x : Magnitude} (hx : x.mantissa ≠ 0) :
    x.shortest.digits ≠ 0 := by
  rw [shortest]
  refine Numeral.strip_ne_zero ?_ 400
  cases hfound : (List.range 17).findSome? fun n => x.onGrid (x.scale - (n + 1 : Nat)) with
  | none =>
    have hpos : 0 < x.mantissa * Nat.pow 2 x.exponent.toNat * Nat.pow 5 (-x.exponent).toNat :=
      Nat.mul_pos (Nat.mul_pos (Nat.pos_of_ne_zero hx) (Nat.pow_pos (by decide)))
        (Nat.pow_pos (by decide))
    exact Nat.ne_of_gt hpos
  | some d =>
    obtain ⟨n, -, hgrid⟩ := List.exists_of_findSome?_eq_some hfound
    exact contains_ne_zero hx (contains_of_onGrid hgrid)

end FlowScript.Decimal

namespace FlowScript.Json

open Decimal (Numeral Magnitude)

/-- The literal with one digit before the point and an exponent. -/
def Spelling.scientific (negative : Bool) (n : Nat) (leading : Int) : Spelling where
  negative := negative
  whole := (Nat.toDigits 10 n).take 1
  fraction := (Nat.toDigits 10 n).drop 1
  exponent := some (decide (leading < 0), Nat.toDigits 10 leading.natAbs)
  whole_ne_nil := by simp [Nat.toDigits_ne_nil]
  whole_isDigit c hc := toDigits_isDigit n c (List.mem_of_mem_take hc)
  whole_leading h := by
    obtain ⟨c, cs, hcs⟩ := List.exists_cons_of_ne_nil (@Nat.toDigits_ne_nil n 10)
    rw [hcs] at h ⊢
    obtain rfl : c = '0' := Option.some.inj h
    rfl
  fraction_isDigit c hc := toDigits_isDigit n c (List.mem_of_mem_drop hc)
  exponent_isDigit x hx := by
    obtain rfl := Option.some.inj hx
    exact ⟨Nat.toDigits_ne_nil, toDigits_isDigit _⟩

/-- The literal of a number below one, with `zeros` zeros after the point. -/
def Spelling.small (negative : Bool) (zeros n : Nat) : Spelling where
  negative := negative
  whole := ['0']
  fraction := List.replicate zeros '0' ++ Nat.toDigits 10 n
  exponent := none
  whole_ne_nil := by simp
  whole_isDigit := by simp
  whole_leading := by simp
  fraction_isDigit c hc := by
    rcases List.mem_append.mp hc with hc | hc
    · rw [List.eq_of_mem_replicate hc]
      rfl
    · exact toDigits_isDigit n c hc
  exponent_isDigit := by simp

/-- The literal of a number with `places + 1` digits before the point, filled up with zeros. -/
def Spelling.large (negative : Bool) (n places : Nat) (hn : n ≠ 0) : Spelling where
  negative := negative
  whole := (Nat.toDigits 10 n).take (places + 1) ++
    List.replicate (places + 1 - (Nat.toDigits 10 n).length) '0'
  fraction :=
    if ((Nat.toDigits 10 n).drop (places + 1)).isEmpty then ['0']
    else (Nat.toDigits 10 n).drop (places + 1)
  exponent := none
  whole_ne_nil := by simp [Nat.toDigits_ne_nil]
  whole_isDigit c hc := by
    rcases List.mem_append.mp hc with hc | hc
    · exact toDigits_isDigit n c (List.mem_of_mem_take hc)
    · rw [List.eq_of_mem_replicate hc]
      rfl
  whole_leading h := by
    obtain ⟨c, cs, hcs⟩ := List.exists_cons_of_ne_nil (@Nat.toDigits_ne_nil n 10)
    rw [hcs] at h
    exact absurd (eq_zero_of_head?_toDigits (by rw [hcs]; exact h)) hn
  fraction_isDigit c hc := by
    split at hc
    · rw [List.mem_singleton.mp hc]
      rfl
    · exact toDigits_isDigit n c (List.mem_of_mem_drop hc)
  exponent_isDigit := by simp

/-- There is always a digit after the point. -/
theorem Spelling.large_fraction_ne_nil (negative : Bool) (n places : Nat) (hn : n ≠ 0) :
    (large negative n places hn).fraction ≠ [] := by
  rw [large]
  dsimp only
  split
  · simp
  · rename_i hsome
    simpa using hsome

/-- The literal of a decimal other than zero, with either sign. -/
def Spelling.ofNumeral (negative : Bool) (d : Numeral) (hd : d.digits ≠ 0) : Spelling :=
  if -5 ≤ d.leading ∧ d.leading < 16 then
    if d.leading < 0 then .small negative ((-d.leading).toNat - 1) d.digits
    else .large negative d.digits d.leading.toNat hd
  else .scientific negative d.digits d.leading

/-- The layout of a decimal is its literal. -/
theorem Spelling.write_ofNumeral (negative : Bool) {d : Numeral} (hd : d.digits ≠ 0) :
    (ofNumeral negative d hd).write = (if negative then ['-'] else []) ++ d.layout := by
  generalize hds : Nat.toDigits 10 d.digits = ds
  have hne : ds ≠ [] := hds ▸ Nat.toDigits_ne_nil
  have hlayout : d.layout = if -5 ≤ d.leading ∧ d.leading < 16 then Decimal.positional ds d.leading
      else Decimal.scientific ds d.leading := by
    rw [Numeral.leading, ← hds, Numeral.layout]
  rw [hlayout, ofNumeral]
  by_cases hpositional : -5 ≤ d.leading ∧ d.leading < 16
  · rw [if_pos hpositional, if_pos hpositional, Decimal.positional]
    by_cases hbelow : d.leading < 0
    · rw [if_pos hbelow, if_pos hbelow]
      simp [write, small, fractionText, exponentText, hds, hne]
    · rw [if_neg hbelow, if_neg hbelow, write, fractionText,
        List.isEmpty_eq_false_iff.mpr (large_fraction_ne_nil negative d.digits d.leading.toNat hd)]
      simp [large, exponentText, hds]
  · rw [if_neg hpositional, if_neg hpositional, Decimal.scientific, write, fractionText]
    cases ds with
    | nil => exact absurd rfl hne
    | cons c cs =>
      cases cs with
      | nil => simp [scientific, exponentText, Decimal.exponentText, hds]
      | cons c' cs => simp [scientific, exponentText, Decimal.exponentText, hds]

/-- The literal of a double. -/
def Spelling.ofBits (bits : UInt64) : Spelling :=
  if hzero : (Magnitude.ofBits bits).mantissa = 0 then .small (decide (bits >>> 63 = 1)) 0 0
  else .ofNumeral (decide (bits >>> 63 = 1)) (Magnitude.ofBits bits).shortest
    (Magnitude.shortest_ne_zero hzero)

/-- The literal of a number. -/
def Number.spelling : Number → Spelling
  | .integer i => .ofInt i
  | .double bits => .ofBits bits

/-- The text of a number is its literal. -/
theorem Number.write_spelling (n : Number) : n.spelling.write = n.text.toList := by
  cases n with
  | integer i => exact Spelling.write_ofInt i
  | double bits =>
    rw [spelling, text, Spelling.ofBits, Decimal.doubleText, String.toList_ofList]
    by_cases hzero : (Magnitude.ofBits bits).mantissa = 0
    · simp [Spelling.write, Spelling.small, Spelling.fractionText, Spelling.exponentText, hzero]
    · simp [hzero, Spelling.write_ofNumeral]

/-- A literal alone is read as a number. -/
theorem Spelling.parse? {l : Spelling} {text : String} (h : l.write = text.toList) :
    Form.parse? text = some (.number l.literal.value) := by
  have hend : EndsNumber [] := by simp [EndsNumber]
  have hscan := l.scanForm_append text.toList.length hend
  rw [List.append_nil, h] at hscan
  simp [Form.parse?, hscan, skipSpace]

/-- What the text of a number is read back as. -/
def Number.reread (n : Number) : Option Number :=
  (Form.parse? n.text).bind fun
    | .number m => m
    | _ => none

/-- A number is read back wherever its text stands. -/
theorem Number.scanForm_text (n : Number) (fuel : Nat) {rest : List Char} (hrest : EndsNumber rest) :
    scanForm (fuel + 1) (n.text.toList ++ rest) = some (.number n.reread, rest) := by
  have hreread : n.reread = n.spelling.literal.value := by
    rw [reread, Spelling.parse? n.write_spelling, Option.bind_some]
  rw [← n.write_spelling, hreread]
  exact n.spelling.scanForm_append fuel hrest

/-- A number can be read back if the reader of values does. -/
theorem Number.reread_eq_some_iff {n : Number} :
    n.reread = some n ↔ Value.parse? n.text = some (.number n) := by
  rw [reread, Value.parse?, Spelling.parse? n.write_spelling, Option.bind_some, Option.bind_some,
    Form.value?]
  simp

/-- The integers of a text fit 64 bits, signed or unsigned. -/
def Number.Fits : Number → Prop
  | .integer i => -(2 ^ 63) ≤ i ∧ i < 2 ^ 64
  | .double _ => True

/-- An integer that fits is read back. -/
theorem Number.reread_integer {i : Int} (h : (Number.integer i).Fits) :
    (Number.integer i).reread = some (.integer i) := by
  have hparse : Form.parse? (Number.integer i).text = some (.number (Spelling.ofInt i).literal.value) :=
    Spelling.parse? (Spelling.write_ofInt i)
  rw [reread, hparse, Option.bind_some]
  exact Spelling.value_ofInt h.1 h.2

/-- A significand fits. -/
theorem absorb_lt {start : Nat} (hstart : start < Nat.pow 2 64) (ds : List Nat) :
    (absorb start ds).1 < Nat.pow 2 64 := by
  induction ds generalizing start with
  | nil => exact hstart
  | cons d ds ih =>
    rw [absorb]
    split
    · exact ih (by assumption)
    · exact hstart

/-- The number that a literal stands for fits. -/
theorem Literal.value_fits {l : Literal} {n : Number} (h : l.value = some n) : n.Fits := by
  have hhead : (absorb 0 l.whole).1 < 2 ^ 64 := absorb_lt (by decide) l.whole
  have hsigned {f : Option Float} (h : f.map (signed l.negative) = some n) : n.Fits := by
    obtain ⟨x, -, rfl⟩ := Option.map_eq_some_iff.mp h
    trivial
  simp only [Literal.value] at h
  split at h
  · split at h
    · obtain rfl := Option.some.inj h
      exact ⟨by omega, by omega⟩
    · split at h
      · rename_i hbound
        obtain rfl := Option.some.inj h
        have hbound : (absorb 0 l.whole).1 ≤ 2 ^ 63 := hbound.2
        exact ⟨by omega, by omega⟩
      · obtain rfl := Option.some.inj h
        trivial
  · split at h
    · exact hsigned h
    · split at h
      · exact hsigned h
      · split at h
        · cases h
        · obtain rfl := Option.some.inj h
          trivial

end FlowScript.Json
