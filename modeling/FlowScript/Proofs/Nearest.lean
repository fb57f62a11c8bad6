import FlowScript.Proofs.Numerals
import Mathlib.Algebra.Order.Field.Power
import Mathlib.Order.Monotone.Basic
import Mathlib.Tactic.Positivity
import Mathlib.Tactic.Ring

/-!
# The double nearest to a decimal

The bits of a double after its sign are its rank among the doubles of this sign. The reals that round
to a double end in the middle between this double and the next one, and there those of the next rank
begin. So a decimal rounds to one double only, and this one is found by a search for the greatest rank
whose reals do not begin above the decimal. The digits that are written for a double lead back to it.
-/

namespace FlowScript.Decimal

/-- The number that a decimal stands for. -/
def Numeral.value (d : Numeral) : ℚ :=
  d.digits * 10 ^ d.exponent

/-- Both sides of a comparison, over a common denominator. -/
theorem scaled_eq (b a : Nat) [NeZero b] (i : Int) :
    (a : ℚ) * b ^ i * (b ^ (-i).toNat : ℕ) = (a * b ^ i.toNat : ℕ) := by
  have hb : (b : ℚ) ≠ 0 := Nat.cast_ne_zero.mpr (NeZero.ne b)
  have hpow : (b : ℚ) ^ i * (b : ℚ) ^ (-i).toNat = (b : ℚ) ^ i.toNat := by
    rw [← zpow_natCast, ← zpow_natCast, ← zpow_add₀ hb]
    congr 1
    omega
  push_cast
  rw [mul_assoc, hpow]

/-- Scaled numbers are compared as the rational numbers that they stand for. -/
theorem compareScaled_spec (a : Nat) (i : Int) (b : Nat) (j : Int) :
    (compareScaled a i b j = .lt ↔ (a : ℚ) * 10 ^ i < b * 2 ^ j) ∧
      (compareScaled a i b j = .eq ↔ (a : ℚ) * 10 ^ i = b * 2 ^ j) ∧
      (compareScaled a i b j = .gt ↔ (b : ℚ) * 2 ^ j < a * 10 ^ i) := by
  have hpos : (0 : ℚ) < (10 ^ (-i).toNat : ℕ) * (2 ^ (-j).toNat : ℕ) := by positivity
  have hleft : (a : ℚ) * 10 ^ i * ((10 ^ (-i).toNat : ℕ) * (2 ^ (-j).toNat : ℕ)) =
      (a * 10 ^ i.toNat * 2 ^ (-j).toNat : ℕ) := by
    have h := scaled_eq 10 a i
    push_cast at h ⊢
    rw [← mul_assoc, h]
  have hright : (b : ℚ) * 2 ^ j * ((10 ^ (-i).toNat : ℕ) * (2 ^ (-j).toNat : ℕ)) =
      (b * 2 ^ j.toNat * 10 ^ (-i).toNat : ℕ) := by
    have h := scaled_eq 2 b j
    push_cast at h ⊢
    rw [mul_comm ((10 : ℚ) ^ (-i).toNat), ← mul_assoc, h]
  refine ⟨?_, ?_, ?_⟩
  · rw [← mul_lt_mul_iff_of_pos_right hpos, hleft, hright, Nat.cast_lt]
    exact Nat.compare_eq_lt
  · rw [← mul_left_inj' hpos.ne', hleft, hright, Nat.cast_inj]
    exact Nat.compare_eq_eq
  · rw [← mul_lt_mul_iff_of_pos_right hpos, hleft, hright, Nat.cast_lt]
    exact Nat.compare_eq_gt

namespace Magnitude

variable {x : Magnitude} {d : Numeral} {n : Nat}

/-- Where the reals that round to a double begin, in quarters of the last place. -/
def lowQuarters (x : Magnitude) : Nat :=
  if x.closeBelow then 4 * x.mantissa - 1 else 4 * x.mantissa - 2

/-- Where the reals that round to a double begin. -/
def low (x : Magnitude) : ℚ :=
  x.lowQuarters * 2 ^ (x.exponent - 2)

/-- Where the reals that round to a double end. -/
def high (x : Magnitude) : ℚ :=
  (4 * x.mantissa + 2 : ℕ) * 2 ^ (x.exponent - 2)

/-- The reals that round to a double do not begin above a number. -/
def Reaches (x : Magnitude) (q : ℚ) : Prop :=
  x.low < q ∨ x.mantissa % 2 = 0 ∧ x.low = q

/-- A number rounds to a double. -/
def Rounds (x : Magnitude) (q : ℚ) : Prop :=
  x.Reaches q ∧ (q < x.high ∨ x.mantissa % 2 = 0 ∧ q = x.high)

/-- Whether the reals that round to a double do not begin above a decimal. -/
def reaches (x : Magnitude) (d : Numeral) : Bool :=
  let atLow := compareScaled d.digits d.exponent x.lowQuarters (x.exponent - 2)
  atLow == .gt || (x.mantissa % 2 == 0 && atLow == .eq)

theorem reaches_iff : x.reaches d = true ↔ x.Reaches d.value := by
  obtain ⟨-, heq, hgt⟩ := compareScaled_spec d.digits d.exponent x.lowQuarters (x.exponent - 2)
  rw [reaches, Bool.or_eq_true, Bool.and_eq_true, beq_iff_eq, beq_iff_eq, beq_iff_eq, hgt, heq, Reaches,
    low, Numeral.value, @eq_comm ℚ (_ * 2 ^ _)]

/-- The decimals among the reals that round to a double are those that round to it. -/
theorem contains_iff : x.contains d = true ↔ x.Rounds d.value := by
  obtain ⟨hlt, heq, -⟩ := compareScaled_spec d.digits d.exponent (4 * x.mantissa + 2) (x.exponent - 2)
  have hcontains : x.contains d = (x.reaches d &&
      (compareScaled d.digits d.exponent (4 * x.mantissa + 2) (x.exponent - 2) == .lt ||
        (x.mantissa % 2 == 0 &&
          compareScaled d.digits d.exponent (4 * x.mantissa + 2) (x.exponent - 2) == .eq))) := rfl
  rw [hcontains, Bool.and_eq_true, reaches_iff, Bool.or_eq_true, Bool.and_eq_true, beq_iff_eq, beq_iff_eq,
    beq_iff_eq, hlt, heq, Rounds, high, Numeral.value]

/-- The magnitude of the doubles of a rank. -/
def ofRank (n : Nat) : Magnitude :=
  if n / 2 ^ 52 = 0 then ⟨n % 2 ^ 52, -1074, false⟩
  else ⟨2 ^ 52 + n % 2 ^ 52, (n / 2 ^ 52 : Nat) - 1075, n % 2 ^ 52 = 0 ∧ 1 < n / 2 ^ 52⟩

/-- The rank of a double is given by its bits after the sign. -/
theorem ofBits_eq_ofRank (bits : UInt64) : ofBits bits = ofRank (bits.toNat % 2 ^ 63) := by
  have hscale : ((bits >>> 52) &&& 0x7FF).toNat = bits.toNat % 2 ^ 63 / 2 ^ 52 := by
    have hmask : (0x7FF : UInt64).toNat = 2 ^ 11 - 1 := rfl
    rw [UInt64.toNat_and, UInt64.toNat_shiftRight, hmask, Nat.and_two_pow_sub_one_eq_mod,
      Nat.shiftRight_eq_div_pow]
    change bits.toNat / 2 ^ 52 % 2 ^ 11 = _
    omega
  have hfraction : (bits &&& 0xFFFFFFFFFFFFF).toNat = bits.toNat % 2 ^ 63 % 2 ^ 52 := by
    have hmask : (0xFFFFFFFFFFFFF : UInt64).toNat = 2 ^ 52 - 1 := rfl
    rw [UInt64.toNat_and, hmask, Nat.and_two_pow_sub_one_eq_mod]
    omega
  rw [ofBits, ofRank, hscale, hfraction]
  rfl

/-- The mantissa is as even or odd as the rank. -/
theorem mantissa_ofRank (n : Nat) : (ofRank n).mantissa % 2 = n % 2 := by
  rw [ofRank]
  split <;> dsimp only <;> omega

/-- The reals of two neighbours with one exponent meet. -/
theorem high_eq_low {y : Magnitude} (hexponent : y.exponent = x.exponent)
    (hquarters : y.lowQuarters = 4 * x.mantissa + 2) : x.high = y.low := by
  rw [high, low, hexponent, hquarters]

/-- The reals of two neighbours meet where the exponent grows. -/
theorem high_eq_low_of_succ {y : Magnitude} (hexponent : y.exponent = x.exponent + 1)
    (hquarters : 2 * y.lowQuarters = 4 * x.mantissa + 2) : x.high = y.low := by
  have hshift : x.exponent + 1 - 2 = x.exponent - 2 + 1 := by omega
  rw [high, low, hexponent, ← hquarters, hshift, zpow_add_one₀ (by decide)]
  push_cast
  ring

/-- The reals of a rank end where those of the next rank begin. -/
theorem high_ofRank (n : Nat) : (ofRank n).high = (ofRank (n + 1)).low := by
  generalize hscale : n / 2 ^ 52 = scale
  generalize hfraction : n % 2 ^ 52 = fraction
  rcases Nat.lt_or_ge (fraction + 1) (2 ^ 52) with hinside | hlast
  · have hdiv : (n + 1) / 2 ^ 52 = scale := by omega
    have hmod : (n + 1) % 2 ^ 52 = fraction + 1 := by omega
    rw [ofRank, ofRank, hdiv, hmod, hscale, hfraction]
    split
    · exact high_eq_low rfl (by simp [lowQuarters]; omega)
    · exact high_eq_low rfl (by simp [lowQuarters]; omega)
  · have hdiv : (n + 1) / 2 ^ 52 = scale + 1 := by omega
    have hmod : (n + 1) % 2 ^ 52 = 0 := by omega
    rw [ofRank, ofRank, hdiv, hmod, hscale, hfraction, if_neg (Nat.succ_ne_zero scale)]
    split
    · rename_i hzero
      subst hzero
      exact high_eq_low rfl (by simp [lowQuarters]; omega)
    · rename_i hpos
      refine high_eq_low_of_succ (by dsimp only; omega) ?_
      simp [lowQuarters, Nat.pos_of_ne_zero hpos]
      omega

theorem low_lt_high (x : Magnitude) : x.low < x.high := by
  have hlt : x.lowQuarters < 4 * x.mantissa + 2 := by
    rw [lowQuarters]
    split <;> omega
  rw [low, high]
  exact mul_lt_mul_of_pos_right (Nat.cast_lt.mpr hlt) (by positivity)

/-- The ranks are in the order of the doubles. -/
theorem low_strictMono : StrictMono fun n => (ofRank n).low :=
  strictMono_nat_of_lt_succ fun n => (ofRank n).low_lt_high.trans_eq (high_ofRank n)

/-- If a number reaches a rank, it reaches the ranks below. -/
theorem Reaches.of_lt {m : Nat} {q : ℚ} (h : (ofRank n).Reaches q) (hlt : m < n) :
    (ofRank m).low < q := by
  have hmono := low_strictMono hlt
  rcases h with h | ⟨-, h⟩
  · exact hmono.trans h
  · exact hmono.trans_eq h

/-- A number that rounds to a double does not reach the next rank. -/
theorem Rounds.not_reaches {q : ℚ} (h : (ofRank n).Rounds q) : ¬ (ofRank (n + 1)).Reaches q := by
  rintro (hreach | ⟨heven, hreach⟩)
  · rw [← high_ofRank] at hreach
    rcases h.2 with hend | ⟨-, hend⟩
    · exact lt_asymm hreach hend
    · exact hreach.ne' hend
  · rw [← high_ofRank] at hreach
    rcases h.2 with hend | ⟨heven', -⟩
    · exact hend.ne' hreach
    · -- one of two neighbours is odd
      rw [mantissa_ofRank] at heven heven'
      omega

end Magnitude

/-- The greatest number with a property that only small numbers have, below `start + 2 ^ bits`; it is
found bit by bit. -/
def greatest (p : Nat → Bool) : Nat → Nat → Nat
  | 0, start => start
  | bits + 1, start => greatest p bits (if p (start + 2 ^ bits) then start + 2 ^ bits else start)

/-- The greatest number with a property is found. -/
theorem greatest_eq {p : Nat → Bool} {n : Nat} (hp : ∀ m, p m = true ↔ m ≤ n) (bits start : Nat)
    (hstart : start ≤ n) (hbound : n < start + 2 ^ bits) : greatest p bits start = n := by
  induction bits generalizing start with
  | zero =>
    rw [greatest]
    omega
  | succ bits ih =>
    rw [pow_succ] at hbound
    rw [greatest]
    split_ifs with hbit
    · exact ih _ ((hp _).mp hbit) (by omega)
    · rw [hp] at hbit
      exact ih _ hstart (by omega)

/-- The rank of the double that a decimal rounds to. -/
def nearest (d : Numeral) : Nat :=
  greatest (fun n => (Magnitude.ofRank n).reaches d) 63 0

/-- A decimal that rounds to a double has this one as its nearest. -/
theorem nearest_eq {n : Nat} (hn : n < 2 ^ 63) {d : Numeral}
    (h : (Magnitude.ofRank n).Rounds d.value) : nearest d = n := by
  refine greatest_eq (fun m => ?_) 63 0 (Nat.zero_le n) (by omega)
  rw [Magnitude.reaches_iff]
  constructor
  · intro hreach
    by_contra hgreater
    rcases Nat.lt_or_eq_of_le (Nat.lt_of_not_le hgreater) with hlt | rfl
    · exact h.not_reaches (.inl (hreach.of_lt hlt))
    · exact h.not_reaches hreach
  · intro hle
    rcases Nat.lt_or_eq_of_le hle with hlt | rfl
    · exact .inl (h.1.of_lt hlt)
    · exact h.1

/-- Moving zeros into the exponent keeps the number. -/
theorem Numeral.value_strip (d : Numeral) (bound : Nat) : (d.strip bound).value = d.value := by
  induction bound generalizing d with
  | zero => rfl
  | succ bound ih =>
    rw [strip]
    split_ifs with hzeros
    · have hdigits : (d.digits : ℚ) = (d.digits / 10 : ℕ) * 10 := by
        exact_mod_cast (Nat.div_mul_cancel (Nat.dvd_of_mod_eq_zero hzeros.2)).symm
      rw [ih, value, value, hdigits, zpow_add_one₀ (by decide)]
      ring
    · rfl

namespace Magnitude

variable {x : Magnitude}

/-- The exact value of a double. -/
theorem value_exact (x : Magnitude) : x.exact.value = x.mantissa * 2 ^ x.exponent := by
  rcases le_total 0 x.exponent with hpos | hneg
  · obtain ⟨k, hk⟩ := Int.eq_ofNat_of_zero_le hpos
    simp [exact, Numeral.value, hk]
  · obtain ⟨k, hk⟩ := Int.exists_eq_neg_ofNat hneg
    have hexact : x.exact = ⟨x.mantissa * 5 ^ k, -k⟩ := by simp [exact, hk]
    have hten : (10 : ℚ) = 5 * 2 := by norm_num
    have hcancel : (5 : ℚ) ^ k * (5 ^ k)⁻¹ = 1 := mul_inv_cancel₀ (by positivity)
    rw [hexact, Numeral.value, hk, hten, mul_zpow, zpow_neg, zpow_neg, zpow_natCast, zpow_natCast]
    push_cast
    calc (x.mantissa : ℚ) * 5 ^ k * ((5 ^ k)⁻¹ * (2 ^ k)⁻¹)
        = x.mantissa * (2 ^ k)⁻¹ * (5 ^ k * (5 ^ k)⁻¹) := by ring
      _ = x.mantissa * (2 ^ k)⁻¹ := by rw [hcancel, mul_one]

/-- The exact value of a double rounds to it. -/
theorem rounds_exact (hx : x.mantissa ≠ 0) : x.Rounds x.exact.value := by
  have hquarters : x.exact.value = (4 * x.mantissa : ℕ) * 2 ^ (x.exponent - 2) := by
    rw [value_exact, zpow_sub₀ (by decide)]
    push_cast
    ring
  have hpos : (0 : ℚ) < 2 ^ (x.exponent - 2) := by positivity
  have hlow : x.lowQuarters < 4 * x.mantissa := by
    rw [lowQuarters]
    split <;> omega
  rw [hquarters]
  exact ⟨.inl (mul_lt_mul_of_pos_right (Nat.cast_lt.mpr hlow) hpos),
    .inl (mul_lt_mul_of_pos_right (Nat.cast_lt.mpr (by omega)) hpos)⟩

/-- Zero rounds to zero. -/
theorem rounds_zero (hx : x.mantissa = 0) : x.Rounds 0 := by
  have hquarters : x.lowQuarters = 0 := by simp [lowQuarters, hx]
  have hlow : x.low = 0 := by simp [low, hquarters]
  exact ⟨.inr ⟨by simp [hx], hlow⟩, .inl (hlow ▸ x.low_lt_high)⟩

/-- The shortest decimal of a double rounds to it. -/
theorem rounds_shortest (hx : x.mantissa ≠ 0) : x.Rounds x.shortest.value := by
  rw [shortest, Numeral.value_strip]
  cases hfound : (List.range 17).findSome? fun n => x.onGrid (x.scale - (n + 1 : Nat)) with
  | none => exact rounds_exact hx
  | some d =>
    obtain ⟨n, -, hgrid⟩ := List.exists_of_findSome?_eq_some hfound
    exact contains_iff.mp (contains_of_onGrid hgrid)

end Magnitude

end FlowScript.Decimal

namespace FlowScript.Json

open Decimal (Numeral Magnitude)

/-- The number that digits stand for, given by their values. -/
def digitsValue (ds : List Nat) : Nat :=
  ds.foldl (fun n d => n * 10 + d) 0

namespace Literal

/-- The power of ten after the digits of a literal. -/
def power (l : Literal) : Int :=
  match l.exponent with
  | none => 0
  | some (down, ds) => if down then -(digitsValue ds : Int) else digitsValue ds

/-- The decimal that a literal stands for, up to its sign. -/
def numeral (l : Literal) : Numeral :=
  ⟨digitsValue (l.whole ++ l.fraction), l.power - l.fraction.length⟩

/-- The number that a literal stands for: an integer without point and exponent, otherwise the double
nearest to its decimal. -/
def number (l : Literal) : Number :=
  if l.fraction.isEmpty ∧ l.exponent.isNone then
    .integer (if l.negative then -(digitsValue l.whole : Int) else digitsValue l.whole)
  else .double (UInt64.ofNat ((if l.negative then 2 ^ 63 else 0) + Decimal.nearest l.numeral))

end Literal

/-- Digits stand for the same number as their values. -/
theorem digitsValue_map (cs : List Char) :
    digitsValue (cs.map digitValue) = Nat.ofDigitChars 10 cs 0 := by
  rw [digitsValue, List.foldl_map, Nat.ofDigitChars_eq_foldl]
  congr 1
  funext n c
  rw [Nat.mul_comm]
  rfl

namespace Spelling

/-- The decimal that is spelled. -/
theorem numeral_literal (l : Spelling) : l.literal.numeral =
    ⟨Nat.ofDigitChars 10 (l.whole ++ l.fraction) 0, l.literal.power - l.fraction.length⟩ := by
  rw [Literal.numeral, literal]
  simp only [List.length_map]
  rw [← List.map_append, digitsValue_map]

/-- With one digit before the point the decimal is spelled as it is. -/
theorem numeral_scientific (negative : Bool) (n : Nat) (leading : Int) :
    (scientific negative n leading).literal.numeral =
      ⟨n, leading - ((Nat.toDigits 10 n).length - 1 : Nat)⟩ := by
  have hpower : (scientific negative n leading).literal.power = leading := by
    simp only [Literal.power, literal, scientific, Option.map_some, digitsValue_map,
      Nat.ofDigitChars_ten_toDigits]
    split
    · rename_i hdown
      have hnegative := of_decide_eq_true hdown
      omega
    · rename_i hup
      have hpositive : ¬ leading < 0 := fun hlt => hup (decide_eq_true hlt)
      omega
  rw [numeral_literal, hpower]
  simp only [scientific, List.take_append_drop, Nat.ofDigitChars_ten_toDigits, List.length_drop]

/-- Zeros after the point do not count. -/
theorem numeral_small (negative : Bool) (zeros n : Nat) :
    (small negative zeros n).literal.numeral = ⟨n, -((zeros + (Nat.toDigits 10 n).length : Nat) : Int)⟩ := by
  rw [numeral_literal]
  simp [small, Literal.power, literal, Nat.ofDigitChars_cons, Nat.ofDigitChars_append,
    Nat.ofDigitChars_replicate_zero, Nat.ofDigitChars_ten_toDigits]

/-- Zeros that fill up the places before the point count as a power of ten. -/
theorem value_large (negative : Bool) (n places : Nat) (hn : n ≠ 0) :
    (large negative n places hn).literal.numeral.value =
      n * 10 ^ ((places : Int) + 1 - (Nat.toDigits 10 n).length) := by
  have hdigits : Nat.ofDigitChars 10 (Nat.toDigits 10 n) 0 = n := Nat.ofDigitChars_ten_toDigits
  have hpower : (large negative n places hn).literal.power = 0 := rfl
  rw [numeral_literal, hpower, large]
  dsimp only
  generalize Nat.toDigits 10 n = ds at hdigits
  rcases Nat.lt_or_ge (places + 1) ds.length with hmore | hfew
  · have hdrop : (ds.drop (places + 1)).isEmpty = false := by
      rw [List.isEmpty_eq_false_iff]
      simp
      omega
    have hfill : places + 1 - ds.length = 0 := by omega
    have hexponent : (0 : Int) - (ds.drop (places + 1)).length = places + 1 - ds.length := by
      rw [List.length_drop]
      omega
    rw [hdrop, hfill, List.replicate_zero, List.append_nil, if_neg Bool.false_ne_true,
      List.take_append_drop, hdigits, Numeral.value, hexponent]
  · have hdrop : ds.drop (places + 1) = [] := List.drop_eq_nil_of_le hfew
    have hexponent : (places : Int) + 1 - ds.length = (places + 1 - ds.length : Nat) := by omega
    have hpoint : (0 : Int) - (['0'].length : Nat) = -1 := rfl
    have hlast (k : Nat) : Nat.ofDigitChars 10 ['0'] k = 10 * k := rfl
    rw [hdrop, List.take_of_length_le hfew, List.isEmpty_nil, if_pos rfl, Nat.ofDigitChars_append,
      Nat.ofDigitChars_append, hdigits, Nat.ofDigitChars_replicate_zero, hlast, hexponent, Numeral.value,
      hpoint, zpow_neg_one, zpow_natCast]
    push_cast
    ring

/-- The literal of a decimal stands for it. -/
theorem value_ofNumeral (negative : Bool) {d : Numeral} (hd : d.digits ≠ 0) :
    (ofNumeral negative d hd).literal.numeral.value = d.value := by
  have hlength : 0 < (Nat.toDigits 10 d.digits).length := List.length_pos_iff.mpr Nat.toDigits_ne_nil
  have hleading : d.leading = d.exponent + (Nat.toDigits 10 d.digits).length - 1 := rfl
  rw [ofNumeral]
  split_ifs with hpositional hbelow
  · have hexponent : -(((-d.leading).toNat - 1 + (Nat.toDigits 10 d.digits).length : Nat) : Int) =
        d.exponent := by omega
    rw [numeral_small, hexponent]
  · have hexponent : (d.leading.toNat : Int) + 1 - (Nat.toDigits 10 d.digits).length = d.exponent := by
      omega
    rw [value_large, hexponent, Numeral.value]
  · have hexponent : d.leading - ((Nat.toDigits 10 d.digits).length - 1 : Nat) = d.exponent := by
      omega
    rw [numeral_scientific, hexponent]

/-- The literal of a decimal has a point or an exponent. -/
theorem ofNumeral_isDouble (negative : Bool) {d : Numeral} (hd : d.digits ≠ 0) :
    ¬ ((ofNumeral negative d hd).literal.fraction.isEmpty ∧
      (ofNumeral negative d hd).literal.exponent.isNone) := by
  rw [ofNumeral]
  split_ifs with hpositional hbelow
  · simp [literal, small, Nat.toDigits_ne_nil]
  · simp [literal, large_fraction_ne_nil]
  · simp [literal, scientific]

theorem ofNumeral_negative (negative : Bool) {d : Numeral} (hd : d.digits ≠ 0) :
    (ofNumeral negative d hd).literal.negative = negative := by
  rw [ofNumeral]
  split_ifs <;> rfl

end Spelling

/-- A double is made up of its sign and its rank. -/
theorem ofNat_rank (bits : UInt64) :
    UInt64.ofNat ((if decide (bits >>> 63 = 1) then 2 ^ 63 else 0) + bits.toNat % 2 ^ 63) = bits := by
  have hlt : bits.toNat < 2 ^ 64 := bits.toNat_lt
  have hsign : bits >>> 63 = 1 ↔ 2 ^ 63 ≤ bits.toNat := by
    rw [← UInt64.toNat_inj, UInt64.toNat_shiftRight, Nat.shiftRight_eq_div_pow]
    change bits.toNat / 2 ^ 63 = 1 ↔ _
    omega
  rw [← UInt64.toNat_inj, UInt64.toNat_ofNat']
  by_cases hnegative : bits >>> 63 = 1
  · have hle := hsign.mp hnegative
    rw [if_pos (decide_eq_true hnegative)]
    omega
  · have hgt : bits.toNat < 2 ^ 63 := Nat.lt_of_not_le fun hle => hnegative (hsign.mpr hle)
    rw [if_neg (by simpa using hnegative)]
    omega

/-- A literal with point or exponent whose decimal rounds to a double stands for it. -/
theorem Literal.number_eq {l : Literal} {bits : UInt64}
    (hdouble : ¬ (l.fraction.isEmpty ∧ l.exponent.isNone)) (hsign : l.negative = decide (bits >>> 63 = 1))
    (hrounds : (Magnitude.ofBits bits).Rounds l.numeral.value) : l.number = .double bits := by
  rw [Magnitude.ofBits_eq_ofRank] at hrounds
  rw [number, if_neg hdouble, Decimal.nearest_eq (Nat.mod_lt _ (by decide)) hrounds, hsign, ofNat_rank]

/-- The literal of an integer stands for it. -/
theorem Spelling.number_ofInt (i : Int) : (ofInt i).literal.number = .integer i := by
  have hdigits : digitsValue ((Nat.toDigits 10 i.natAbs).map digitValue) = i.natAbs := by
    rw [digitsValue_map, Nat.ofDigitChars_ten_toDigits]
  have hnumber : (ofInt i).literal.number =
      .integer (if decide (i < 0) then -(i.natAbs : Int) else i.natAbs) := by
    rw [← hdigits]
    rfl
  rw [hnumber]
  congr 1
  split
  · rename_i hdown
    have hnegative := of_decide_eq_true hdown
    omega
  · rename_i hup
    have hpositive : ¬ i < 0 := fun hlt => hup (decide_eq_true hlt)
    omega

/-- The literal of a double stands for it. -/
theorem Spelling.number_ofBits (bits : UInt64) : (ofBits bits).literal.number = .double bits := by
  rw [ofBits]
  split_ifs with hzero
  · refine Literal.number_eq (by simp [literal, small]) rfl ?_
    have hvalue : (small (decide (bits >>> 63 = 1)) 0 0).literal.numeral.value = 0 := by
      simp [numeral_small, Numeral.value]
    rw [hvalue]
    exact Magnitude.rounds_zero hzero
  · have hne := Magnitude.shortest_ne_zero hzero
    refine Literal.number_eq (ofNumeral_isDouble _ hne) (ofNumeral_negative _ hne) ?_
    rw [value_ofNumeral]
    exact Magnitude.rounds_shortest hzero

/-- The literal of a number stands for it. -/
theorem Number.number_spelling (n : Number) : n.spelling.literal.number = n := by
  cases n with
  | integer i => exact Spelling.number_ofInt i
  | double bits => exact Spelling.number_ofBits bits

end FlowScript.Json
