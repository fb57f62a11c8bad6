import FlowScript.Json.Scan
import Mathlib.Tactic.SplitIfs

/-!
# Strings in a JSON text

A string that is written between double quotes is read back as it was: each character is written as
one unit of the string, and no two of these units make up one character.
-/

namespace FlowScript.Json

/-- The unit that a written character is read as: control characters without a letter of their own
are given by their code. -/
def unitOf (c : Char) : StringUnit :=
  if c.toNat < 32 ∧ c ∉ ['\x08', '\x0c', '\n', '\r', '\t'] then .code c.toNat else .char c

/-- The digits of a code below sixteen are read back. -/
theorem hexValue_digitChar {n : Nat} (hn : n < 16) : hexValue (Nat.digitChar n) = some n := by
  have hall : ∀ k < 16, hexValue (Nat.digitChar k) = some k := by decide
  exact hall n hn

/-- An escape with one letter stands for one character. -/
theorem scanUnits_escape {c e : Char} (hc : escapeChar c = some e) (cs : List Char) :
    scanUnits ('\\' :: c :: cs) = (scanUnits cs).map (consUnit (.char e)) := by
  have hu : c ≠ 'u' := by
    rintro rfl
    cases hc
  rw [scanUnits, hc]
  · rfl
  · exact fun _ _ _ _ _ h => absurd h hu

/-- A character that needs no escape stands for itself. -/
theorem scanUnits_plain {c : Char} (hquote : c ≠ '"') (hslash : c ≠ '\\') (hcode : ¬ c.toNat < 32)
    (cs : List Char) : scanUnits (c :: cs) = (scanUnits cs).map (consUnit (.char c)) := by
  rw [scanUnits]
  · rw [if_neg (by simp [hcode, hslash])]
  all_goals simp_all

/-- A control character that is given by its code. -/
theorem scanUnits_code {n : Nat} (hn : n < 256) (cs : List Char) :
    scanUnits ('\\' :: 'u' :: '0' :: '0' :: Nat.digitChar (n / 16) :: Nat.digitChar (n % 16) :: cs) =
      (scanUnits cs).map (consUnit (.code n)) := by
  have hzero : hexValue '0' = some 0 := by decide
  rw [scanUnits, hzero, hexValue_digitChar (by omega), hexValue_digitChar (by omega)]
  simp only [Option.bind_eq_bind, Option.bind_some]
  rw [show ((0 * 16 + 0) * 16 + n / 16) * 16 + n % 16 = n by omega]

/-- A written character is read as one unit. -/
theorem scanUnits_writeChar (c : Char) (cs : List Char) :
    scanUnits (writeChar c ++ cs) = (scanUnits cs).map (consUnit (unitOf c)) := by
  have hescape {x y : Char} (hc : c = y) (hx : escapeChar x = some y) (hy : unitOf y = .char y) :
      scanUnits ('\\' :: x :: cs) = (scanUnits cs).map (consUnit (unitOf c)) := by
    rw [hc, hy]
    exact scanUnits_escape hx cs
  rw [writeChar]
  split_ifs with hquote hslash hb hf hn hr ht hcode
  · exact hescape hquote rfl rfl
  · exact hescape hslash rfl rfl
  · exact hescape hb rfl rfl
  · exact hescape hf rfl rfl
  · exact hescape hn rfl rfl
  · exact hescape hr rfl rfl
  · exact hescape ht rfl rfl
  · have hunit : unitOf c = .code c.toNat := by
      rw [unitOf, if_pos ⟨hcode, by simp [hb, hf, hn, hr, ht]⟩]
    rw [hunit]
    exact scanUnits_code (by omega) cs
  · have hunit : unitOf c = .char c := by rw [unitOf, if_neg (by simp [hcode])]
    rw [hunit]
    exact scanUnits_plain hquote hslash hcode cs

/-- Written characters are read up to the closing quote. -/
theorem scanUnits_written (cs rest : List Char) :
    scanUnits (cs.flatMap writeChar ++ '"' :: rest) = some (cs.map unitOf, rest) := by
  induction cs with
  | nil => rfl
  | cons c cs ih =>
    rw [List.flatMap_cons, List.append_assoc, scanUnits_writeChar, ih]
    rfl

/-- Units of written characters are joined to these characters. -/
theorem joinUnits_written (cs : List Char) : joinUnits (cs.map unitOf) = some cs := by
  -- no code of a control character is half of a surrogate pair
  have hcode {c : Char} {n : Nat} (h : unitOf c = .code n) :
      (isHighHalf n || isLowHalf n) = false ∧ Char.ofNat n = c := by
    rw [unitOf] at h
    split at h
    · rename_i hc
      obtain rfl := StringUnit.code.inj h
      have hlt := hc.1
      exact ⟨by simp [isHighHalf, isLowHalf]; omega, Char.ofNat_toNat c⟩
    · cases h
  have hchar {c e : Char} (h : unitOf c = .char e) : e = c := by
    rw [unitOf] at h
    split at h
    · cases h
    · exact (StringUnit.char.inj h).symm
  induction cs with
  | nil => rfl
  | cons c cs ih =>
    rw [List.map_cons]
    cases hunit : unitOf c with
    | char e =>
      rw [joinUnits, ih, hchar hunit]
      rfl
    | code n =>
      obtain ⟨hhalf, hc⟩ := hcode hunit
      cases hrest : cs.map unitOf with
      | nil =>
        rw [hrest] at ih
        rw [joinUnits, hhalf, ih, hc]
        · rfl
        · simp
      | cons u us =>
        rw [hrest] at ih
        have hhigh : isHighHalf n = false := (Bool.or_eq_false_iff.mp hhalf).1
        cases u with
        | char e =>
          rw [joinUnits, hhalf, ih, hc]
          · rfl
          · simp
        | code m =>
          rw [joinUnits, hhalf, hhigh, ih, hc]
          rfl

/-- A string that was written is read back. -/
theorem scanString_written (s : String) (rest : List Char) :
    scanString (s.toList.flatMap writeChar ++ '"' :: rest) = some (some s, rest) := by
  rw [scanString, scanUnits_written]
  simp only [Option.bind_eq_bind, Option.bind_some, joinUnits_written, Option.map_some,
    String.ofList_toList]

end FlowScript.Json
