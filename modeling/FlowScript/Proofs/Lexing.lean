import FlowScript.Pattern.Template
import FlowScript.Proofs.Numerals
import Mathlib.Data.List.TakeWhile

/-!
# Reading a template character by character

Filling jumps from brace to brace and goes back by a brace where no hole follows. The relation `Lexes`
says the same one character at a time: a doubled brace, else a hole, else the character itself.
Every text has exactly one reading, and filling shows this reading, with each argument as it is. What
`print` makes of pieces, by doubling the braces of their literals, has these pieces as its reading.
-/

namespace FlowScript.Template

/-- The digits of a hole: at least one, of a number that fits 64 bits. -/
structure IsIndex (digits : List Char) : Prop where
  ne_nil : digits ≠ []
  isDigit : ∀ c ∈ digits, c.isDigit = true
  fits : Nat.ofDigitChars 10 digits 0 < UInt64.size

/-- The reading of a text from left to right. -/
inductive Lexes : List Char → List Piece → Prop where
  | nil : Lexes [] []
  | doubled {c rest ps} (hbrace : c = '{' ∨ c = '}') :
      Lexes rest ps → Lexes (c :: c :: rest) (.literal [c] :: ps)
  | hole {digits rest ps} (hdigits : IsIndex digits) :
      Lexes rest ps →
        Lexes ('{' :: (digits ++ '}' :: rest)) (.hole (Nat.ofDigitChars 10 digits 0) :: ps)
  | single {c rest ps} (hdoubled : c = '{' ∨ c = '}' → rest.head? ≠ some c)
      (hhole : c = '{' → ∀ digits after, IsIndex digits → rest ≠ digits ++ '}' :: after) :
      Lexes rest ps → Lexes (c :: rest) (.literal [c] :: ps)

/-- The text that a piece stands for. -/
def Piece.meaning (args : List String) : Piece → String
  | .literal text => String.ofList text
  | .hole index => if h : index < args.length then args[index] else "None"

/-- The numbers of the holes, in the order of the holes. -/
def holes (ps : List Piece) : List Nat :=
  ps.filterMap fun
    | .literal _ => none
    | .hole index => some index

/-- What pieces stand for, one after the other, and the numbers of the holes without an argument. -/
def Filled.ofPieces (ps : List Piece) (args : List String) : Filled where
  text := String.join (ps.map (Piece.meaning args))
  unresolved := (holes ps).filter (args.length ≤ ·)

/-- The written form of a piece: the braces of a literal are doubled. -/
def Piece.print : Piece → List Char
  | .literal text => text.flatMap fun c => if c = '{' ∨ c = '}' then [c, c] else [c]
  | .hole index => '{' :: ((toString index).toList ++ ['}'])

/-- The template of given pieces. -/
def print (ps : List Piece) : String :=
  String.ofList (ps.flatMap Piece.print)

/-- The pieces of one character each, and the holes, that a piece is made of. -/
def Piece.split : Piece → List Piece
  | .literal text => text.map fun c => .literal [c]
  | .hole index => [.hole index]

/-- The reading that the pieces of a text amount to. -/
def reading (cs : List Char) : List Piece :=
  (cut (cs.length + 1) cs).flatMap Piece.split

variable {cs rest digits : List Char} {c : Char} {ps : List Piece}

theorem isBrace_iff : isBrace c = true ↔ c = '{' ∨ c = '}' := by
  simp [isBrace]

theorem isBrace_eq_false : isBrace c = false ↔ ¬ (c = '{' ∨ c = '}') := by
  rw [← isBrace_iff, Bool.not_eq_true]

/-- Digits stand for the number that they are the digits of. -/
theorem numberOf_eq (digits : List Char) : numberOf digits = Nat.ofDigitChars 10 digits 0 := by
  rw [numberOf, Nat.ofDigitChars]
  congr 1
  funext n c
  rw [Nat.mul_comm]
  rfl

/-- A hole follows an opening brace exactly if digits of a number that fits and a closing brace do. -/
theorem holeAt?_eq_some_iff {index : Nat} : holeAt? cs = some (index, rest) ↔
    ∃ digits, IsIndex digits ∧ cs = digits ++ '}' :: rest ∧ index = Nat.ofDigitChars 10 digits 0 := by
  constructor
  · intro h
    rw [holeAt?] at h
    split at h
    · rename_i after hdrop
      split_ifs at h with hbad
      obtain ⟨rfl, rfl⟩ := Prod.mk.inj (Option.some.inj h)
      obtain ⟨hsome, hfits⟩ := not_or.mp hbad
      refine ⟨cs.takeWhile Char.isDigit, ⟨?_, fun c hc => ?_, ?_⟩, ?_, numberOf_eq _⟩
      · simpa using hsome
      · exact List.mem_takeWhile_imp hc
      · rw [← numberOf_eq]
        exact Nat.lt_of_not_le hfits
      · rw [← hdrop, List.takeWhile_append_dropWhile]
    · cases h
  · rintro ⟨digits, hdigits, rfl, rfl⟩
    have htake : (digits ++ '}' :: rest).takeWhile Char.isDigit = digits := by
      rw [List.takeWhile_append_of_pos hdigits.isDigit]
      simp
    have hdrop : (digits ++ '}' :: rest).dropWhile Char.isDigit = '}' :: rest := by
      rw [List.dropWhile_append_of_pos hdigits.isDigit]
      simp
    have hfits : ¬ (digits.isEmpty = true ∨ Nat.pow 2 64 ≤ Nat.ofDigitChars 10 digits 0) := by
      rw [not_or, List.isEmpty_iff]
      exact ⟨hdigits.ne_nil, Nat.not_le.mpr hdigits.fits⟩
    rw [holeAt?]
    simp only [htake, hdrop, numberOf_eq]
    rw [if_neg hfits]

/-- The bound does not matter once it is more than the length. -/
theorem cut_congr {bound bound' : Nat} (h : cs.length < bound) (h' : cs.length < bound') :
    cut bound cs = cut bound' cs := by
  induction bound generalizing cs bound' with
  | zero => exact absurd h (Nat.not_lt_zero _)
  | succ bound ih =>
    cases bound' with
    | zero => exact absurd h' (Nat.not_lt_zero _)
    | succ bound' =>
      have hle := (cs.dropWhile_suffix fun c => !isBrace c).length_le
      have hcut (rest : List Char) (hrest : rest.length < cs.length) :
          cut bound rest = cut bound' rest := ih (by omega) (by omega)
      rw [cut, cut]
      congr 1
      split
      · rfl
      all_goals
        rename_i heq
        rw [heq] at hle
        simp only [List.length_cons] at hle
      · rw [hcut _ (by omega)]
      · rw [hcut _ (by omega)]
      · split
        · rename_i hhole
          split_ifs at hhole
          obtain ⟨digits, -, rfl, -⟩ := holeAt?_eq_some_iff.mp hhole
          simp only [List.length_append, List.length_cons] at hle
          rw [hcut _ (by omega)]
        · rw [hcut _ (by omega)]

/-- The reading of a text can be made with any bound above its length. -/
theorem flatMap_split_cut {bound : Nat} (h : cs.length < bound) :
    (cut bound cs).flatMap Piece.split = reading cs := by
  rw [reading, cut_congr h (Nat.lt_succ_self _)]

/-- A character that is no brace stands for itself. -/
theorem reading_plain (hc : isBrace c = false) : reading (c :: rest) = .literal [c] :: reading rest := by
  have hbound : rest.length < (c :: rest).length + 1 := by
    rw [List.length_cons]
    omega
  rw [← flatMap_split_cut hbound, reading, cut, cut, List.takeWhile_cons_of_pos (by simp [hc]),
    List.dropWhile_cons_of_pos (by simp [hc])]
  rfl

/-- A doubled brace stands for one brace. -/
theorem reading_doubled (hc : c = '{' ∨ c = '}') :
    reading (c :: c :: rest) = .literal [c] :: reading rest := by
  have hbound : rest.length < (c :: c :: rest).length := by
    rw [List.length_cons, List.length_cons]
    omega
  rw [← flatMap_split_cut hbound]
  rcases hc with rfl | rfl <;> rfl

/-- A brace that is not doubled is the start of a hole or stands for itself. -/
theorem cut_lone (bound : Nat) (hc : c = '{' ∨ c = '}') (hlone : rest.head? ≠ some c) :
    cut (bound + 1) (c :: rest) =
      .literal [] :: (if c = '{' then holeAt? rest else none).elim (.literal [c] :: cut bound rest)
        fun h => .hole h.1 :: cut bound h.2 := by
  have hbrace : isBrace c = true := isBrace_iff.mpr hc
  rw [cut, List.takeWhile_cons_of_neg (by simp [hbrace]), List.dropWhile_cons_of_neg (by simp [hbrace])]
  congr 1
  split
  · rename_i heq
    cases heq
  · rename_i heq
    obtain ⟨rfl, rfl⟩ := List.cons.inj heq
    exact absurd rfl hlone
  · rename_i heq
    obtain ⟨rfl, rfl⟩ := List.cons.inj heq
    exact absurd rfl hlone
  · rename_i heq
    obtain ⟨rfl, rfl⟩ := List.cons.inj heq
    split
    · rename_i hhole
      rw [hhole]
      rfl
    · rename_i hhole
      rw [hhole]
      rfl

/-- The digits of a hole do not start with a brace. -/
theorem IsIndex.head?_ne (h : IsIndex digits) : (digits ++ '}' :: rest).head? ≠ some '{' := by
  cases digits with
  | nil => exact absurd rfl h.ne_nil
  | cons d ds =>
    intro hhead
    obtain rfl : d = '{' := Option.some.inj hhead
    exact absurd (h.isDigit '{' List.mem_cons_self) (by decide)

/-- A hole stands for the argument of its number. -/
theorem reading_hole (h : IsIndex digits) : reading ('{' :: (digits ++ '}' :: rest)) =
    .hole (Nat.ofDigitChars 10 digits 0) :: reading rest := by
  have hbound : rest.length < ('{' :: (digits ++ '}' :: rest)).length := by
    simp only [List.length_cons, List.length_append]
    omega
  have hhole : holeAt? (digits ++ '}' :: rest) = some (Nat.ofDigitChars 10 digits 0, rest) :=
    holeAt?_eq_some_iff.mpr ⟨digits, h, rfl, rfl⟩
  rw [reading, cut_lone _ (.inl rfl) h.head?_ne, if_pos rfl, hhole, ← flatMap_split_cut hbound]
  rfl

/-- A brace that is neither doubled nor the start of a hole stands for itself. -/
theorem reading_lone (hc : c = '{' ∨ c = '}') (hlone : rest.head? ≠ some c)
    (hhole : c = '{' → ∀ digits after, IsIndex digits → rest ≠ digits ++ '}' :: after) :
    reading (c :: rest) = .literal [c] :: reading rest := by
  have hnone : (if c = '{' then holeAt? rest else none) = none := by
    split_ifs with hopen
    · rw [Option.eq_none_iff_forall_ne_some]
      rintro ⟨index, after⟩ hsome
      obtain ⟨digits, hdigits, hrest, -⟩ := holeAt?_eq_some_iff.mp hsome
      exact hhole hopen digits after hdigits hrest
    · rfl
  have hbound : rest.length < (c :: rest).length := Nat.lt_succ_self _
  rw [reading, cut_lone _ hc hlone, hnone, ← flatMap_split_cut hbound]
  rfl

/-- The pieces of a text make up a reading of it. -/
theorem lexes_reading (cs : List Char) : Lexes cs (reading cs) := by
  induction hn : cs.length using Nat.strongRecOn generalizing cs with
  | ind n ih =>
    subst hn
    cases cs with
    | nil => exact .nil
    | cons c rest =>
      have hrest : Lexes rest (reading rest) := ih rest.length (Nat.lt_succ_self _) rest rfl
      by_cases hc : c = '{' ∨ c = '}'
      · by_cases hdoubled : rest.head? = some c
        · obtain ⟨after, rfl⟩ := List.head?_eq_some_iff.mp hdoubled
          rw [reading_doubled hc]
          exact .doubled hc (ih _ (by simp only [List.length_cons]; omega) after rfl)
        · by_cases hhole : c = '{' ∧ ∃ digits after, IsIndex digits ∧ rest = digits ++ '}' :: after
          · obtain ⟨rfl, digits, after, hdigits, rfl⟩ := hhole
            rw [reading_hole hdigits]
            exact .hole hdigits
              (ih _ (by simp only [List.length_cons, List.length_append]; omega) after rfl)
          · have hhole' : c = '{' → ∀ digits after, IsIndex digits → rest ≠ digits ++ '}' :: after :=
              fun hopen digits after hdigits heq => hhole ⟨hopen, digits, after, hdigits, heq⟩
            rw [reading_lone hc hdoubled hhole']
            exact .single (fun _ => hdoubled) hhole' hrest
      · rw [reading_plain (isBrace_eq_false.mpr hc)]
        exact .single (fun hbrace => absurd hbrace hc) (fun hopen => absurd (.inl hopen) hc) hrest

/-- A text has one reading. -/
theorem Lexes.eq_reading (h : Lexes cs ps) : ps = reading cs := by
  induction h with
  | nil => rfl
  | doubled hbrace _ ih => rw [reading_doubled hbrace, ih]
  | hole hdigits _ ih => rw [reading_hole hdigits, ih]
  | @single c rest ps hdoubled hhole _ ih =>
    by_cases hc : c = '{' ∨ c = '}'
    · rw [reading_lone hc (hdoubled hc) hhole, ih]
    · rw [reading_plain (isBrace_eq_false.mpr hc), ih]

/-- Filling puts the meaning of a piece in its place. -/
theorem Piece.fill_eq_meaning (args : List String) (p : Piece) :
    p.fill args = (p.meaning args).toList := by
  cases p with
  | literal text => rw [fill, meaning, String.toList_ofList]
  | hole index =>
    rw [fill, meaning, List.getD_eq_getElem?_getD]
    split
    · rename_i hlt
      rw [List.getElem?_eq_getElem hlt, Option.getD_some]
    · rename_i hge
      rw [List.getElem?_eq_none (Nat.le_of_not_lt hge), Option.getD_none]

/-- Filling shows the pieces of a template. -/
theorem fill_eq_ofPieces (template : String) (args : List String) :
    fill template args = .ofPieces (pieces template) args := by
  rw [fill, Filled.ofPieces]
  congr 1
  · apply String.toList_injective
    rw [String.toList_ofList, String.toList_join, List.flatMap_map]
    exact congrArg (List.flatMap · _) (funext (Piece.fill_eq_meaning args))
  · rw [holes, List.filter_filterMap]
    congr 1
    funext p
    cases p with
    | literal text => rfl
    | hole index =>
      by_cases hlt : index < args.length
      · simp [Piece.unresolved?, Option.filter, hlt, Nat.not_le.mpr hlt]
      · simp [Piece.unresolved?, Option.filter, hlt, Nat.le_of_not_lt hlt]

/-- Splitting pieces keeps the text that they stand for. -/
theorem join_split (ps : List Piece) (args : List String) :
    String.join ((ps.flatMap Piece.split).map (Piece.meaning args)) =
      String.join (ps.map (Piece.meaning args)) := by
  induction ps with
  | nil => rfl
  | cons p ps ih =>
    have hp : String.join (p.split.map (Piece.meaning args)) = p.meaning args := by
      apply String.toList_injective
      cases p with
      | literal text => simp [Piece.split, Piece.meaning, List.flatMap_map]
      | hole index => simp [Piece.split]
    rw [List.flatMap_cons, List.map_append, String.join_append, ih, hp, List.map_cons, String.join_cons]

/-- Splitting pieces keeps their holes. -/
theorem holes_split (ps : List Piece) : holes (ps.flatMap Piece.split) = holes ps := by
  induction ps with
  | nil => rfl
  | cons p ps ih =>
    have hp : holes p.split = holes [p] := by
      cases p with
      | literal text => simp [Piece.split, holes]
      | hole index => rfl
    calc holes ((p :: ps).flatMap Piece.split)
        = holes p.split ++ holes (ps.flatMap Piece.split) := by
          rw [List.flatMap_cons, holes, List.filterMap_append, holes, holes]
      _ = holes [p] ++ holes ps := by rw [hp, ih]
      _ = holes (p :: ps) := by rw [holes, holes, ← List.filterMap_append, holes, List.singleton_append]

/-- Splitting pieces keeps what they stand for. -/
theorem Filled.ofPieces_split (ps : List Piece) (args : List String) :
    ofPieces (ps.flatMap Piece.split) args = ofPieces ps args := by
  rw [ofPieces, join_split, holes_split, ofPieces]

/-- Filling shows the reading of a template. -/
theorem Lexes.fill_eq {template : String} (h : Lexes template.toList ps) (args : List String) :
    fill template args = .ofPieces ps args := by
  rw [h.eq_reading, reading, Filled.ofPieces_split]
  exact fill_eq_ofPieces template args

/-- Every template, well formed or not, has one reading from left to right, and filling it shows this
reading, whatever the arguments are: each of them in the place of its holes and as it is. The holes
that stay open follow from the reading and the number of arguments. -/
theorem fill_follows_reading (template : String) :
    ∃ ps, (∀ qs, Lexes template.toList qs ↔ qs = ps) ∧
      ∀ args, fill template args = .ofPieces ps args := by
  have hreading := lexes_reading template.toList
  refine ⟨reading template.toList, fun qs => ⟨Lexes.eq_reading, ?_⟩, hreading.fill_eq⟩
  rintro rfl
  exact hreading

/-- A printed piece is read as this piece. -/
theorem Lexes.print_append (h : Lexes rest ps) (p : Piece)
    (hp : ∀ index, p = .hole index → index < UInt64.size) :
    Lexes (p.print ++ rest) (p.split ++ ps) := by
  cases p with
  | literal text =>
    rw [Piece.print, Piece.split]
    induction text with
    | nil => exact h
    | cons c text ih =>
      rw [List.flatMap_cons, List.map_cons, List.append_assoc]
      split_ifs with hc
      · exact .doubled hc (ih (by simp))
      · exact .single (fun hbrace => absurd hbrace hc) (fun hopen => absurd (.inl hopen) hc)
          (ih (by simp))
  | hole index =>
    have hvalue : Nat.ofDigitChars 10 (Nat.toDigits 10 index) 0 = index := Nat.ofDigitChars_ten_toDigits
    have hdigits : IsIndex (Nat.toDigits 10 index) :=
      ⟨Nat.toDigits_ne_nil, Json.toDigits_isDigit index, by rw [hvalue]; exact hp index rfl⟩
    have hlexes := Lexes.hole hdigits h
    rw [hvalue] at hlexes
    simpa [Piece.print, Piece.split, Nat.toString_eq_repr, Nat.repr_eq_ofList_toDigits] using hlexes

/-- What is printed is read as the pieces that were printed. -/
theorem lexes_print (hps : ∀ index, .hole index ∈ ps → index < UInt64.size) :
    Lexes (print ps).toList (ps.flatMap Piece.split) := by
  rw [print, String.toList_ofList]
  induction ps with
  | nil => exact .nil
  | cons p ps ih =>
    rw [List.flatMap_cons, List.flatMap_cons]
    have hrest := ih fun index hindex => hps index (List.mem_cons_of_mem _ hindex)
    refine hrest.print_append p ?_
    rintro index rfl
    exact hps index List.mem_cons_self

/-- Filling undoes printing: literals come out as they were, each hole as the argument of its number or
as `None`, and exactly the holes without an argument are reported, in their order. -/
theorem fill_print (hps : ∀ index, .hole index ∈ ps → index < UInt64.size) (args : List String) :
    fill (print ps) args = .ofPieces ps args := by
  rw [(lexes_print hps).fill_eq, Filled.ofPieces_split]

/-- Braces on both sides of a hole, a hole of the largest number, and an argument that looks like a
hole itself. -/
theorem fill_print_between_braces :
    fill (print [.literal ['{'], .hole 0, .literal ['}', '{'], .hole 18446744073709551615])
      ["\x7b0\x7d"] = ⟨"\x7b\x7b0\x7d\x7d\x7bNone", [18446744073709551615]⟩ := by
  have hps : ∀ index, Piece.hole index ∈
      [.literal ['{'], .hole 0, .literal ['}', '{'], .hole 18446744073709551615] →
        index < UInt64.size := by
    simp [UInt64.size]
  exact (fill_print hps _).trans (by decide +kernel)

end FlowScript.Template
