import FlowScript.Pattern.Basic
import FlowScript.Pattern.Template
import Mathlib.Data.List.Infix
import Mathlib.Data.List.TakeWhile

/-!
# The last line of a filled pattern

The last character of a text that is not blank is the last such character of its last line that is
not blank. Filling a template leaves a colon at its end alone, since no colon is part of a hole. So
a pattern that opens a scope has a colon at the end of its last line, whatever it is filled with.
-/

namespace FlowScript

namespace Text

variable {cs : List Char} {c : Char}

/-- The last character that is not blank. -/
def lastInk? (cs : List Char) : Option Char :=
  cs.reverse.find? fun c => !isBlank c

/-- The last character of two texts that is not blank. -/
theorem lastInk?_append (cs ds : List Char) :
    lastInk? (cs ++ ds) = (lastInk? ds).or (lastInk? cs) := by
  rw [lastInk?, List.reverse_append, List.find?_append]
  rfl

/-- A text has no such character exactly if it is blank. -/
theorem lastInk?_eq_none_iff : lastInk? cs = none ↔ cs.all isBlank = true := by
  simp [lastInk?, List.find?_eq_none]

/-- Only blank characters stand after the last character that is not blank. -/
theorem lastInk?_eq_some_iff : lastInk? cs = some c ↔
    isBlank c = false ∧ ∃ front blanks, cs = front ++ c :: blanks ∧ blanks.all isBlank = true := by
  rw [lastInk?, List.find?_eq_some_iff_append]
  simp only [Bool.not_eq_true', Bool.not_not, List.all_eq_true]
  constructor
  · rintro ⟨hc, after, before, hcs, hafter⟩
    refine ⟨hc, before.reverse, after.reverse, ?_, ?_⟩
    · rw [← List.reverse_reverse cs, hcs]
      simp
    · simpa using hafter
  · rintro ⟨hc, front, blanks, rfl, hblanks⟩
    exact ⟨hc, blanks.reverse, front.reverse, by simp, by simpa using hblanks⟩

/-- A trimmed text ends with the last character that is not blank. -/
theorem dropBlankEnd_of_lastInk? {front blanks : List Char} (hc : isBlank c = false)
    (hblanks : blanks.all isBlank = true) :
    dropBlankEnd (front ++ c :: blanks) = front ++ [c] := by
  have hdrop : (blanks.reverse ++ c :: front.reverse).dropWhile isBlank = c :: front.reverse := by
    rw [List.dropWhile_append_of_pos (by simpa using hblanks),
      List.dropWhile_cons_of_neg (by simp [hc])]
  simp [dropBlankEnd, hdrop]

/-- The last character of a trimmed text. -/
theorem getLast?_dropBlankEnd (cs : List Char) : (dropBlankEnd cs).getLast? = lastInk? cs := by
  rw [dropBlankEnd, List.getLast?_reverse, lastInk?, List.find?_not_eq_head?_dropWhile]

/-- Taking the carriage return off a line takes no other character off. -/
theorem lastInk?_dropReturn (line : List Char) :
    lastInk? (dropReturn line).reverse = lastInk? line.reverse := by
  unfold dropReturn
  split
  · rw [List.reverse_cons, lastInk?_append]
    rfl
  · rfl

/-- The last character of a text that is not blank stands in its last line that is not blank. -/
theorem findSome?_cutLines (line cs : List Char) :
    (cutLines line cs).reverse.findSome? lastInk? = lastInk? (line.reverse ++ cs) := by
  induction cs generalizing line with
  | nil =>
    rw [cutLines]
    split
    · rename_i hline
      rw [List.isEmpty_iff.mp hline]
      rfl
    · simp
  | cons c rest ih =>
    rw [cutLines]
    split
    · rename_i hc
      have hbreak : lastInk? (line.reverse ++ ['\n']) = lastInk? line.reverse := by
        rw [lastInk?_append]
        rfl
      have hrest : (cutLines [] rest).reverse.findSome? lastInk? = lastInk? rest := ih []
      rw [List.reverse_cons, List.findSome?_append, hrest, hc, List.append_cons, lastInk?_append,
        hbreak, ← lastInk?_dropReturn]
      simp
    · rw [ih, List.reverse_cons, List.append_assoc]
      rfl

/-- The first of some lines that is not blank, and its last character that is not blank. -/
theorem findSome?_lastInk? (ls : List (List Char)) :
    ls.findSome? lastInk? = (ls.find? fun l => !l.all isBlank).bind lastInk? := by
  induction ls with
  | nil => rfl
  | cons l rest ih =>
    rw [List.findSome?_cons, List.find?_cons]
    cases hink : lastInk? l with
    | none => rw [lastInk?_eq_none_iff.mp hink, ih]; rfl
    | some c =>
      have hfull : (!l.all isBlank) = true := by
        rw [Bool.not_eq_true', ← Bool.not_eq_true]
        intro hblank
        rw [lastInk?_eq_none_iff.mpr hblank] at hink
        cases hink
      simp only [hfull, Option.bind_some, hink]

/-- The last line of a text that is not blank has the last character of the text that is not
blank. -/
theorem lastInk?_lastLine? (text : String) :
    (lastLine? text).bind (fun l => lastInk? l.toList) = lastInk? text.toList := by
  have hlast := findSome?_cutLines [] text.toList
  rw [findSome?_lastInk?] at hlast
  rw [lastLine?, lines, ← List.map_reverse, List.find?_map, Option.bind_map]
  simpa [Function.comp_def, isBlankText] using hlast

/-- A text that ends with a character of a line has a last line that ends with it. -/
theorem cutLines_concat (hc : c ≠ '\n') (line cs : List Char) :
    ∃ front last, cutLines line (cs ++ [c]) = front ++ [last ++ [c]] := by
  induction cs generalizing line with
  | nil => exact ⟨[], line.reverse, by simp [cutLines, hc]⟩
  | cons a rest ih =>
    rw [List.cons_append, cutLines]
    split
    · obtain ⟨front, last, hlast⟩ := ih []
      exact ⟨(dropReturn line).reverse :: front, last, by rw [hlast]; rfl⟩
    · exact ih (a :: line)

/-- The last line of a text that ends with a character of a line. -/
theorem lines_concat (hc : c ≠ '\n') (cs : List Char) :
    ∃ front last, lines (String.ofList (cs ++ [c])) = front ++ [String.ofList (last ++ [c])] := by
  obtain ⟨front, last, hlast⟩ := cutLines_concat hc [] cs
  refine ⟨front.map String.ofList, last, ?_⟩
  simp [lines, hlast]

end Text

namespace Template

variable {cs rest last : List Char}

/-- The end of a text that does not hold some character stands after this character. -/
theorem suffix_of_not_mem {front : List Char} {c : Char} (h : last <:+ front ++ c :: rest)
    (hc : c ∉ last) : last <:+ rest := by
  rw [List.append_cons] at h
  rcases List.suffix_or_suffix_of_suffix h (List.suffix_append (front ++ [c]) rest) with h' | h'
  · exact h'
  · obtain ⟨middle, rfl⟩ := h'
    have hmiddle : middle <:+ front ++ [c] := ((List.suffix_append_inj_of_length_eq rfl).mp h).1
    rcases List.suffix_concat_iff.mp hmiddle with rfl | ⟨first, rfl, -⟩
    · exact List.suffix_refl _
    · exact absurd (by simp) hc

/-- What follows a hole stands after a closing brace. -/
theorem holeAt?_eq_some {index : Nat} (h : holeAt? cs = some (index, rest)) :
    ∃ digits, cs = digits ++ '}' :: rest := by
  rw [holeAt?] at h
  split at h
  · rename_i tail hdrop
    split_ifs at h
    obtain ⟨-, rfl⟩ := Prod.mk.inj (Option.some.inj h)
    exact ⟨cs.takeWhile Char.isDigit, by rw [← hdrop, List.takeWhile_append_dropWhile]⟩
  · cases h

/-- Filling a template leaves the end of its text alone, from the last brace on. -/
theorem suffix_cut (args : List String) (hlast : ∀ c ∈ last, isBrace c = false) (bound : Nat)
    (hbound : cs.length < bound) (h : last <:+ cs) :
    last <:+ (cut bound cs).flatMap (Piece.fill args) := by
  induction bound generalizing cs with
  | zero => exact absurd hbound (Nat.not_lt_zero _)
  | succ bound ih =>
    have hcs := List.takeWhile_append_dropWhile (p := fun c => !isBrace c) (l := cs)
    generalize hfront : cs.takeWhile (fun c => !isBrace c) = front at hcs
    -- a brace and what follows it, down to a later part of the text
    have hlater {middle after : List Char} {c : Char} (hbrace : isBrace c = true)
        (hcut : cs = middle ++ c :: after) {between : List Char} :
        last <:+ front ++ (between ++ (cut bound after).flatMap (Piece.fill args)) := by
      subst hcut
      have hafter : last <:+ after :=
        suffix_of_not_mem h fun hin => by simp [hlast c hin] at hbrace
      have hshort : after.length < bound := by
        simp only [List.length_append, List.length_cons] at hbound
        omega
      exact ((ih hshort hafter).trans (List.suffix_append _ _)).trans (List.suffix_append _ _)
    rw [cut, List.flatMap_cons, hfront]
    change last <:+ front ++ _
    cases hdrop : cs.dropWhile fun c => !isBrace c with
    | nil =>
      rw [hdrop, List.append_nil] at hcs
      simpa [hcs] using h
    | cons c after =>
      have hbrace : isBrace c = true := by
        have hhead := List.head?_dropWhile_not (fun c => !isBrace c) cs
        simpa [hdrop] using hhead
      rw [hdrop] at hcs
      split
      · rename_i heq
        cases heq
      · rename_i heq
        obtain ⟨rfl, rfl⟩ := List.cons.inj heq
        exact hlater rfl (hcs.symm.trans (List.append_cons _ _ _))
      · rename_i heq
        obtain ⟨rfl, rfl⟩ := List.cons.inj heq
        exact hlater rfl (hcs.symm.trans (List.append_cons _ _ _))
      · rename_i heq
        obtain ⟨rfl, rfl⟩ := List.cons.inj heq
        split
        · rename_i index tail hhole
          split_ifs at hhole
          obtain ⟨digits, hdigits⟩ := holeAt?_eq_some hhole
          have hcut : cs = (front ++ c :: digits) ++ '}' :: tail := by
            rw [← hcs, hdigits]
            simp
          exact hlater rfl hcut
        · exact hlater hbrace hcs.symm

end Template

/-- A pattern that opens a scope ends with a colon, up to blanks. -/
theorem Pattern.lastInk?_of_opensScope {p : Pattern} (h : p.opensScope = true) :
    p.kind = .block ∧ Text.lastInk? p.text.toList = some ':' := by
  rw [opensScope, Bool.and_eq_true] at h
  obtain ⟨hkind, hcolon⟩ := h
  refine ⟨by simpa using hkind, ?_⟩
  rw [← Text.lastInk?_lastLine?]
  cases hline : lastLine? p.text with
  | none => simp [hline] at hcolon
  | some l =>
    rw [hline, Option.any_some, beq_iff_eq, Text.trimEnd, String.toList_ofList,
      Text.getLast?_dropBlankEnd] at hcolon
    exact hcolon

/-- However it is filled, a pattern that opens a scope has a colon at the end of its last line. -/
theorem Pattern.lines_of_opensScope {p : Pattern} (h : p.opensScope = true) (args : List String) :
    ∃ front last, Text.lines (Text.trimEnd (Template.fill p.text args).text) =
      front ++ [String.ofList (last ++ [':'])] := by
  obtain ⟨-, front, blanks, htext, hblanks⟩ :=
    Text.lastInk?_eq_some_iff.mp (lastInk?_of_opensScope h).2
  have hplain : ∀ c ∈ ':' :: blanks, Template.isBrace c = false := by
    intro c hc
    rcases List.mem_cons.mp hc with rfl | hc
    · rfl
    · have hblank := List.all_eq_true.mp hblanks c hc
      rw [← Bool.not_eq_true, Template.isBrace, Bool.or_eq_true, beq_iff_eq, beq_iff_eq]
      rintro (rfl | rfl) <;> cases hblank
  have hsuffix : ':' :: blanks <:+ p.text.toList := htext ▸ List.suffix_append _ _
  obtain ⟨filled, hfilled⟩ := Template.suffix_cut args hplain (p.text.toList.length + 1)
    (Nat.lt_succ_self _) hsuffix
  have htrimmed :
      Text.trimEnd (Template.fill p.text args).text = String.ofList (filled ++ [':']) := by
    rw [Text.trimEnd, Template.fill, Template.pieces, ← hfilled, String.toList_ofList,
      Text.dropBlankEnd_of_lastInk? rfl hblanks]
  rw [htrimmed]
  exact Text.lines_concat (by decide) filled

end FlowScript
