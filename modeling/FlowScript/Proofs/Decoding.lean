import FlowScript.Literal
import FlowScript.Proofs.Nearest
import FlowScript.Proofs.Written

/-!
# Literals are read back

A reader for the literals of a program: names for the three constants, numbers, strings with their
escapes, lists and mappings. It gets every value back from its literal, whatever the strings in the
value hold and however deep it is nested. So no two values share a literal. A literal has no line
break, since those of its strings are escaped.
-/

namespace FlowScript.Literal

open FlowScript.Json (EndsNumber Number Spelling Value isSpace scanExponent scanFraction scanList scanSign
  scanWhole separated skipSpace)

/-- The character that an escape stands for. -/
def unescape? (c : Char) : Option Char :=
  if c = '\\' ∨ c = '"' then some c
  else if c = 'n' then some '\n'
  else if c = 'r' then some '\r'
  else if c = 't' then some '\t'
  else none

/-- The characters of a string up to its closing quote; the opening quote has been read. -/
def scanText : List Char → Option (List Char × List Char)
  | [] => none
  | '"' :: rest => some ([], rest)
  | '\\' :: c :: rest => do
    let e ← unescape? c
    (scanText rest).map fun r => (e :: r.1, r.2)
  | c :: rest => if c = '\\' then none else (scanText rest).map fun r => (c :: r.1, r.2)

/-- The parts of a number. -/
def scanNumeral (cs : List Char) : Option (Json.Literal × List Char) := do
  let (negative, cs) := scanSign cs
  let (whole, cs) ← scanWhole cs
  let (fraction, cs) ← scanFraction cs
  let (exponent, cs) ← scanExponent cs
  some (⟨negative, whole, fraction, exponent⟩, cs)

/-- An entry of a mapping: a string, a colon and a literal. -/
def scanEntry (literal : List Char → Option (Value × List Char)) (cs : List Char) :
    Option ((String × Value) × List Char) :=
  match skipSpace cs with
  | '"' :: rest => do
    let (key, rest) ← scanText rest
    match skipSpace rest with
    | ':' :: rest => do
      let (v, rest) ← literal rest
      some ((String.ofList key, v), rest)
    | _ => none
  | _ => none

/-- One literal, with blanks in front of it; `depth` limits how deep it may be nested. -/
def scan : Nat → List Char → Option (Value × List Char)
  | 0, _ => none
  | depth + 1, cs =>
    match skipSpace cs with
    | 'N' :: 'o' :: 'n' :: 'e' :: rest => some (.null, rest)
    | 'T' :: 'r' :: 'u' :: 'e' :: rest => some (.bool true, rest)
    | 'F' :: 'a' :: 'l' :: 's' :: 'e' :: rest => some (.bool false, rest)
    | '"' :: rest => (scanText rest).map fun r => (.string (String.ofList r.1), r.2)
    | '[' :: rest => (scanList (scan depth) ']' rest).map fun r => (.array r.1, r.2)
    | '{' :: rest => (scanList (scanEntry (scan depth)) '}' rest).map fun r => (.object r.1, r.2)
    | rest => (scanNumeral rest).map fun r => (.number r.1.number, r.2)

/-- The value of a literal. -/
def decode? (text : String) : Option Value :=
  match scan (text.toList.length + 1) text.toList with
  | some (v, rest) => if rest.isEmpty then some v else none
  | none => none

/-- An escaped character is read back. -/
theorem scanText_escape_append (c : Char) (cs : List Char) :
    scanText (escape c ++ cs) = (scanText cs).map fun r => (c :: r.1, r.2) := by
  have hescape {x : Char} (hx : unescape? x = some c) :
      scanText ('\\' :: x :: cs) = (scanText cs).map fun r => (c :: r.1, r.2) := by
    rw [scanText, hx]
    rfl
  rw [escape]
  split_ifs with hslash hquote hfeed hreturn htab
  · exact hescape (by rw [hslash]; rfl)
  · exact hescape (by rw [hquote]; rfl)
  · exact hescape (by rw [hfeed]; rfl)
  · exact hescape (by rw [hreturn]; rfl)
  · exact hescape (by rw [htab]; rfl)
  · rw [List.singleton_append, scanText, if_neg hslash]
    all_goals simp [hslash, hquote]

/-- A string is read up to its closing quote. -/
theorem scanText_escape (cs rest : List Char) :
    scanText (cs.flatMap escape ++ '"' :: rest) = some (cs, rest) := by
  induction cs with
  | nil => rfl
  | cons c cs ih =>
    rw [List.flatMap_cons, List.append_assoc, scanText_escape_append, ih]
    rfl

/-- A number is read part by part. -/
theorem scanNumeral_append (l : Spelling) {rest : List Char} (hrest : EndsNumber rest) :
    scanNumeral (l.write ++ rest) = some (l.literal, rest) := by
  have hsign : scanSign (l.write ++ rest) =
      (l.negative, l.whole ++ (l.fractionText ++ (l.exponentText ++ rest))) := by
    rw [Spelling.write]
    cases hnegative : l.negative with
    | true => simp [scanSign]
    | false =>
      obtain ⟨c, cs, hwhole⟩ := List.exists_cons_of_ne_nil l.whole_ne_nil
      have hc : c.isDigit = true := l.whole_isDigit c (by simp [hwhole])
      have hplus : c ≠ '+' := Json.digit_ne hc rfl
      have hminus : c ≠ '-' := Json.digit_ne hc rfl
      simp only [hwhole, Bool.false_eq_true, if_false, List.nil_append, List.cons_append,
        List.append_assoc]
      rw [scanSign]
      · simp [hplus]
      · simp [hminus]
  rw [scanNumeral, hsign]
  simp only [l.scanWhole_append (l.fractionText_head hrest), Option.bind_eq_bind, Option.bind_some,
    l.scanFraction_append (l.exponentText_head hrest), l.scanExponent_append hrest]
  rfl

/-- The literal of a number is read. -/
theorem scan_number (n : Number) (depth : Nat) {rest : List Char} (hrest : EndsNumber rest) :
    scan (depth + 1) (n.text.toList ++ rest) = some (.number n, rest) := by
  obtain ⟨c, cs, htext, hc⟩ := n.text_head
  have hspace : isSpace c = false := by
    rcases hc with rfl | hc
    · rfl
    · exact Json.isSpace_digit hc
  have hnumeral := scanNumeral_append n.spelling hrest
  rw [n.write_spelling, htext] at hnumeral
  rw [htext, scan, List.cons_append, skipSpace, List.dropWhile_cons_of_neg (by simp [hspace])]
  rw [List.cons_append] at hnumeral
  split
  case h_7 =>
    rw [hnumeral, Option.map_some, n.number_spelling]
  -- no other literal starts with a digit or a minus
  all_goals
    rename_i heq
    obtain ⟨rfl, -⟩ := List.cons.inj heq
    exact absurd hc (by decide)

section Lists

variable {α : Type} {write : α → List Char} {as : List α}

/-- Texts with a comma and a blank between two of them. -/
def joined (write : α → List Char) : List α → List Char
  | [] => []
  | [a] => write a
  | a :: b :: rest => write a ++ ',' :: ' ' :: joined write (b :: rest)

/-- The parts of a list, each with whether a blank stands in front of it. -/
def spaced : List α → List (Bool × α)
  | [] => []
  | a :: rest => (false, a) :: rest.map fun b => (true, b)

/-- The text of a part with the blank in front of it. -/
def spacedText (write : α → List Char) (x : Bool × α) : List Char :=
  if x.1 then ' ' :: write x.2 else write x.2

/-- A blank in front of the first text stands in front of all. -/
theorem separated_blank (t : List Char) (ts : List (List Char)) :
    separated ((' ' :: t) :: ts) = ' ' :: separated (t :: ts) := by
  cases ts with
  | nil => rfl
  | cons u ts => rfl

/-- The blanks can be counted among the parts. -/
theorem joined_eq (write : α → List Char) (as : List α) :
    joined write as = separated ((spaced as).map (spacedText write)) := by
  induction as with
  | nil => rfl
  | cons a rest ih =>
    cases rest with
    | nil => rfl
    | cons b rest =>
      rw [joined, ih]
      change _ = write a ++ ',' :: separated ((' ' :: write b) :: _)
      rw [separated_blank]
      rfl

/-- Every character of joined texts is in one of them or between two. -/
theorem mem_joined {c : Char} (h : c ∈ joined write as) :
    (∃ a ∈ as, c ∈ write a) ∨ c = ',' ∨ c = ' ' := by
  induction as with
  | nil => exact absurd h List.not_mem_nil
  | cons a rest ih =>
    cases rest with
    | nil => exact .inl ⟨a, List.mem_cons_self, h⟩
    | cons b rest =>
      rw [joined, List.mem_append, List.mem_cons, List.mem_cons] at h
      rcases h with h | h | h | h
      · exact .inl ⟨a, List.mem_cons_self, h⟩
      · exact .inr (.inl h)
      · exact .inr (.inr h)
      · refine (ih h).imp_left ?_
        rintro ⟨x, hx, hc⟩
        exact ⟨x, List.mem_cons_of_mem _ hx, hc⟩

theorem map_spaced (as : List α) : (spaced as).map Prod.snd = as := by
  cases as with
  | nil => rfl
  | cons a rest => simp [spaced]

theorem mem_of_mem_spaced {x : Bool × α} (h : x ∈ spaced as) : x.2 ∈ as := by
  rw [← map_spaced as]
  exact List.mem_map_of_mem h

/-- No text is longer than all of them joined. -/
theorem length_le_joined {a : α} (ha : a ∈ as) : (write a).length ≤ (joined write as).length := by
  obtain ⟨x, hx, rfl⟩ : ∃ x ∈ spaced as, x.2 = a := by
    rw [← map_spaced as] at ha
    exact List.mem_map.mp ha
  have hle := Json.length_le_of_mem_separated (List.mem_map_of_mem (f := spacedText write) hx)
  rw [← joined_eq] at hle
  refine Nat.le_trans ?_ hle
  rw [spacedText]
  split
  · exact Nat.le_succ _
  · exact Nat.le_refl _

/-- Joined parts are read up to the closing character, if each of them is read, also after a blank. -/
theorem scanList_joined {part : List Char → Option (α × List Char)} {close : Char}
    (hspace : isSpace close = false) (hcomma : close ≠ ',')
    (hblank : ∀ cs, part (' ' :: cs) = part cs)
    (hpart : ∀ a ∈ as, ∀ c rest, c = ',' ∨ c = close → part (write a ++ c :: rest) = some (a, c :: rest))
    (hhead : ∀ a ∈ as, ∃ c cs, write a = c :: cs ∧ isSpace c = false ∧ c ≠ close) (rest : List Char) :
    scanList part close (joined write as ++ close :: rest) = some (as, rest) := by
  have hread : ∀ x ∈ spaced as, ∀ c rest, c = ',' ∨ c = close →
      part (spacedText write x ++ c :: rest) = some (x.2, c :: rest) := by
    intro x hx c rest hc
    rw [← hpart x.2 (mem_of_mem_spaced hx) c rest hc, spacedText]
    split
    · exact hblank _
    · rfl
  have hne : ∀ x ∈ spaced as, spacedText write x ≠ [] := by
    intro x hx
    obtain ⟨c, cs, hwrite, -⟩ := hhead x.2 (mem_of_mem_spaced hx)
    rw [spacedText]
    split
    · exact List.cons_ne_nil _ _
    · simp [hwrite]
  have hfirst : ∀ x ∈ (spaced as).head?,
      ∃ c cs, spacedText write x = c :: cs ∧ isSpace c = false ∧ c ≠ close := by
    intro x hx
    cases as with
    | nil => cases hx
    | cons a rest =>
      obtain rfl := Option.some.inj hx
      exact hhead a List.mem_cons_self
  rw [joined_eq, Json.scanList_written hspace hcomma hread hne hfirst, map_spaced]

end Lists

/-- The text of an entry. -/
def entryChars (m : String × Value) : List Char :=
  quote m.1 ++ ':' :: ' ' :: chars m.2

theorem itemChars_eq (items : List Value) : itemChars items = joined chars items := by
  induction items with
  | nil => rfl
  | cons v rest ih =>
    cases rest with
    | nil => rfl
    | cons w rest => rw [itemChars, ih, joined]

theorem memberChars_eq (members : List (String × Value)) :
    memberChars members = joined entryChars members := by
  induction members with
  | nil => rfl
  | cons m rest ih =>
    cases rest with
    | nil => rfl
    | cons m' rest =>
      rw [memberChars, ih, joined, entryChars]

theorem chars_array (items : List Value) :
    chars (.array items) = '[' :: joined chars items ++ [']'] := by
  rw [← itemChars_eq]
  rfl

theorem chars_object (members : List (String × Value)) :
    chars (.object members) = '{' :: joined entryChars members ++ ['}'] := by
  rw [← memberChars_eq]
  rfl

/-- A literal starts with a character that is neither a blank nor a closing one. -/
theorem chars_head (v : Value) :
    ∃ c cs, chars v = c :: cs ∧ isSpace c = false ∧ c ≠ ']' ∧ c ≠ '}' := by
  cases v with
  | null => exact ⟨'N', _, rfl, by decide, by decide, by decide⟩
  | bool b =>
    cases b with
    | true => exact ⟨'T', _, rfl, by decide, by decide, by decide⟩
    | false => exact ⟨'F', _, rfl, by decide, by decide, by decide⟩
  | number n => exact (Value.number n).write_head
  | string s => exact ⟨'"', _, rfl, by decide, by decide, by decide⟩
  | array items => exact ⟨'[', _, rfl, by decide, by decide, by decide⟩
  | object members => exact ⟨'{', _, rfl, by decide, by decide, by decide⟩

theorem scan_blank (depth : Nat) (cs : List Char) : scan depth (' ' :: cs) = scan depth cs := by
  cases depth with
  | zero => rfl
  | succ depth => rfl

/-- An entry is read, if its value is. -/
theorem scanEntry_entryChars {literal : List Char → Option (Value × List Char)} {m : String × Value}
    {c : Char} {rest : List Char} (hblank : ∀ cs, literal (' ' :: cs) = literal cs)
    (hvalue : literal (chars m.2 ++ c :: rest) = some (m.2, c :: rest)) :
    scanEntry literal (entryChars m ++ c :: rest) = some (m, c :: rest) := by
  have htext : entryChars m ++ c :: rest =
      '"' :: (m.1.toList.flatMap escape ++ '"' :: ':' :: ' ' :: (chars m.2 ++ c :: rest)) := by
    simp [entryChars, quote]
  have hquote (cs : List Char) : skipSpace ('"' :: cs) = '"' :: cs := rfl
  have hcolon (cs : List Char) : skipSpace (':' :: cs) = ':' :: cs := rfl
  rw [htext, scanEntry, hquote]
  simp only [scanText_escape, Option.bind_eq_bind, Option.bind_some, hcolon, hblank, hvalue,
    String.ofList_toList]

/-- A list is read, if its items are. -/
theorem scan_array {items : List Value} {depth : Nat}
    (hitems : ∀ v ∈ items, ∀ c rest, c = ',' ∨ c = ']' →
      scan depth (chars v ++ c :: rest) = some (v, c :: rest)) (rest : List Char) :
    scan (depth + 1) (chars (.array items) ++ rest) = some (.array items, rest) := by
  have hscan : scan (depth + 1) (chars (.array items) ++ rest) =
      (scanList (scan depth) ']' (joined chars items ++ ']' :: rest)).map
        fun r => (.array r.1, r.2) := by
    simp [chars_array, scan, skipSpace, isSpace]
  rw [hscan, scanList_joined (by decide) (by decide) (scan_blank depth) hitems ?_, Option.map_some]
  intro v _
  obtain ⟨c, cs, hchars, hspace, hclose, -⟩ := chars_head v
  exact ⟨c, cs, hchars, hspace, hclose⟩

/-- A mapping is read, if the values in it are. -/
theorem scan_object {members : List (String × Value)} {depth : Nat}
    (hvalues : ∀ m ∈ members, ∀ c rest, c = ',' ∨ c = '}' →
      scan depth (chars m.2 ++ c :: rest) = some (m.2, c :: rest)) (rest : List Char) :
    scan (depth + 1) (chars (.object members) ++ rest) = some (.object members, rest) := by
  have hscan : scan (depth + 1) (chars (.object members) ++ rest) =
      (scanList (scanEntry (scan depth)) '}' (joined entryChars members ++ '}' :: rest)).map
        fun r => (.object r.1, r.2) := by
    simp [chars_object, scan, skipSpace, isSpace]
  have hentries : ∀ m ∈ members, ∀ c rest, c = ',' ∨ c = '}' →
      scanEntry (scan depth) (entryChars m ++ c :: rest) = some (m, c :: rest) :=
    fun m hm c rest hc => scanEntry_entryChars (scan_blank depth) (hvalues m hm c rest hc)
  rw [hscan, scanList_joined (by decide) (by decide) (fun _ => rfl) hentries ?_, Option.map_some]
  intro m _
  exact ⟨'"', _, rfl, by decide, by decide⟩

theorem length_item_lt {items : List Value} {v : Value} (hv : v ∈ items) :
    (chars v).length < (chars (.array items)).length := by
  have hle := @length_le_joined _ chars _ _ hv
  rw [chars_array, List.length_append, List.length_cons]
  omega

theorem length_member_lt {members : List (String × Value)} {m : String × Value} (hm : m ∈ members) :
    (chars m.2).length < (chars (.object members)).length := by
  have hle := @length_le_joined _ entryChars _ _ hm
  have hentry : (chars m.2).length ≤ (entryChars m).length := by
    rw [entryChars, List.length_append, List.length_cons, List.length_cons]
    omega
  rw [chars_object, List.length_append, List.length_cons]
  omega

/-- The literal of a value is read as this value, whatever follows it that does not go on with a
number. -/
theorem scan_chars (v : Value) {depth : Nat} (hdepth : (chars v).length < depth) {rest : List Char}
    (hrest : EndsNumber rest) : scan depth (chars v ++ rest) = some (v, rest) := by
  -- along the depth, as the reader goes: parts have shorter literals
  induction depth generalizing v rest with
  | zero => exact absurd hdepth (Nat.not_lt_zero _)
  | succ depth ih =>
    cases v with
    | null => rfl
    | bool b => cases b <;> rfl
    | number n => exact scan_number n depth hrest
    | string s =>
      have hscan : scan (depth + 1) (chars (.string s) ++ rest) =
          (scanText (s.toList.flatMap escape ++ '"' :: rest)).map
            fun r => (.string (String.ofList r.1), r.2) := by
        change scan (depth + 1) (quote s ++ rest) = _
        simp [quote, scan, skipSpace, isSpace]
      rw [hscan, scanText_escape, Option.map_some, String.ofList_toList]
    | array items =>
      refine scan_array (fun v hv c after hc => ih v ?_ ?_) rest
      · have hlt := length_item_lt hv
        omega
      · exact Json.endsNumber_cons (hc.imp_right .inl) after
    | object members =>
      refine scan_object (fun m hm c after hc => ih m.2 ?_ ?_) rest
      · have hlt := length_member_lt hm
        omega
      · exact Json.endsNumber_cons (hc.imp_right .inr) after

/-- The literal of a value is read back. -/
theorem decode?_ofValue (v : Value) : decode? (ofValue v) = some v := by
  have hend : EndsNumber [] := by simp [EndsNumber]
  have hscan := scan_chars v (Nat.lt_succ_self (chars v).length) hend
  rw [List.append_nil] at hscan
  rw [decode?, ofValue, String.toList_ofList, hscan]
  rfl

/-- A number is written with digits, signs, a point and the mark of an exponent. -/
theorem mem_number_text {n : Number} {c : Char} (h : c ∈ n.text.toList) :
    c.isDigit = true ∨ c = '-' ∨ c = '+' ∨ c = '.' ∨ c = 'e' := by
  rw [← n.write_spelling, Spelling.write, List.mem_append, List.mem_append, List.mem_append] at h
  rcases h with hsign | hwhole | hfraction | hexponent
  · split at hsign
    · exact .inr (.inl (List.mem_singleton.mp hsign))
    · exact absurd hsign List.not_mem_nil
  · exact .inl (n.spelling.whole_isDigit c hwhole)
  · rw [Spelling.fractionText] at hfraction
    split at hfraction
    · exact absurd hfraction List.not_mem_nil
    · rcases List.mem_cons.mp hfraction with rfl | hfraction
      · simp
      · exact .inl (n.spelling.fraction_isDigit c hfraction)
  · rw [Spelling.exponentText] at hexponent
    cases hspelled : n.spelling.exponent with
    | none => simp [hspelled] at hexponent
    | some x =>
      simp only [hspelled, List.mem_cons] at hexponent
      rcases hexponent with rfl | hmark | hdigit
      · simp
      · cases hdown : x.1 <;> simp_all
      · exact .inl ((n.spelling.exponent_isDigit x hspelled).2 c hdigit)

/-- Text without a line feed or a carriage return. -/
def OneLine (cs : List Char) : Prop :=
  ∀ c ∈ cs, c ≠ '\n' ∧ c ≠ '\r'

instance (cs : List Char) : Decidable (OneLine cs) :=
  List.decidableBAll (fun c => c ≠ '\n' ∧ c ≠ '\r') cs

theorem oneLine_escape (c : Char) : OneLine (escape c) := by
  rw [escape]
  split_ifs with hslash hquote hfeed hreturn htab
  · decide
  · decide
  · decide
  · decide
  · decide
  · intro x hx
    rw [List.mem_singleton.mp hx]
    exact ⟨hfeed, hreturn⟩

theorem oneLine_quote (s : String) : OneLine (quote s) := by
  intro c hc
  simp only [quote, List.cons_append, List.mem_cons, List.mem_append, List.mem_flatMap,
    List.not_mem_nil, or_false] at hc
  rcases hc with rfl | ⟨x, -, hx⟩ | rfl
  · decide
  · exact oneLine_escape x c hx
  · decide

theorem OneLine.joined {α : Type} {write : α → List Char} {as : List α}
    (h : ∀ a ∈ as, OneLine (write a)) : OneLine (joined write as) := by
  intro c hc
  rcases mem_joined hc with ⟨a, ha, hc⟩ | rfl | rfl
  · exact h a ha c hc
  · decide
  · decide

theorem OneLine.between {cs : List Char} (h : OneLine cs) {first last : Char}
    (hfirst : OneLine [first]) (hlast : OneLine [last]) : OneLine (first :: cs ++ [last]) := by
  intro c hc
  rw [List.cons_append, List.mem_cons, List.mem_append] at hc
  rcases hc with rfl | hc | hc
  · exact hfirst c List.mem_cons_self
  · exact h c hc
  · exact hlast c hc

/-- A literal has no line break. -/
theorem oneLine_chars (v : Value) : OneLine (chars v) := by
  induction v using Value.recOnParts with
  | null => decide
  | bool b => cases b <;> decide
  | number n =>
    intro c hc
    constructor
    all_goals
      rintro rfl
      exact absurd (mem_number_text hc) (by decide)
  | string s => exact oneLine_quote s
  | array items ih =>
    rw [chars_array]
    exact (OneLine.joined ih).between (by decide) (by decide)
  | object members ih =>
    rw [chars_object]
    refine OneLine.between (.joined fun m hm c hc => ?_) (by decide) (by decide)
    rw [entryChars, List.mem_append, List.mem_cons, List.mem_cons] at hc
    rcases hc with hc | rfl | rfl | hc
    · exact oneLine_quote m.1 c hc
    · decide
    · decide
    · exact ih m hm c hc

/-- One character is replaced throughout a text. -/
def replace (c : Char) (new : List Char) (cs : List Char) : List Char :=
  cs.flatMap fun x => if x = c then new else [x]

/-- The characters with an escape, the backslash first: it stands in the escapes of the others. -/
def escapes : List (Char × List Char) :=
  [('\\', ['\\', '\\']), ('"', ['\\', '"']), ('\n', ['\\', 'n']), ('\r', ['\\', 'r']),
    ('\t', ['\\', 't'])]

/-- Replacements one after the other, each over the whole text. -/
def replaceAll (passes : List (Char × List Char)) (cs : List Char) : List Char :=
  passes.foldl (fun cs pass => replace pass.1 pass.2 cs) cs

theorem replaceAll_append (passes : List (Char × List Char)) (cs ds : List Char) :
    replaceAll passes (cs ++ ds) = replaceAll passes cs ++ replaceAll passes ds := by
  induction passes generalizing cs ds with
  | nil => rfl
  | cons pass passes ih =>
    calc replaceAll (pass :: passes) (cs ++ ds)
        = replaceAll passes (replace pass.1 pass.2 (cs ++ ds)) := rfl
      _ = replaceAll passes (replace pass.1 pass.2 cs ++ replace pass.1 pass.2 ds) := by
        rw [replace, List.flatMap_append]
        rfl
      _ = replaceAll (pass :: passes) cs ++ replaceAll (pass :: passes) ds := ih _ _

/-- No pass touches what an earlier one has put in. -/
theorem replaceAll_escapes_singleton (c : Char) : replaceAll escapes [c] = escape c := by
  simp only [replaceAll, escapes, List.foldl_cons, List.foldl_nil, replace, List.flatMap_singleton,
    escape]
  split_ifs with hslash hquote hfeed hreturn htab
  all_goals simp_all

/-- Escaping the text character by character or pass by pass is the same. -/
theorem replaceAll_escapes (cs : List Char) : replaceAll escapes cs = cs.flatMap escape := by
  induction cs with
  | nil => rfl
  | cons c cs ih =>
    rw [← List.singleton_append, replaceAll_append, ih, replaceAll_escapes_singleton]
    rfl

/-- The literals of a program are unambiguous: each is read as the value it was written for, so that
different values have different literals. A literal is on one line. Its strings are escaped by one
replacement after the other over the whole string. -/
theorem literals_are_unambiguous :
    (∀ v, decode? (ofValue v) = some v) ∧ Function.Injective ofValue ∧
      (∀ v, '\n' ∉ (ofValue v).toList ∧ '\r' ∉ (ofValue v).toList) ∧
      ∀ s, ofValue (.string s) = String.ofList ('"' :: replaceAll escapes s.toList ++ ['"']) := by
  refine ⟨decode?_ofValue, fun v w hliteral => ?_, fun v => ?_, fun s => ?_⟩
  · apply Option.some.inj
    rw [← decode?_ofValue v, ← decode?_ofValue w, hliteral]
  · rw [ofValue, String.toList_ofList]
    exact ⟨fun hfeed => (oneLine_chars v _ hfeed).1 rfl, fun hreturn => (oneLine_chars v _ hreturn).2 rfl⟩
  · rw [replaceAll_escapes]
    rfl

end FlowScript.Literal
