import FlowScript.Proofs.Numerals
import FlowScript.Proofs.Quoting

/-!
# Values in a JSON text

A value that is written is read as the form it has: the same tree, with its numbers as they are read
back. The form has the value again if every double in it is read back, for values of the kind that a
text can have: with integers that fit, with the keys of objects in ascending order, and nested no
deeper than texts may be.
-/

namespace FlowScript.Json

/-- Induction over the items and members that a value is made of. -/
@[elab_as_elim]
theorem Value.recOnParts {motive : Value → Prop} (v : Value) (null : motive .null)
    (bool : ∀ b, motive (.bool b)) (number : ∀ n, motive (.number n))
    (string : ∀ s, motive (.string s))
    (array : ∀ items, (∀ v ∈ items, motive v) → motive (.array items))
    (object : ∀ members, (∀ m ∈ members, motive m.2) → motive (.object members)) : motive v :=
  match v with
  | .null => null
  | .bool b => bool b
  | .number n => number n
  | .string s => string s
  | .array items => array items fun v _ => v.recOnParts null bool number string array object
  | .object members =>
    object members fun m _ => m.2.recOnParts null bool number string array object
termination_by sizeOf v
decreasing_by
  · have := List.sizeOf_lt_of_mem ‹_›
    simp only [Value.array.sizeOf_spec]
    omega
  · have hmem := List.sizeOf_lt_of_mem ‹m ∈ members›
    have hsnd : sizeOf m.2 < sizeOf m := by
      cases m
      simp only [Prod.mk.sizeOf_spec]
      omega
    simp only [Value.object.sizeOf_spec]
    omega

mutual

/-- The form that the text of a value is read as. -/
def Value.form : Value → Form
  | .null => .null
  | .bool b => .bool b
  | .number n => .number n.reread
  | .string s => .string (some s)
  | .array items => .array (formItems items)
  | .object members => .object (formMembers members)

/-- The forms of array items. -/
def formItems : List Value → List Form
  | [] => []
  | v :: rest => v.form :: formItems rest

/-- The forms of object members. -/
def formMembers : List (String × Value) → List (Option String × Form)
  | [] => []
  | (k, v) :: rest => (some k, v.form) :: formMembers rest

end

theorem formItems_eq (items : List Value) : formItems items = items.map Value.form := by
  induction items with
  | nil => rfl
  | cons v rest ih => rw [formItems, ih, List.map_cons]

theorem formMembers_eq (members : List (String × Value)) :
    formMembers members = members.map fun m => (some m.1, m.2.form) := by
  induction members with
  | nil => rfl
  | cons m rest ih => rw [formMembers, ih, List.map_cons]

/-- Texts with a comma between two of them. -/
def separated : List (List Char) → List Char
  | [] => []
  | [t] => t
  | t :: u :: rest => t ++ ',' :: separated (u :: rest)

/-- The text of an object member. -/
def writeMember (m : String × Value) : List Char :=
  writeString m.1 ++ ':' :: m.2.write

theorem writeItems_eq (items : List Value) : writeItems items = separated (items.map Value.write) := by
  induction items with
  | nil => rfl
  | cons v rest ih =>
    cases rest with
    | nil => rfl
    | cons w rest =>
      rw [writeItems, ih]
      rfl

theorem writeMembers_eq (members : List (String × Value)) :
    writeMembers members = separated (members.map writeMember) := by
  induction members with
  | nil => rfl
  | cons m rest ih =>
    cases rest with
    | nil => rfl
    | cons m' rest =>
      rw [writeMembers, ih]
      rfl

/-- There are not more texts than characters, unless a text is empty. -/
theorem length_le_separated {texts : List (List Char)} (h : ∀ t ∈ texts, t ≠ []) :
    texts.length ≤ (separated texts).length := by
  induction texts with
  | nil => exact Nat.le_refl _
  | cons t rest ih =>
    have ht : 0 < t.length := List.length_pos_iff.mpr (h t List.mem_cons_self)
    have hrest := ih fun u hu => h u (List.mem_cons_of_mem _ hu)
    cases rest with
    | nil => exact ht
    | cons u rest =>
      simp only [separated, List.length_cons, List.length_append] at hrest ⊢
      omega

/-- No text is longer than all of them together. -/
theorem length_le_of_mem_separated {texts : List (List Char)} {t : List Char} (ht : t ∈ texts) :
    t.length ≤ (separated texts).length := by
  induction texts with
  | nil => exact absurd ht List.not_mem_nil
  | cons u rest ih =>
    cases rest with
    | nil =>
      obtain rfl := List.mem_singleton.mp ht
      exact Nat.le_refl _
    | cons w rest =>
      simp only [separated, List.length_append, List.length_cons]
      rcases List.mem_cons.mp ht with rfl | ht
      · omega
      · have := ih ht
        omega

section Lists

variable {α β : Type} {part : List Char → Option (α × List Char)} {close : Char}
  {write : β → List Char} {read : β → α} {xs : List β}

/-- Parts with commas between them are read up to the closing character, if each of them is read. -/
theorem scanSeparated_written (hspace : isSpace close = false) (hcomma : close ≠ ',')
    (hpart : ∀ x ∈ xs, ∀ c rest, c = ',' ∨ c = close →
      part (write x ++ c :: rest) = some (read x, c :: rest))
    (hne : xs ≠ []) {bound : Nat} (hbound : xs.length ≤ bound) (rest : List Char) :
    scanSeparated part close bound (separated (xs.map write) ++ close :: rest) =
      some (xs.map read, rest) := by
  induction xs generalizing bound with
  | nil => exact absurd rfl hne
  | cons x xs ih =>
    obtain ⟨bound, rfl⟩ : ∃ k, bound = k + 1 := ⟨bound - 1, by simp at hbound; omega⟩
    cases xs with
    | nil =>
      have hfirst := hpart x List.mem_cons_self close rest (.inr rfl)
      simp [separated, scanSeparated, hfirst, skipSpace, hspace]
    | cons y xs =>
      have hfirst := hpart x List.mem_cons_self ',' (separated ((y :: xs).map write) ++ close :: rest)
        (.inl rfl)
      have hrest := ih (fun z hz => hpart z (List.mem_cons_of_mem _ hz)) (by simp)
        (by simpa using hbound)
      rw [List.map_cons, List.map_cons, separated, ← List.map_cons, List.append_assoc, List.cons_append,
        scanSeparated, hfirst]
      have hskip : skipSpace (',' :: (separated ((y :: xs).map write) ++ close :: rest)) =
          ',' :: (separated ((y :: xs).map write) ++ close :: rest) := rfl
      simp only [Option.bind_eq_bind, Option.bind_some, hskip, hcomma.symm, if_false, if_true, hrest]
      rfl

/-- A list of written parts is read, if each of them is read and not empty, and the first one starts
with a character of its own. -/
theorem scanList_written (hspace : isSpace close = false) (hcomma : close ≠ ',')
    (hpart : ∀ x ∈ xs, ∀ c rest, c = ',' ∨ c = close →
      part (write x ++ c :: rest) = some (read x, c :: rest))
    (hne : ∀ x ∈ xs, write x ≠ [])
    (hhead : ∀ x ∈ xs.head?, ∃ c cs, write x = c :: cs ∧ isSpace c = false ∧ c ≠ close)
    (rest : List Char) :
    scanList part close (separated (xs.map write) ++ close :: rest) = some (xs.map read, rest) := by
  cases hxs : xs with
  | nil => simp [separated, scanList, skipSpace, hspace]
  | cons x ys =>
    obtain ⟨c, cs, hwrite, hblank, hother⟩ := hhead x (by simp [hxs])
    -- the first character is neither a blank nor the closing one
    have hfront : ∃ more, separated ((x :: ys).map write) ++ close :: rest = c :: more := by
      cases ys with
      | nil => exact ⟨cs ++ close :: rest, by simp [separated, hwrite]⟩
      | cons y ys => exact ⟨_, by rw [List.map_cons, List.map_cons, separated, hwrite]; rfl⟩
    obtain ⟨more, hmore⟩ := hfront
    have htexts : ∀ t ∈ xs.map write, t ≠ [] := by
      intro t ht
      obtain ⟨y, hy, rfl⟩ := List.mem_map.mp ht
      exact hne y hy
    have hbound : xs.length ≤ (c :: more).length := by
      have hlength := length_le_separated htexts
      rw [← hmore, List.length_append, ← hxs]
      simp only [List.length_map] at hlength
      omega
    have hscan := scanSeparated_written hspace hcomma hpart (hxs ▸ List.cons_ne_nil x ys) hbound rest
    rw [hxs, hmore] at hscan
    rw [hmore, scanList, skipSpace, List.dropWhile_cons_of_neg (by simp [hblank])]
    simpa [hother] using hscan

end Lists

/-- The text of a number starts with a digit or a minus. -/
theorem Number.text_head (n : Number) :
    ∃ c cs, n.text.toList = c :: cs ∧ (c = '-' ∨ c.isDigit = true) := by
  obtain ⟨c, cs, hcs⟩ := List.exists_cons_of_ne_nil n.spelling.whole_ne_nil
  rw [← n.write_spelling, Spelling.write]
  split
  · exact ⟨'-', _, rfl, .inl rfl⟩
  · exact ⟨c, _, by rw [hcs]; rfl, .inr (n.spelling.whole_isDigit c (by simp [hcs]))⟩

/-- The text of a value starts with a character that is neither a blank nor a closing one. -/
theorem Value.write_head (v : Value) :
    ∃ c cs, v.write = c :: cs ∧ isSpace c = false ∧ c ≠ ']' ∧ c ≠ '}' := by
  cases v with
  | null => exact ⟨'n', _, rfl, by decide, by decide, by decide⟩
  | bool b =>
    cases b with
    | true => exact ⟨'t', _, rfl, by decide, by decide, by decide⟩
    | false => exact ⟨'f', _, rfl, by decide, by decide, by decide⟩
  | number n =>
    obtain ⟨c, cs, htext, hc⟩ := n.text_head
    refine ⟨c, cs, htext, ?_⟩
    rcases hc with rfl | hc
    · exact ⟨by decide, by decide, by decide⟩
    · exact ⟨isSpace_digit hc, digit_ne hc rfl, digit_ne hc rfl⟩
  | string s => exact ⟨'"', _, rfl, by decide, by decide, by decide⟩
  | array items => exact ⟨'[', _, rfl, by decide, by decide, by decide⟩
  | object members => exact ⟨'{', _, rfl, by decide, by decide, by decide⟩

/-- A comma or a closing character ends a number. -/
theorem endsNumber_cons {c : Char} (hc : c = ',' ∨ c = ']' ∨ c = '}') (rest : List Char) :
    EndsNumber (c :: rest) := by
  intro x hx
  obtain rfl := Option.some.inj hx
  rcases hc with rfl | rfl | rfl
  · decide
  · decide
  · decide

/-- An object member is read, if the form of its value is. -/
theorem scanMember_written {form : List Char → Option (Form × List Char)} {m : String × Value}
    {c : Char} {rest : List Char}
    (hform : form (m.2.write ++ c :: rest) = some (m.2.form, c :: rest)) :
    scanMember form (writeMember m ++ c :: rest) = some ((some m.1, m.2.form), c :: rest) := by
  have htext : writeMember m ++ c :: rest =
      '"' :: (m.1.toList.flatMap writeChar ++ '"' :: ':' :: (m.2.write ++ c :: rest)) := by
    simp [writeMember, writeString]
  have hskip (cs : List Char) : skipSpace ('"' :: cs) = '"' :: cs := rfl
  have hcolon (cs : List Char) : skipSpace (':' :: cs) = ':' :: cs := rfl
  rw [htext, scanMember, hskip]
  simp only [scanString_written, Option.bind_eq_bind, Option.bind_some, hcolon, hform]

/-- The text of a value is read as its form, whatever follows it that does not go on with a number. -/
theorem Value.scanForm_write (v : Value) {fuel : Nat} (hfuel : v.write.length < fuel)
    {rest : List Char} (hrest : EndsNumber rest) :
    scanForm fuel (v.write ++ rest) = some (v.form, rest) := by
  obtain ⟨fuel, rfl⟩ : ∃ k, fuel = k + 1 := ⟨fuel - 1, by omega⟩
  induction v using Value.recOnParts generalizing fuel rest with
  | null => rfl
  | bool b => cases b <;> rfl
  | number n => exact n.scanForm_text fuel hrest
  | string s =>
    have hscan : scanForm (fuel + 1) ((Value.string s).write ++ rest) =
        (scanString (s.toList.flatMap writeChar ++ '"' :: rest)).map
          fun x => (.string x.1, x.2) := by
      simp [Value.write, writeString, scanForm, skipSpace, isSpace]
    rw [hscan, scanString_written]
    rfl
  | array items ih =>
    have hscan : scanForm (fuel + 1) ((Value.array items).write ++ rest) =
        (scanList (scanForm fuel) ']' (separated (items.map Value.write) ++ ']' :: rest)).map
          fun x => (.array x.1, x.2) := by
      simp [Value.write, writeItems_eq, scanForm, skipSpace, isSpace]
    rw [Value.write, writeItems_eq, List.length_append, List.length_cons] at hfuel
    have hitems : ∀ v ∈ items, ∀ c rest, c = ',' ∨ c = ']' →
        scanForm fuel (v.write ++ c :: rest) = some (v.form, c :: rest) := by
      intro v hv c rest hc
      have hlength := length_le_of_mem_separated (List.mem_map_of_mem (f := Value.write) hv)
      obtain ⟨fuel, rfl⟩ : ∃ k, fuel = k + 1 := ⟨fuel - 1, by simp at hfuel; omega⟩
      refine ih v hv (endsNumber_cons (hc.imp_right .inl) rest) fuel ?_
      simp at hfuel
      omega
    rw [hscan, scanList_written (by decide) (by decide) hitems ?_ ?_, Value.form, formItems_eq]
    · rfl
    · intro v _
      obtain ⟨c, cs, hwrite, -⟩ := v.write_head
      simp [hwrite]
    · intro v _
      obtain ⟨c, cs, hwrite, hblank, hclose, -⟩ := v.write_head
      exact ⟨c, cs, hwrite, hblank, hclose⟩
  | object members ih =>
    have hscan : scanForm (fuel + 1) ((Value.object members).write ++ rest) =
        (scanList (scanMember (scanForm fuel)) '}'
          (separated (members.map writeMember) ++ '}' :: rest)).map
          fun x => (.object x.1, x.2) := by
      simp [Value.write, writeMembers_eq, scanForm, skipSpace, isSpace]
    rw [Value.write, writeMembers_eq, List.length_append, List.length_cons] at hfuel
    have hmembers : ∀ m ∈ members, ∀ c rest, c = ',' ∨ c = '}' →
        scanMember (scanForm fuel) (writeMember m ++ c :: rest) =
          some ((some m.1, m.2.form), c :: rest) := by
      intro m hm c rest hc
      have hlength := length_le_of_mem_separated (List.mem_map_of_mem (f := writeMember) hm)
      have hvalue : m.2.write.length < (writeMember m).length := by
        simp only [writeMember, List.length_append, List.length_cons]
        omega
      obtain ⟨fuel, rfl⟩ : ∃ k, fuel = k + 1 := ⟨fuel - 1, by simp at hfuel; omega⟩
      refine scanMember_written (ih m hm (endsNumber_cons (hc.imp_right .inr) rest) fuel ?_)
      simp at hfuel
      omega
    rw [hscan, scanList_written (by decide) (by decide) hmembers (by simp [writeMember]) ?_,
      Value.form, formMembers_eq]
    · rfl
    · intro m _
      exact ⟨'"', _, rfl, by decide, by decide⟩

/-- The text of a value is read as its form. -/
theorem Value.parse?_text (v : Value) : Form.parse? v.text = some v.form := by
  have hend : EndsNumber [] := by simp [EndsNumber]
  have hscan := v.scanForm_write (Nat.lt_succ_self v.write.length) hend
  rw [List.append_nil] at hscan
  simp [Form.parse?, Value.text, hscan, skipSpace]

end FlowScript.Json
