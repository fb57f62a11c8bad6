import FlowScript.Naming
import Mathlib.Data.List.Chain
import Mathlib.Data.List.Nodup
import Mathlib.Data.List.Perm.Subperm

/-!
# The names of nodes

A name is made of words, runs of letters and digits that underscores join. Its words can be read off
it, so names that are spelled alike are made of the same words. A number that tells names apart is one
more word at the end. Of the numbers from two on, as many as names are taken and one more, some number
is free, and the first free one is chosen.
-/

namespace FlowScript

namespace Text

/-- A run of letters and digits. -/
def IsWord (w : List Char) : Prop :=
  w ≠ [] ∧ ∀ c ∈ w, c.isAlphanum = true

/-- Whether a text is a word can be read off its characters. -/
theorem isWord_of_all {w : List Char} (hne : w ≠ []) (h : w.all Char.isAlphanum = true) : IsWord w :=
  ⟨hne, List.all_eq_true.mp h⟩

/-- Words joined by one underscore each. -/
def spell (ws : List (List Char)) : List Char :=
  ['_'].intercalate ws

variable {word w cs : List Char} {ws ws' : List (List Char)}

@[simp] theorem spell_nil : spell [] = [] := rfl

@[simp] theorem spell_singleton (w : List Char) : spell [w] = w := by
  simp [spell]

theorem spell_cons (h : ws ≠ []) : spell (w :: ws) = w ++ '_' :: spell ws := by
  cases ws with
  | nil => exact absurd rfl h
  | cons x ws => simp [spell, List.intercalate_cons_cons]

theorem spell_append (h : ws ≠ []) (h' : ws' ≠ []) :
    spell (ws ++ ws') = spell ws ++ '_' :: spell ws' := by
  induction ws with
  | nil => exact absurd rfl h
  | cons w ws ih =>
    by_cases hws : ws = []
    · rw [hws, List.cons_append, List.nil_append, spell_cons h', spell_singleton]
    · rw [List.cons_append, spell_cons (by simp [hws]), spell_cons hws, ih hws, List.append_assoc,
        List.cons_append]

/-- Words spell some text. -/
theorem spell_eq_nil_iff (hws : ∀ w ∈ ws, IsWord w) : spell ws = [] ↔ ws = [] := by
  refine ⟨fun h => ?_, fun h => by rw [h, spell_nil]⟩
  cases ws with
  | nil => rfl
  | cons w ws =>
    have hw : w ≠ [] := (hws w List.mem_cons_self).1
    by_cases hnil : ws = []
    · exact absurd (by simpa [hnil] using h) hw
    · simp [spell_cons hnil] at h

/-- A current word that is not empty is a word. -/
theorem isWord_reverse (hne : ¬ word.isEmpty = true) (hword : ∀ c ∈ word, c.isAlphanum = true) :
    IsWord word.reverse :=
  ⟨by simpa using hne, by simpa using hword⟩

/-- Cutting gives words. -/
theorem cutWords_isWord (hword : ∀ c ∈ word, c.isAlphanum = true) :
    ∀ w ∈ cutWords word cs, IsWord w := by
  induction cs generalizing word with
  | nil =>
    rw [cutWords]
    split
    · simp
    · rename_i hne
      simpa using isWord_reverse hne hword
  | cons c cs ih =>
    rw [cutWords]
    split
    · rename_i hc
      exact ih (List.forall_mem_cons.mpr ⟨hc, hword⟩)
    · split
      · exact ih (by simp)
      · rename_i hne
        exact List.forall_mem_cons.mpr ⟨isWord_reverse hne hword, ih (by simp)⟩

/-- Letters and digits are taken into the current word. -/
theorem cutWords_append (hw : ∀ c ∈ w, c.isAlphanum = true) :
    cutWords word (w ++ cs) = cutWords (w.reverse ++ word) cs := by
  induction w generalizing word with
  | nil => rfl
  | cons c w ih =>
    obtain ⟨hc, hw⟩ := List.forall_mem_cons.mp hw
    rw [List.cons_append, cutWords, if_pos hc, ih hw, List.reverse_cons, List.append_assoc]
    rfl

/-- Cutting takes back joining. -/
theorem cutWords_spell (hws : ∀ w ∈ ws, IsWord w) : cutWords [] (spell ws) = ws := by
  induction ws with
  | nil => rfl
  | cons w ws ih =>
    obtain ⟨⟨hne, hw⟩, hws⟩ := List.forall_mem_cons.mp hws
    by_cases hnil : ws = []
    · have hcut := @cutWords_append [] w [] hw
      rw [List.append_nil, List.append_nil] at hcut
      rw [hnil, spell_singleton, hcut, cutWords, if_neg (by simpa using hne), List.reverse_reverse]
    · rw [spell_cons hnil, cutWords_append hw, List.append_nil, cutWords, if_neg (by decide),
        if_neg (by simpa using hne), List.reverse_reverse, ih hws]

/-- A text in names is spelled by the words that are cut from it. -/
theorem snake_toList (s : String) : (snake s).toList = spell (cutWords [] s.toList) := by
  have hchars : String.toList ∘ String.ofList = id := funext fun w => String.toList_ofList
  rw [snake, String.toList_intercalate, List.map_map, hchars, List.map_id]
  rfl

end Text

namespace Naming

open Text

/-- A letter followed by letters, digits and underscores, no two underscores in a row and none at the
end. -/
structure IsName (name : String) : Prop where
  letter : ∃ c rest, name.toList = c :: rest ∧ c.isAlpha = true
  characters : ∀ c ∈ name.toList, c.isAlphanum = true ∨ c = '_'
  apart : ¬ ['_', '_'] <:+: name.toList
  last : name.toList.getLast? ≠ some '_'

/-- A name and the words that it is made of. -/
structure MadeOf (name : String) (ws : List (List Char)) : Prop where
  text : name.toList = spell ws
  words : ∀ w ∈ ws, IsWord w
  letter : ∃ c rest, name.toList = c :: rest ∧ c.isAlpha = true

namespace MadeOf

variable {name : String} {ws ws' : List (List Char)}

theorem ne_nil (h : MadeOf name ws) : ws ≠ [] := by
  rintro rfl
  obtain ⟨c, rest, htext, -⟩ := h.letter
  rw [h.text] at htext
  cases htext

/-- The words of a name can be read off it. -/
theorem unique (h : MadeOf name ws) (h' : MadeOf name ws') : ws = ws' := by
  rw [← cutWords_spell h.words, ← h.text, h'.text, cutWords_spell h'.words]

/-- A name goes on with one more word. -/
theorem concat (h : MadeOf name ws) {w : List Char} (hw : IsWord w) :
    MadeOf (name ++ "_" ++ String.ofList w) (ws ++ [w]) where
  text := by
    rw [spell_append h.ne_nil (List.cons_ne_nil _ _), spell_singleton, ← h.text]
    simp
  words x hx := by
    rcases List.mem_append.mp hx with hx | hx
    · exact h.words x hx
    · exact List.mem_singleton.mp hx ▸ hw
  letter := by
    obtain ⟨c, rest, htext, hc⟩ := h.letter
    exact ⟨c, rest ++ '_' :: w, by simp [htext], hc⟩

end MadeOf

/-- Text of letters, digits and underscores, no two underscores in a row and none at an end. -/
structure Tidy (cs : List Char) : Prop where
  characters : ∀ c ∈ cs, c.isAlphanum = true ∨ c = '_'
  apart : cs.IsChain fun a b => ¬ (a = '_' ∧ b = '_')
  first : ∀ c ∈ cs.head?, c ≠ '_'
  last : ∀ c ∈ cs.getLast?, c ≠ '_'

/-- Letters and digits are tidy. -/
theorem tidy_of_alphanum {w : List Char} (hw : ∀ c ∈ w, c.isAlphanum = true) : Tidy w := by
  have hne : ∀ c ∈ w, c ≠ '_' := by
    rintro c hc rfl
    exact absurd (hw '_' hc) (by decide)
  refine ⟨fun c hc => .inl (hw c hc), ?_, fun c hc => hne c (List.mem_of_mem_head? hc),
    fun c hc => hne c (List.mem_of_mem_getLast? hc)⟩
  have hpairwise : w.Pairwise fun a b => ¬ (a = '_' ∧ b = '_') :=
    List.pairwise_of_forall_mem_list fun a ha _ _ hboth => hne a ha hboth.1
  exact hpairwise.isChain

/-- An underscore joins tidy texts. -/
theorem Tidy.join {cs ds : List Char} (hcs : Tidy cs) (hds : Tidy ds) (hcne : cs ≠ [])
    (hdne : ds ≠ []) : Tidy (cs ++ '_' :: ds) where
  characters c hc := by
    rcases List.mem_append.mp hc with hc | hc
    · exact hcs.characters c hc
    · rcases List.mem_cons.mp hc with rfl | hc
      · exact .inr rfl
      · exact hds.characters c hc
  apart := by
    refine List.isChain_append.mpr ⟨hcs.apart, List.isChain_cons.mpr ⟨?_, hds.apart⟩, ?_⟩
    · exact fun y hy hboth => hds.first y hy hboth.2
    · exact fun x hx _ _ hboth => hcs.last x hx hboth.1
  first c hc := hcs.first c (by rwa [List.head?_append_of_ne_nil _ hcne] at hc)
  last c hc := by
    obtain ⟨d, ds, rfl⟩ := List.exists_cons_of_ne_nil hdne
    rw [List.getLast?_append_cons, List.getLast?_cons_cons] at hc
    exact hds.last c hc

/-- Words are spelled tidily. -/
theorem tidy_spell {ws : List (List Char)} (hws : ∀ w ∈ ws, IsWord w) : Tidy (spell ws) := by
  induction ws with
  | nil => exact tidy_of_alphanum (by simp)
  | cons w ws ih =>
    obtain ⟨⟨hne, hw⟩, hws⟩ := List.forall_mem_cons.mp hws
    by_cases hnil : ws = []
    · rw [hnil, spell_singleton]
      exact tidy_of_alphanum hw
    · rw [spell_cons hnil]
      exact (tidy_of_alphanum hw).join (ih hws) hne (mt (spell_eq_nil_iff hws).mp hnil)

/-- What is made of words is a name. -/
theorem MadeOf.isName {name : String} {ws : List (List Char)} (h : MadeOf name ws) : IsName name := by
  have htidy := tidy_spell h.words
  rw [← h.text] at htidy
  refine ⟨h.letter, htidy.characters, ?_, fun hlast => htidy.last '_' hlast rfl⟩
  rintro ⟨before, after, hcut⟩
  have hchain := htidy.apart
  rw [← hcut] at hchain
  have hpair := (List.isChain_append.mp (List.isChain_append.mp hchain).1).2.1
  simp at hpair

/-- The words of a label and an id, with a word for a label that has none. -/
def ownWords (label id : String) : List (List Char) :=
  (if cutWords [] (lower label).toList = [] then [['n', 'o', 'd', 'e']]
    else cutWords [] (lower label).toList) ++ cutWords [] id.toList

/-- The words of a name: those of a label and an id, after a letter if they start with a digit. -/
def nameWords (label id : String) : List (List Char) :=
  if startsWithDigit (String.ofList (spell (ownWords label id))) then ['n'] :: ownWords label id
  else ownWords label id

/-- The words of a label and an id are words, and there are some. -/
theorem ownWords_isWord (label id : String) :
    ownWords label id ≠ [] ∧ ∀ w ∈ ownWords label id, IsWord w := by
  have hcut (cs : List Char) : ∀ w ∈ cutWords [] cs, IsWord w := cutWords_isWord (by simp)
  rw [ownWords]
  split
  · refine ⟨by simp, fun w hw => ?_⟩
    rcases List.mem_append.mp hw with hw | hw
    · exact List.mem_singleton.mp hw ▸ isWord_of_all (by simp) (by decide)
    · exact hcut _ w hw
  · rename_i hne
    exact ⟨by simp [hne], fun w hw => (List.mem_append.mp hw).elim (hcut _ w) (hcut _ w)⟩

/-- A label and an id are joined as their words are. -/
theorem nameFor_eq (label id : String) : nameFor label id =
    let own := String.ofList (spell (ownWords label id))
    if startsWithDigit own then "n_" ++ own else own := by
  have hempty (s : String) : (snake s).isEmpty = true ↔ cutWords [] s.toList = [] := by
    rw [String.isEmpty_iff, ← String.toList_eq_nil_iff, snake_toList,
      spell_eq_nil_iff (cutWords_isWord (by simp))]
  have hspell (s : String) : snake s = String.ofList (spell (cutWords [] s.toList)) := by
    rw [← snake_toList, String.ofList_toList]
  have hlabel : (if (snake (lower label)).isEmpty then "node" else snake (lower label)) =
      String.ofList (spell (if cutWords [] (lower label).toList = [] then [['n', 'o', 'd', 'e']]
        else cutWords [] (lower label).toList)) := by
    simp only [hempty]
    split
    · rfl
    · exact hspell _
  have hown : (if (snake id).isEmpty then
        if (snake (lower label)).isEmpty then "node" else snake (lower label)
      else (if (snake (lower label)).isEmpty then "node" else snake (lower label)) ++ "_" ++ snake id) =
      String.ofList (spell (ownWords label id)) := by
    rw [hlabel, ownWords]
    simp only [hempty]
    split
    · rename_i hid
      rw [hid, List.append_nil]
    · rename_i hid
      rw [spell_append (by split <;> simp_all) hid, hspell id, ← String.toList_inj]
      simp
  rw [nameFor]
  simp only [hown]

/-- The name from a label and an id is made of their words. -/
theorem nameFor_madeOf (label id : String) : MadeOf (nameFor label id) (nameWords label id) := by
  obtain ⟨hne, hwords⟩ := ownWords_isWord label id
  have htidy := tidy_spell hwords
  obtain ⟨c, rest, htext⟩ := List.exists_cons_of_ne_nil (mt (spell_eq_nil_iff hwords).mp hne)
  rw [nameFor_eq, nameWords]
  dsimp only
  split
  · have hn : IsWord ['n'] := isWord_of_all (by simp) (by decide)
    refine ⟨?_, List.forall_mem_cons.mpr ⟨hn, hwords⟩, 'n', '_' :: c :: rest, ?_, by decide⟩
    · rw [spell_cons hne]
      simp
    · simp [htext]
  · rename_i hdigit
    refine ⟨String.toList_ofList, hwords, c, rest, by rw [String.toList_ofList, htext], ?_⟩
    have hfirst : c.isAlphanum = true := by
      have hc := htidy.first c (by simp [htext])
      exact (htidy.characters c (by simp [htext])).resolve_right hc
    rw [startsWithDigit, String.toList_ofList, htext] at hdigit
    change (c.isAlpha || c.isDigit) = true at hfirst
    exact (Bool.or_eq_true_iff.mp hfirst).resolve_right hdigit

theorem ofNode_madeOf (n : Node) : MadeOf (ofNode n) (nameWords n.label n.id) :=
  nameFor_madeOf n.label n.id

/-- A name with a number that tells it apart. -/
def numbered (base : String) (n : Nat) : String :=
  base ++ "_" ++ toString n

/-- A number is written with digits. -/
theorem isWord_toDigits (n : Nat) : IsWord (Nat.toDigits 10 n) := by
  refine ⟨Nat.toDigits_ne_nil, fun c hc => ?_⟩
  have hdigit := Nat.isDigit_of_mem_toDigits (by decide) (by decide) hc
  change (c.isAlpha || c.isDigit) = true
  rw [hdigit, Bool.or_true]

theorem toString_eq_ofList (n : Nat) : toString n = String.ofList (Nat.toDigits 10 n) :=
  Nat.repr_eq_ofList_toDigits

/-- The number of a name is its last word. -/
theorem MadeOf.numbered {base : String} {ws : List (List Char)} (h : MadeOf base ws) (n : Nat) :
    MadeOf (numbered base n) (ws ++ [Nat.toDigits 10 n]) := by
  rw [Naming.numbered, toString_eq_ofList]
  exact h.concat (isWord_toDigits n)

theorem numbered_injective (base : String) : Function.Injective (numbered base) := by
  intro m n h
  have hdigits : Nat.toDigits 10 m = Nat.toDigits 10 n := by
    rw [numbered, numbered, toString_eq_ofList, toString_eq_ofList, ← String.toList_inj] at h
    simpa using h
  rw [← Nat.ofDigitChars_toDigits (b := 10) (n := m) (by decide) (by decide), hdigits,
    Nat.ofDigitChars_toDigits (by decide) (by decide)]

/-- The choice of a name that is not taken: the base itself, or else the base with the least number from
two on that makes it new. -/
def IsFirstFree (taken : List String) (base name : String) : Prop :=
  (base ∉ taken ∧ name = base) ∨
    (base ∈ taken ∧ ∃ n, 2 ≤ n ∧ name = numbered base n ∧ name ∉ taken ∧
      ∀ k, 2 ≤ k → k < n → numbered base k ∈ taken)

/-- Among one more numbers than there are names taken, some number is free. -/
theorem exists_free (taken : List String) (base : String) :
    ∃ k < taken.length + 1, numbered base (k + 2) ∉ taken := by
  by_contra hnone
  have hsub : (List.range (taken.length + 1)).map (fun k => numbered base (k + 2)) ⊆ taken := by
    intro name hname
    obtain ⟨k, hk, rfl⟩ := List.mem_map.mp hname
    by_contra hfree
    exact hnone ⟨k, List.mem_range.mp hk, hfree⟩
  have hnodup : ((List.range (taken.length + 1)).map fun k => numbered base (k + 2)).Nodup := by
    refine List.nodup_range.map fun j k hjk => ?_
    have heq := numbered_injective base hjk
    omega
  have hlength := hnodup.length_le_of_subset hsub
  rw [List.length_map, List.length_range] at hlength
  omega

/-- The search ends at the first free name. -/
theorem fresh_isFirstFree (taken : List String) (base : String) :
    IsFirstFree taken base (fresh taken base) := by
  rw [fresh]
  split
  · rename_i hbase
    have hfind : ((List.range (taken.length + 1)).find?
        fun k => !taken.contains (numbered base (k + 2))).isSome = true := by
      obtain ⟨k, hk, hfree⟩ := exists_free taken base
      exact List.find?_isSome.mpr ⟨k, List.mem_range.mpr hk, by simpa using hfree⟩
    obtain ⟨k, hk⟩ := Option.isSome_iff_exists.mp hfind
    obtain ⟨hfree, -, hless⟩ := List.find?_range_eq_some.mp hk
    have hchosen : (((List.range (taken.length + 1)).map fun k => base ++ "_" ++ toString (k + 2)).find?
        fun name => !taken.contains name) = some (numbered base (k + 2)) := by
      rw [List.find?_map]
      exact congrArg (Option.map _) hk
    rw [hchosen, Option.getD_some]
    refine .inr ⟨by simpa using hbase, k + 2, by omega, rfl, by simpa using hfree, fun j hj hjk => ?_⟩
    obtain ⟨j, rfl⟩ := Nat.exists_eq_add_of_le' hj
    simpa using hless j (by omega)
  · rename_i hbase
    exact .inl ⟨by simpa using hbase, rfl⟩

theorem IsFirstFree.not_mem {taken : List String} {base name : String}
    (h : IsFirstFree taken base name) : name ∉ taken := by
  rcases h with ⟨hbase, rfl⟩ | ⟨-, n, -, -, hfree, -⟩
  · exact hbase
  · exact hfree

/-- The names of some nodes and of one more. -/
theorem assign_concat (nodes : List Node) (n : Node) :
    assign (nodes ++ [n]) = assign nodes ++ [fresh (assign nodes) (ofNode n)] := by
  rw [assign, List.foldl_append]
  rfl

/-- Every node gets a name. -/
@[simp] theorem length_assign (nodes : List Node) : (assign nodes).length = nodes.length := by
  induction nodes using List.reverseRecOn with
  | nil => rfl
  | append_singleton nodes n ih => rw [assign_concat, List.length_append, List.length_append, ih]; rfl

/-- The first nodes are named without regard to later ones. -/
theorem assign_take (nodes : List Node) (v : Nat) : (assign nodes).take v = assign (nodes.take v) := by
  induction nodes using List.reverseRecOn with
  | nil => simp [assign]
  | append_singleton nodes n ih =>
    rw [assign_concat]
    by_cases hv : v ≤ nodes.length
    · rw [List.take_append_of_le_length (by simpa using hv), List.take_append_of_le_length hv, ih]
    · rw [List.take_of_length_le (by simp; omega), List.take_of_length_le (by simp; omega),
        assign_concat]

/-- A node gets the first name that no node before it has. -/
theorem assign_getElem? {nodes : List Node} {v : Nat} {n : Node} (hn : nodes[v]? = some n) :
    (assign nodes)[v]? = some (fresh ((assign nodes).take v) (ofNode n)) := by
  obtain ⟨hv, rfl⟩ := List.getElem?_eq_some_iff.mp hn
  have hlast : (assign (nodes.take (v + 1)))[v]? =
      some (fresh (assign (nodes.take v)) (ofNode nodes[v])) := by
    rw [List.take_succ_eq_append_getElem hv, assign_concat]
    simp [Nat.min_eq_left (Nat.le_of_lt hv)]
  rw [assign_take, ← hlast, ← assign_take, List.getElem?_take_of_lt (Nat.lt_succ_self v)]

/-- No two nodes have the same name. -/
theorem assign_nodup (nodes : List Node) : (assign nodes).Nodup := by
  induction nodes using List.reverseRecOn with
  | nil => exact List.nodup_nil
  | append_singleton nodes n ih =>
    rw [assign_concat, ← List.concat_eq_append]
    exact ih.concat (fresh_isFirstFree _ _).not_mem

/-- What is given to a node is made of words. -/
theorem exists_madeOf {nodes : List Node} {name : String} (h : name ∈ assign nodes) :
    ∃ ws, MadeOf name ws := by
  obtain ⟨v, hv, rfl⟩ := List.getElem_of_mem h
  have hlt : v < nodes.length := by simpa using hv
  have hname := assign_getElem? (List.getElem?_eq_getElem hlt)
  rw [List.getElem?_eq_getElem hv, Option.some.injEq] at hname
  have hbase := ofNode_madeOf nodes[v]
  have hchosen := fresh_isFirstFree ((assign nodes).take v) (ofNode nodes[v])
  rw [← hname] at hchosen
  rcases hchosen with ⟨-, hsame⟩ | ⟨-, k, -, hsame, -⟩
  · exact ⟨_, hsame ▸ hbase⟩
  · exact ⟨_, hsame ▸ hbase.numbered k⟩

/-- The name that a label and an id make is taken as soon as the node has its name. -/
theorem ofNode_mem_take {nodes : List Node} {u v : Nat} {n : Node} (hn : nodes[u]? = some n)
    (huv : u < v) : ofNode n ∈ (assign nodes).take v := by
  have hname := assign_getElem? hn
  rcases fresh_isFirstFree ((assign nodes).take u) (ofNode n) with ⟨-, hsame⟩ | ⟨htaken, -⟩
  · rw [hsame, ← List.getElem?_take_of_lt huv] at hname
    exact List.mem_of_getElem? hname
  · exact List.take_subset_take_left _ (Nat.le_of_lt huv) htaken

/-- A name that does not end in a number is given to the first node whose label and id make it, and to
no other. -/
theorem assign_getElem?_eq_some_iff {nodes : List Node} {v : Nat} {n : Node} {name : String}
    {ws : List (List Char)} (hn : nodes[v]? = some n) (hname : MadeOf name ws)
    (hlast : ∀ k, ws.getLast? ≠ some (Nat.toDigits 10 k)) :
    (assign nodes)[v]? = some name ↔
      ofNode n = name ∧ ∀ u < v, ∀ m, nodes[u]? = some m → ofNode m ≠ name := by
  -- a number would be the last word
  have hown {u : Nat} {m : Node} (hm : nodes[u]? = some m) (hgiven : (assign nodes)[u]? = some name) :
      ofNode m = name ∧ ofNode m ∉ (assign nodes).take u := by
    rw [assign_getElem? hm, Option.some.injEq] at hgiven
    have hchosen := fresh_isFirstFree ((assign nodes).take u) (ofNode m)
    rw [hgiven] at hchosen
    rcases hchosen with ⟨hfree, hsame⟩ | ⟨-, k, -, hsame, -⟩
    · exact ⟨hsame.symm, hfree⟩
    · have hmade := (ofNode_madeOf m).numbered k
      rw [← hsame] at hmade
      refine absurd ?_ (hlast k)
      rw [hname.unique hmade, List.getLast?_concat]
  constructor
  · intro hgiven
    obtain ⟨hsame, hfree⟩ := hown hn hgiven
    refine ⟨hsame, fun u hu m hm hother => hfree ?_⟩
    rw [hsame, ← hother]
    exact ofNode_mem_take hm hu
  · rintro ⟨hsame, hfirst⟩
    rw [assign_getElem? hn]
    rcases fresh_isFirstFree ((assign nodes).take v) (ofNode n) with ⟨-, hchosen⟩ | ⟨htaken, -⟩
    · rw [hchosen, hsame]
    · obtain ⟨u, hu, hgiven⟩ := List.mem_take_iff_getElem.mp htaken
      have hlt : u < nodes.length := by
        rw [length_assign] at hu
        omega
      have hother := (hown (List.getElem?_eq_getElem hlt)
        (hsame ▸ hgiven ▸ List.getElem?_eq_getElem _)).1
      exact absurd hother (hfirst u (by omega) _ (List.getElem?_eq_getElem hlt))

/-- Every node of a graph gets a name of its own, a letter followed by letters, digits and single
underscores: the one that its label and id make or, if a node before it has that one, the one with the
least number from two on that no node before it has. -/
theorem nodes_have_distinct_names (g : FlowGraph) :
    (assign g.nodes).length = g.size ∧ (assign g.nodes).Nodup ∧
      (∀ name ∈ assign g.nodes, IsName name) ∧
      ∀ v n, g.node? v = some n → ∃ name, (assign g.nodes)[v]? = some name ∧
        IsFirstFree ((assign g.nodes).take v) (nameFor n.label n.id) name :=
  ⟨length_assign g.nodes, assign_nodup g.nodes,
    fun _ hname => (exists_madeOf hname).elim fun _ hmade => hmade.isName,
    fun _ _ hn => ⟨_, assign_getElem? hn, fresh_isFirstFree _ _⟩⟩

/-- Nodes of one label, where the id of the second makes the name that the third would get next. -/
def crowded : Document where
  nodes :=
    [⟨"n-1", "Step", none, some .plain, [], [], none, [], [], none, none⟩,
      ⟨"n_1_2", "Step", none, some .plain, [], [], none, [], [], none, none⟩,
      ⟨"n.1", " STEP!", none, some .plain, [], [], none, [], [], none, none⟩]
  edges := []

/-- The third node gets the number three, since two is taken by the name of the second. -/
theorem crowded_third :
    let g := FlowGraph.ofDocument crowded
    (∃ n, g.node? 2 = some n ∧ nameFor n.label n.id = "step_n_1") ∧
      (assign g.nodes)[2]? = some "step_n_1_3" ∧
      IsFirstFree ["step_n_1", "step_n_1_2"] "step_n_1" "step_n_1_3" := by
  intro g
  have hnames : assign g.nodes = ["step_n_1", "step_n_1_2", "step_n_1_3"] := by decide +kernel
  have hbase : nameFor " STEP!" "n.1" = "step_n_1" := by decide +kernel
  obtain ⟨-, -, -, hchosen⟩ := nodes_have_distinct_names g
  obtain ⟨name, hname, hfirst⟩ := hchosen 2 _ rfl
  rw [hnames] at hname hfirst ⊢
  cases hname
  exact ⟨⟨_, rfl, hbase⟩, rfl, hbase ▸ hfirst⟩

end Naming

end FlowScript
