import FlowScript.Proofs.Control
import FlowScript.Proofs.Listings
import FlowScript.Proofs.Nesting

/-!
# The bodies of blocks

A line that announces a block needs a body: a deeper line that is neither blank nor a comment. Where
nothing is written into an arm there is a `pass`, but a comment counts as written, and a line of a
pattern that opens a scope may be indented by itself. If neither occurs, every block of a program
has a body, the entry function and its call included.
-/

namespace FlowScript

/-- The number of blank characters that a line begins with. -/
def indentation (line : String) : Nat :=
  (line.toList.takeWhile Text.isBlank).length

/-- Whether a line is neither blank nor a comment. -/
def isStatement (line : String) : Bool :=
  match line.toList.dropWhile Text.isBlank with
  | [] => false
  | c :: _ => c != '#'

/-- Whether a line is followed by a deeper line that is neither blank nor a comment, before any line
that is neither blank nor deeper. -/
def hasBody (unit : String) (header : Item) : List Item → Bool
  | [] => false
  | x :: below =>
    let line := x.render unit
    if Text.isBlankText line then hasBody unit header below
    else if indentation line ≤ indentation (header.render unit) then false
    else isStatement line || hasBody unit header below

/-- The lines of a trace that announce an arm, each with the lines below it. -/
def headings : List Event → List (Item × List Item)
  | [] => []
  | x :: rest =>
    (if opensArm rest.head? then x.item?.toList.map fun item => (item, traceItems rest) else []) ++
      headings rest

namespace Program

/-- The lines after the body of the entry function. -/
def callItems (function : String) : List Item :=
  [.blank, .blank, .line 0 "if __name__ == \"__main__\":", .line 1 (function ++ "()")]

/-- The lines of a program that announce a block, each with the lines below it. -/
def blockHeadings (s : Settings) (trace : List Event) : List (Item × List Item) :=
  if s.entryPoint then
    (.line 0 ("def " ++ s.entryFunction ++ "():"),
        functionItems (traceItems trace) ++ callItems s.entryFunction) ::
      (headings trace).map (fun h =>
        (h.1.shift 1, h.2.map (Item.shift 1) ++ callItems s.entryFunction)) ++
      [(.line 0 "if __name__ == \"__main__\":", [.line 1 (s.entryFunction ++ "()")])]
  else headings trace

end Program

/-- A line that is neither blank nor a comment and stands at a level or deeper, as do all lines before
it that are not blank. -/
def BodyFrom (level : Nat) (below : List Item) : Prop :=
  ∃ skipped l text rest, below = skipped ++ .line l text :: rest ∧
    (∀ x ∈ skipped, x = .blank ∨ ∃ l text, x = .line l text ∧ level ≤ l) ∧ level ≤ l ∧
    isStatement text = true

namespace BodyFrom

variable {level : Nat} {below : List Item}

/-- What comes after the body does not matter. -/
theorem append (h : BodyFrom level below) (more : List Item) : BodyFrom level (below ++ more) := by
  obtain ⟨skipped, l, text, rest, rfl, hskipped, hl, htext⟩ := h
  exact ⟨skipped, l, text, rest ++ more, by simp, hskipped, hl, htext⟩

/-- A body moved to a deeper level. -/
theorem shift (h : BodyFrom level below) : BodyFrom (level + 1) (below.map (Item.shift 1)) := by
  obtain ⟨skipped, l, text, rest, rfl, hskipped, hl, htext⟩ := h
  refine ⟨skipped.map (Item.shift 1), l + 1, text, rest.map (Item.shift 1), by simp [Item.shift], ?_,
    by omega, htext⟩
  intro x hx
  obtain ⟨y, hy, rfl⟩ := List.mem_map.mp hx
  rcases hskipped y hy with rfl | ⟨l, text, rfl, hl⟩
  · exact .inl rfl
  · exact .inr ⟨l + 1, text, rfl, by omega⟩

end BodyFrom

section Rendering

variable {unit : String} {level : Nat} {text : String}

/-- The blank characters of a unit of indentation. -/
theorem all_isBlank_of_isIndent (hunit : Settings.isIndent unit = true) :
    0 < unit.toList.length ∧ ∀ c ∈ unit.toList, Text.isBlank c = true := by
  rw [Settings.isIndent, Bool.and_eq_true] at hunit
  constructor
  · refine List.length_pos_of_ne_nil fun hnone => ?_
    have hempty : unit = "" := String.toList_eq_nil_iff.mp hnone
    rw [hempty] at hunit
    cases hunit.1
  · intro c hc
    have hblank := List.all_eq_true.mp hunit.2 c hc
    rw [Bool.or_eq_true, beq_iff_eq, beq_iff_eq] at hblank
    rcases hblank with rfl | rfl <;> rfl

/-- The characters of a line that is written at a level. -/
theorem toList_render (unit : String) (level : Nat) (text : String) :
    ((Item.line level text).render unit).toList =
      (List.replicate level unit).flatMap String.toList ++ (text.toList ++ ['\n']) := by
  simp [Item.render]

/-- What stands before the text of a line that is written at a level. -/
theorem margin_of_isIndent (hunit : Settings.isIndent unit = true) (level : Nat) :
    ((List.replicate level unit).flatMap String.toList).length = level * unit.toList.length ∧
      ∀ c ∈ (List.replicate level unit).flatMap String.toList, Text.isBlank c = true := by
  constructor
  · simp
  · intro c hc
    obtain ⟨s, hs, hc⟩ := List.mem_flatMap.mp hc
    rw [List.eq_of_mem_replicate hs] at hc
    exact (all_isBlank_of_isIndent hunit).2 c hc

/-- A line begins with the indentation of its level. -/
theorem le_indentation_render (hunit : Settings.isIndent unit = true) (level : Nat)
    (text : String) :
    level * unit.toList.length ≤ indentation ((Item.line level text).render unit) := by
  obtain ⟨hlength, hblank⟩ := margin_of_isIndent hunit level
  rw [indentation, toList_render, List.takeWhile_append_of_pos hblank, List.length_append, hlength]
  exact Nat.le_add_right _ _

/-- A line whose text is not indented by itself has the indentation of its level. -/
theorem indentation_render_eq (hunit : Settings.isIndent unit = true) (htext : indentation text = 0)
    (hne : text ≠ "") :
    indentation ((Item.line level text).render unit) = level * unit.toList.length := by
  obtain ⟨hlength, hblank⟩ := margin_of_isIndent hunit level
  have hnone : (text.toList ++ ['\n']).takeWhile Text.isBlank = [] := by
    have htake : text.toList.takeWhile Text.isBlank = [] := List.length_eq_zero_iff.mp htext
    cases hcs : text.toList with
    | nil => exact absurd (String.toList_eq_nil_iff.mp hcs) hne
    | cons c cs =>
      rw [hcs] at htake
      cases hc : Text.isBlank c with
      | true => simp [hc] at htake
      | false => simp [hc]
  rw [indentation, toList_render, List.takeWhile_append_of_pos hblank, hnone, List.append_nil,
    hlength]

/-- A line that is neither blank nor a comment stays so at every level. -/
theorem isStatement_render (hunit : Settings.isIndent unit = true) (level : Nat)
    (htext : isStatement text = true) :
    isStatement ((Item.line level text).render unit) = true ∧
      Text.isBlankText ((Item.line level text).render unit) = false := by
  have hblank := (margin_of_isIndent hunit level).2
  rw [isStatement] at htext
  split at htext
  · cases htext
  · rename_i c cs hdrop
    have hrest : (text.toList ++ ['\n']).dropWhile Text.isBlank = c :: (cs ++ ['\n']) := by
      rw [List.dropWhile_append, hdrop]
      rfl
    have hc : Text.isBlank c = false := by
      have hhead := List.head?_dropWhile_not Text.isBlank text.toList
      rw [hdrop] at hhead
      exact hhead
    constructor
    · rw [isStatement, toList_render, List.dropWhile_append_of_pos hblank, hrest]
      exact htext
    · rw [Text.isBlankText, toList_render, ← Bool.not_eq_true, List.all_eq_true]
      intro hall
      have hin : c ∈ text.toList := (List.dropWhile_sublist _).subset (hdrop ▸ List.mem_cons_self)
      have := hall c (List.mem_append_right _ (List.mem_append_left _ hin))
      rw [hc] at this
      cases this

/-- A line that is not indented by itself and has deeper lines as a body has a body. -/
theorem BodyFrom.hasBody {below : List Item} (h : BodyFrom (level + 1) below)
    (hunit : Settings.isIndent unit = true) (htext : indentation text = 0) (hne : text ≠ "") :
    hasBody unit (.line level text) below = true := by
  have hpos := (all_isBlank_of_isIndent hunit).1
  have hheader : indentation ((Item.line level text).render unit) = level * unit.toList.length :=
    indentation_render_eq hunit htext hne
  have hdeeper {l : Nat} (hl : level + 1 ≤ l) (text' : String) :
      ¬ indentation ((Item.line l text').render unit) ≤
        indentation ((Item.line level text).render unit) := by
    rw [hheader, Nat.not_le]
    exact Nat.lt_of_lt_of_le (Nat.mul_lt_mul_of_pos_right hl hpos) (le_indentation_render hunit l _)
  obtain ⟨skipped, l, body, rest, rfl, hskipped, hl, hbody⟩ := h
  induction skipped with
  | nil =>
    obtain ⟨hstatement, hfull⟩ := isStatement_render hunit l hbody
    rw [List.nil_append, FlowScript.hasBody]
    simp [hfull, hdeeper hl body, hstatement]
  | cons x skipped ih =>
    have hrest := ih fun y hy => hskipped y (List.mem_cons_of_mem _ hy)
    rw [List.cons_append, FlowScript.hasBody, hrest]
    rcases hskipped x List.mem_cons_self with rfl | ⟨l', text', rfl, hl'⟩
    · have hblank : Text.isBlankText (Item.blank.render unit) = true := by
        simp [Item.render, Text.isBlankText, Text.isBlank]
      rw [if_pos hblank]
    · simp [hdeeper hl' text']

end Rendering

/-- A line that is not indented by itself, with deeper lines below it as a body. -/
def Bodied (h : Item × List Item) : Prop :=
  ∃ level text, h.1 = .line level text ∧ indentation text = 0 ∧ text ≠ "" ∧ BodyFrom (level + 1) h.2

namespace Bodied

variable {h : Item × List Item}

/-- What comes after the body does not matter. -/
theorem append (hh : Bodied h) (more : List Item) : Bodied (h.1, h.2 ++ more) := by
  obtain ⟨level, text, hline, hindent, hne, hbody⟩ := hh
  exact ⟨level, text, hline, hindent, hne, hbody.append more⟩

/-- A line and its body moved to a deeper level. -/
theorem shift (hh : Bodied h) : Bodied (h.1.shift 1, h.2.map (Item.shift 1)) := by
  obtain ⟨level, text, hline, hindent, hne, hbody⟩ := hh
  exact ⟨level + 1, text, congrArg (Item.shift 1) hline, hindent, hne, hbody.shift⟩

/-- A line with a body below it has a body. -/
theorem hasBody (hh : Bodied h) {unit : String} (hunit : Settings.isIndent unit = true) :
    hasBody unit h.1 h.2 = true := by
  obtain ⟨level, text, hline, hindent, hne, hbody⟩ := hh
  rw [hline]
  exact hbody.hasBody hunit hindent hne

end Bodied

/-- The headings of two parts of a trace, if the second does not open an arm for the first. -/
theorem headings_append {steps more : List Event} (h : opensArm more.head? = false) :
    headings (steps ++ more) =
      (headings steps).map (fun x => (x.1, x.2 ++ traceItems more)) ++ headings more := by
  induction steps with
  | nil => rfl
  | cons x rest ih =>
    have hnext : opensArm (rest ++ more).head? = opensArm rest.head? := by
      cases rest with
      | nil => simpa [opensArm] using h
      | cons => rfl
    rw [List.cons_append, headings, headings, ih, hnext]
    split
    · simp [traceItems]
    · simp

/-- A heading stands in a trace, with the lines below it. -/
theorem suffix_of_mem_headings {trace : List Event} {h : Item × List Item}
    (hh : h ∈ headings trace) : h.1 :: h.2 <:+ traceItems trace := by
  induction trace with
  | nil => exact absurd hh List.not_mem_nil
  | cons x rest ih =>
    rw [headings] at hh
    rcases List.mem_append.mp hh with hh | hh
    · split at hh
      · obtain ⟨item, hitem, rfl⟩ := List.mem_map.mp hh
        have hx : x.item? = some item := Option.mem_toList.mp hitem
        have hitems : traceItems (x :: rest) = item :: traceItems rest :=
          List.filterMap_cons_some hx
        rw [hitems]
      · exact absurd hh List.not_mem_nil
    · have hsuffix : traceItems rest <:+ traceItems (x :: rest) := by
        rw [traceItems, traceItems, List.filterMap_cons]
        split
        · exact List.suffix_refl _
        · exact List.suffix_cons _ _
      exact (ih hh).trans hsuffix

/-- Whether a step writes a line that is neither blank nor a comment. -/
def Event.isStatement : Event → Bool
  | .line _ _ text => FlowScript.isStatement text
  | _ => false

/-- How far the text of a line is indented by itself. -/
def Event.indentation : Event → Nat
  | .line _ _ text => FlowScript.indentation text
  | _ => 0

namespace Job

variable {job : Job} {trace steps : List Event} {level : Nat}

/-- Every node that opens no scope and writes anything writes a line that is neither blank nor a
comment. -/
def WritesStatements (job : Job) (trace : List Event) : Prop :=
  ∀ v, job.opensScope v = false → ownLines trace v ≠ [] → (ownLines trace v).any Event.isStatement

/-- The last line of a node that opens a scope is not indented by itself. -/
def OpensAtMargin (job : Job) (trace : List Event) : Prop :=
  ∀ v, job.opensScope v = true → ∀ x ∈ (ownLines trace v).getLast?, x.indentation = 0

/-- Both conditions can be seen from the nodes that have lines. -/
theorem conditions_of_origins
    (hstatements : ∀ v ∈ trace.filterMap Event.origin?, job.opensScope v = false →
      (ownLines trace v).any Event.isStatement)
    (hmargin : ∀ v ∈ trace.filterMap Event.origin?, job.opensScope v = true →
      ∀ x ∈ (ownLines trace v).getLast?, x.indentation = 0) :
    job.WritesStatements trace ∧ job.OpensAtMargin trace := by
  have horigin {v : Nat} {x : Event} (hx : x ∈ ownLines trace v) :
      v ∈ trace.filterMap Event.origin? := by
    obtain ⟨hin, hv⟩ := List.mem_filter.mp hx
    exact List.mem_filterMap.mpr ⟨x, hin, of_decide_eq_true hv⟩
  constructor
  · intro v hscope hne
    obtain ⟨x, hx⟩ := List.exists_mem_of_ne_nil _ hne
    exact hstatements v (horigin hx) hscope
  · intro v hscope x hx
    exact hmargin v (horigin (List.mem_of_getLast? hx)) hscope x hx

/-- The lines that complete a block or the program are no comments. -/
theorem IsFiller.isStatement {text : String} (h : IsFiller text) : isStatement text = true := by
  rcases h with rfl | ⟨values, rfl⟩
  · decide
  · simp [FlowScript.isStatement, Text.isBlank]

/-- A layout that writes anything writes a line that is neither blank nor a comment. -/
theorem Laid.exists_statement (h : Laid job trace level steps)
    (hstatements : job.WritesStatements trace) (hline : HasLine steps) :
    ∃ x ∈ steps, x.isStatement = true := by
  induction h with
  | nil =>
    obtain ⟨_, _, _, hin⟩ := hline
    exact absurd hin List.not_mem_nil
  | enter _ ih =>
    obtain ⟨origin, l, text, hin⟩ := hline
    obtain ⟨x, hx, hstatement⟩ := ih ⟨origin, l, text, by simpa using hin⟩
    exact ⟨x, List.mem_cons_of_mem _ hx, hstatement⟩
  | filler htext => exact ⟨_, List.mem_cons_self, htext.isStatement⟩
  | @lines l v rest hscope _ _ _ ih =>
    cases hown : ownLines trace v with
    | nil =>
      rw [hown] at hline
      exact ih hline
    | cons y ys =>
      obtain ⟨x, hx, hstatement⟩ := List.any_eq_true.mp (hstatements v hscope (by simp [hown]))
      exact ⟨x, List.mem_append_left _ (hown ▸ hx), hstatement⟩
  | arm _ _ hbody _ ihBody _ =>
    obtain ⟨x, hx, hstatement⟩ := ihBody hbody
    exact ⟨x, by simp [hx], hstatement⟩

/-- The lines of a layout stand at its level or deeper. -/
theorem Laid.levels (h : Laid job trace level steps) :
    ∀ item ∈ traceItems steps, item = .blank ∨ ∃ l text, item = .line l text ∧ level ≤ l := by
  intro item hitem
  obtain ⟨x, hx, hxitem⟩ := List.mem_filterMap.mp hitem
  cases x with
  | line origin l text =>
    obtain ⟨before, after, rfl⟩ := List.append_of_mem hx
    have hrow : ⟨l, opensArm after.head?⟩ ∈ rows (before ++ .line origin l text :: after) := by
      rw [rows_append rfl]
      exact List.mem_append_right _ List.mem_cons_self
    exact .inr ⟨l, text, (Option.some.inj hxitem).symm, h.wellNested.floor _ hrow⟩
  | blank => exact .inl (Option.some.inj hxitem).symm
  | enter | opened | closed => cases hxitem

/-- A layout that writes anything is a body. -/
theorem Laid.bodyFrom (h : Laid job trace level steps)
    (hstatements : job.WritesStatements trace) (hline : HasLine steps) :
    BodyFrom level (traceItems steps) := by
  obtain ⟨x, hx, htext⟩ := h.exists_statement hstatements hline
  obtain ⟨origin, l, text, rfl⟩ : ∃ origin l text, x = .line origin l text := by
    cases x with
    | line origin l text => exact ⟨origin, l, text, rfl⟩
    | enter | blank | opened | closed => cases htext
  obtain ⟨before, after, rfl⟩ := List.append_of_mem hx
  have hlevels := h.levels
  have hitems : traceItems (before ++ .line origin l text :: after) =
      traceItems before ++ .line l text :: traceItems after := by
    simp [traceItems, Event.item?]
  rw [hitems] at hlevels ⊢
  refine ⟨_, l, text, _, rfl, fun item hitem => ?_, ?_, htext⟩
  · exact hlevels item (List.mem_append_left _ hitem)
  · rcases hlevels (.line l text) (by simp) with hblank | ⟨l', text', heq, hl⟩
    · cases hblank
    · obtain ⟨rfl, -⟩ := Item.line.inj heq
      exact hl

/-- A text that begins with a character that is not blank is not indented. -/
theorem unindented_of_head? {text : String} {d : Char} (htext : text.toList.head? = some d)
    (hd : Text.isBlank d = false) : indentation text = 0 ∧ text ≠ "" := by
  cases hcs : text.toList with
  | nil => simp [hcs] at htext
  | cons c cs =>
    obtain rfl : c = d := by simpa [hcs] using htext
    refine ⟨by simp [indentation, hcs, hd], ?_⟩
    rintro rfl
    cases hcs

/-- A line that announces an arm is not indented by itself. -/
theorem Announces.unindented {c : Nat} {arm : Arm} {own : List Event} {origin : Option Nat}
    {text : String} (h : Announces job trace level c arm own (.line origin level text))
    (hmargin : job.OpensAtMargin trace) : indentation text = 0 ∧ text ≠ "" := by
  cases h with
  | condition | loop => exact unindented_of_head? (d := _) (by simp; rfl) rfl
  | otherwise => exact unindented_of_head? (d := 'e') rfl rfl
  | scope hscope hlines _ hcolon =>
    refine ⟨hmargin c hscope (.line (some c) level text) (by simp [hlines]), ?_⟩
    rintro rfl
    cases hcolon

/-- The lines of a node are no headings by themselves. -/
theorem headings_of_standsAt {own : List Event} {c : Nat} (h : ∀ x ∈ own, x.StandsAt c level) :
    headings own = [] := by
  induction own with
  | nil => rfl
  | cons x rest ih =>
    have hrest : ∀ y ∈ rest, y.StandsAt c level := fun y hy => h y (List.mem_cons_of_mem _ hy)
    rw [headings, opensArm_of_standsAt hrest, ih hrest]
    rfl

/-- In a layout, every line that announces an arm has a body. -/
theorem Laid.bodied (h : Laid job trace level steps) (hstatements : job.WritesStatements trace)
    (hmargin : job.OpensAtMargin trace) : ∀ x ∈ headings steps, Bodied x := by
  induction h with
  | nil => exact fun x hx => absurd hx List.not_mem_nil
  | enter hrest ih =>
    rw [headings, hrest.head]
    exact ih
  | filler _ hrest ih =>
    rw [headings, hrest.head]
    exact ih
  | lines _ hown _ hrest ih =>
    rw [headings_append hrest.head, headings_of_standsAt hown]
    exact ih
  | @arm level c arm own header body rest hannounces hbody hline hrest ihBody ihRest =>
    obtain ⟨origin, text, rfl⟩ := hannounces.eq_line
    have hhead : opensArm (body ++ .closed c arm :: rest).head? = false := by
      cases body with
      | nil => rfl
      | cons x xs => exact hbody.head
    have hclosed : headings (.closed c arm :: rest) = headings rest := by
      rw [headings, hrest.head]
      rfl
    have hopened : headings (.opened c arm :: (body ++ .closed c arm :: rest)) =
        (headings body).map (fun x => (x.1, x.2 ++ traceItems (.closed c arm :: rest))) ++
          headings rest := by
      rw [headings, hhead, headings_append rfl, hclosed]
      rfl
    rw [headings_append rfl, headings_of_standsAt hannounces.standsAt, headings, hopened]
    intro x hx
    simp only [List.map_nil, List.nil_append, List.mem_append] at hx
    rcases hx with hx | hx | hx
    · have hx : x ∈ [(Item.line level text, traceItems (body ++ .closed c arm :: rest))] := hx
      obtain rfl := List.mem_singleton.mp hx
      obtain ⟨hindent, hne⟩ := hannounces.unindented hmargin
      refine ⟨level, text, rfl, hindent, hne, ?_⟩
      have hinside := (hbody.bodyFrom hstatements hline).append (traceItems (.closed c arm :: rest))
      rwa [traceItems, traceItems, ← List.filterMap_append] at hinside
    · obtain ⟨y, hy, rfl⟩ := List.mem_map.mp hx
      exact (ihBody y hy).append _
    · exact ihRest x hx

end Job

/-- A letter is neither blank nor a number sign. -/
theorem not_isBlank_of_isAlpha {c : Char} (h : c.isAlpha = true) :
    Text.isBlank c = false ∧ c ≠ '#' := by
  have hrange : 65 ≤ c.toNat ∧ c.toNat ≤ 122 := by
    change (decide (c.val ≥ 'A'.val ∧ c.val ≤ 'Z'.val) ||
      (decide (c.val ≥ 'a'.val) && decide (c.val ≤ 'z'.val))) = true at h
    simp only [Bool.or_eq_true, Bool.and_eq_true, decide_eq_true_eq, UInt32.le_iff_toNat_le,
      ge_iff_le] at h
    have hval : c.toNat = c.val.toNat := rfl
    have hupper : 'A'.val.toNat = 65 ∧ 'Z'.val.toNat = 90 := ⟨rfl, rfl⟩
    have hlower : 'a'.val.toNat = 97 ∧ 'z'.val.toNat = 122 := ⟨rfl, rfl⟩
    omega
  constructor
  · simp only [Text.isBlank, Bool.or_eq_false_iff, Bool.and_eq_false_iff, decide_eq_false_iff_not,
      beq_eq_false_iff_ne]
    omega
  · rintro rfl
    exact absurd hrange.1 (by decide)

/-- An identifier begins with a character that is neither blank nor a number sign. -/
theorem isStatement_of_isIdentifier {name : String} (h : Settings.isIdentifier name = true)
    (rest : String) : isStatement (name ++ rest) = true := by
  rw [Settings.isIdentifier] at h
  split at h
  · cases h
  · rename_i c cs hname
    rw [Bool.and_eq_true, Bool.or_eq_true, beq_iff_eq] at h
    have hc : Text.isBlank c = false ∧ c ≠ '#' := by
      rcases h.1 with halpha | rfl
      · exact not_isBlank_of_isAlpha halpha
      · decide
    simp [isStatement, hname, hc.1, hc.2]

section Program

variable {job : Job} {trace : List Event} {settings : Settings}

/-- The line of the entry function has a body. -/
theorem Job.Laid.bodied_function (h : Laid job trace 0 trace)
    (hstatements : job.WritesStatements trace) (function : String) :
    Bodied (.line 0 ("def " ++ function ++ "():"), Program.functionItems (traceItems trace)) := by
  obtain ⟨hindent, hne⟩ := @Job.unindented_of_head? ("def " ++ function ++ "():") 'd' (by simp) rfl
  refine ⟨0, _, rfl, hindent, hne, ?_⟩
  dsimp only
  rw [Program.functionItems]
  split
  · exact ⟨[], 1, "pass", [], rfl, by simp, by omega, by decide⟩
  · rename_i hbody
    exact (h.bodyFrom hstatements (h.hasLine fun hnone => hbody (by simp [hnone]))).shift

/-- The line of the call has a body. -/
theorem bodied_call {function : String} (h : Settings.isIdentifier function = true) :
    Bodied (.line 0 "if __name__ == \"__main__\":", [.line 1 (function ++ "()")]) := by
  refine ⟨0, _, rfl, by decide, by decide, [], 1, _, [], rfl, by simp, Nat.le_refl _, ?_⟩
  exact isStatement_of_isIdentifier h _

/-- The lines that announce a block are lines of the program. -/
theorem suffix_of_mem_blockHeadings (imports : List String) {h : Item × List Item}
    (hh : h ∈ Program.blockHeadings settings trace) :
    h.1 :: h.2 <:+ Program.items ⟨imports, traceItems trace⟩ settings := by
  rw [Program.blockHeadings] at hh
  rw [Program.items]
  refine List.IsSuffix.trans ?_ (List.suffix_append _ _)
  split at hh
  · rename_i hpoint
    have hitems : Program.entryItems settings.entryFunction (traceItems trace) =
        .line 0 ("def " ++ settings.entryFunction ++ "():") ::
          (Program.functionItems (traceItems trace) ++
            Program.callItems settings.entryFunction) := rfl
    rw [if_pos hpoint, hitems]
    simp only [List.cons_append, List.mem_cons, List.mem_append, List.mem_map, List.not_mem_nil,
      or_false] at hh
    rcases hh with rfl | ⟨x, hx, rfl⟩ | rfl
    · exact List.suffix_refl _
    · have hsuffix := suffix_of_mem_headings hx
      have hfunction : Program.functionItems (traceItems trace) =
          (traceItems trace).map (Item.shift 1) := by
        rw [Program.functionItems, if_neg]
        intro hnone
        rw [List.isEmpty_iff.mp hnone] at hsuffix
        exact absurd (List.suffix_nil.mp hsuffix) (List.cons_ne_nil _ _)
      obtain ⟨front, hfront⟩ := hsuffix
      refine ⟨.line 0 ("def " ++ settings.entryFunction ++ "():") :: front.map (Item.shift 1), ?_⟩
      rw [hfunction, ← hfront]
      simp
    · exact ⟨.line 0 ("def " ++ settings.entryFunction ++ "():") ::
        (Program.functionItems (traceItems trace) ++ [.blank, .blank]), by simp [Program.callItems]⟩
  · rename_i hpoint
    rw [if_neg hpoint]
    exact suffix_of_mem_headings hh

/-- In a program whose body has the layout of nested blocks, every line that announces a block has a
body. -/
theorem Job.Laid.bodied_blockHeadings (h : Laid job trace 0 trace)
    (hentry : Settings.isIdentifier settings.entryFunction = true)
    (hstatements : job.WritesStatements trace) (hmargin : job.OpensAtMargin trace) :
    ∀ x ∈ Program.blockHeadings settings trace, Bodied x := by
  have hbodied := h.bodied hstatements hmargin
  intro x hx
  rw [Program.blockHeadings] at hx
  split at hx
  · simp only [List.cons_append, List.mem_cons, List.mem_append, List.mem_map, List.not_mem_nil,
      or_false] at hx
    rcases hx with rfl | ⟨y, hy, rfl⟩ | rfl
    · exact (h.bodied_function hstatements _).append _
    · exact (hbodied y hy).shift.append _
    · exact bodied_call hentry
  · exact hbodied x hx

end Program

namespace Generator

variable {σ : Type}

/-- Under settings that are accepted, every block of a program has a body, if every node that opens
no scope and writes anything writes a line that is no comment, and if no line that opens a scope is
indented by itself. The lines that announce a block are the one of the entry function, the lines
before arms, and the one of the call. -/
theorem blocks_have_bodies (ask : PatternSource σ) (s : σ) (doc : Document) (settings : Settings)
    (conversions : Conversions) (known : List (String × Option Pattern))
    (hsettings : settings.validate = .ok settings) :
    let gen : Generator := ⟨.ofDocument doc, settings, conversions, known⟩
    let job := gen.fittedJob ask s
    ∃ d, gen.rendering ask s = .ok d ∧
      let items := Program.items ⟨d.imports, traceItems d.trace⟩ settings
      (gen.run ask s).1.code = renderItems settings.indent items ∧
      (job.WritesStatements d.trace → job.OpensAtMargin d.trace →
        ∀ h ∈ Program.blockHeadings settings d.trace,
          h.1 :: h.2 <:+ items ∧ hasBody settings.indent h.1 h.2 = true) := by
  intro gen job
  have hg : gen.graph.WellFormed := FlowGraph.ofDocument_wellFormed doc
  obtain ⟨hindent, hentry⟩ : Settings.isIndent settings.indent = true ∧
      Settings.isIdentifier settings.entryFunction = true := by
    rw [Settings.validate] at hsettings
    split_ifs at hsettings with hindent hentry
    exact ⟨by simpa using hindent, by simpa using hentry⟩
  obtain ⟨e, hperforms, hrendering⟩ := rendering_performs ask hg s
  have hlaid : job.Laid (job.closing e).trace 0 (job.closing e).trace :=
    hperforms.laid (lt_size_of_opensScope ask gen s) rfl
  refine ⟨job.closing e, hrendering, ?_, fun hstatements hmargin h hh => ?_⟩
  · rw [run_eq_finish, hrendering]
    exact Program.text_eq_renderItems (verbatim_not_mem_traceItems _) settings
  · have hbodied := hlaid.bodied_blockHeadings hentry hstatements hmargin h hh
    exact ⟨suffix_of_mem_blockHeadings _ hh, hbodied.hasBody hindent⟩

/-- A source that answers with one pattern. -/
def always (p : Pattern) : PatternSource Unit := fun s _ _ => (.found p, s)

/-- A node with a function, and a return after it. -/
def guardedReturn : Document where
  nodes :=
    [⟨"guard", "guard", none, some .plain, [], [], some true, [], [], some "guard", none⟩,
      ⟨"leave", "leave", none, some .output, [], [], some true, [], [], none, none⟩]
  edges := [⟨"next", "guard", "leave", none, none, some ⟨some .execution, none⟩⟩]

/-- A scope, the entry function and its call have bodies. -/
theorem guardedReturn_has_bodies :
    let ask := always ⟨"with lock:", .block, []⟩
    let gen := Generator.new (.ofDocument guardedReturn) .standard
    Settings.standard.validate = .ok .standard ∧
      ∃ d, gen.rendering ask () = .ok d ∧ (gen.fittedJob ask ()).WritesStatements d.trace ∧
        (gen.fittedJob ask ()).OpensAtMargin d.trace ∧
        (Program.blockHeadings .standard d.trace).length = 3 ∧
        ∀ h ∈ Program.blockHeadings .standard d.trace, hasBody "    " h.1 h.2 = true := by
  intro ask gen
  obtain ⟨d, hrendering, -, hbodies⟩ :=
    blocks_have_bodies ask () guardedReturn .standard (.standard .standard) [] rfl
  obtain ⟨d', hd', htrace⟩ := @exists_rendering Unit ask gen ()
    [.enter 0, .line (some 0) 0 "with lock:", .opened 0 .scope, .enter 1,
      .line (some 1) 1 "return", .closed 0 .scope] (by decide +kernel)
  obtain rfl : d = d' := Except.ok.inj (hrendering.symm.trans hd')
  obtain ⟨hstatements, hmargin⟩ : (gen.fittedJob ask ()).WritesStatements d.trace ∧
      (gen.fittedJob ask ()).OpensAtMargin d.trace := by
    rw [htrace]
    exact Job.conditions_of_origins (by decide +kernel) (by decide +kernel)
  refine ⟨rfl, d, hrendering, hstatements, hmargin, ?_, fun h hh => ?_⟩
  · rw [htrace]
    decide +kernel
  · exact (hbodies hstatements hmargin h hh).2

/-- A conditional that leads to a node whose function has no pattern. -/
def missingBranch : Document where
  nodes :=
    [⟨"check", "check", none, some .conditional, [⟨"cond", "cond", "bool", false, none⟩], [],
        some true, [], [], none, none⟩,
      ⟨"act", "act", none, some .plain, [], [], some true, [], [], some "act", none⟩]
  edges := [⟨"then", "check", "act", none, none, some ⟨some .execution, some "then"⟩⟩]

/-- A comment stands where the body of a conditional is needed, and the last line of a pattern that
opens a scope is indented as deep as what follows it. -/
theorem comments_and_indented_scopes_lack_bodies :
    (∃ d, (Generator.new (.ofDocument missingBranch) .standard).rendering unanswered () = .ok d ∧
      ∃ h ∈ Program.blockHeadings .standard d.trace, hasBody "    " h.1 h.2 = false) ∧
    ∃ d, (Generator.new (.ofDocument guardedReturn) .standard).rendering
        (always ⟨"try:\n    with lock:", .block, []⟩) () = .ok d ∧
      ∃ h ∈ Program.blockHeadings .standard d.trace, hasBody "    " h.1 h.2 = false := by
  constructor
  · obtain ⟨d, hd, htrace⟩ := @exists_rendering Unit unanswered
      (Generator.new (.ofDocument missingBranch) .standard) ()
      [.enter 0, .line (some 0) 0 "if False:", .opened 0 .thenArm, .enter 1,
        .line (some 1) 1 "# missing syntax pattern 'act' for node 'act' (act)",
        .closed 0 .thenArm] (by decide +kernel)
    refine ⟨d, hd, ?_⟩
    rw [htrace]
    decide +kernel
  · obtain ⟨d, hd, htrace⟩ := @exists_rendering Unit (always ⟨"try:\n    with lock:", .block, []⟩)
      (Generator.new (.ofDocument guardedReturn) .standard) ()
      [.enter 0, .line (some 0) 0 "try:", .line (some 0) 0 "    with lock:", .opened 0 .scope,
        .enter 1, .line (some 1) 1 "return", .closed 0 .scope] (by decide +kernel)
    refine ⟨d, hd, ?_⟩
    rw [htrace]
    decide +kernel

end Generator

end FlowScript
