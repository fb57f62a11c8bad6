import FlowScript.Proofs.Layout

/-!
# The listing of a program

The steps of a trace can be told to a writer one after the other: lines go to its current level, and
an arm that is opened or closed changes the level. What it has written in the end is the body that
the trace stands for. The text of a program is that of its header, its imports and its body, written
out as one list of items.
-/

namespace FlowScript

section Items

variable {unit : String}

theorem renderItems_append (unit : String) (xs ys : List Item) :
    renderItems unit (xs ++ ys) = renderItems unit xs ++ renderItems unit ys := by
  rw [renderItems, List.map_append, String.join_append, renderItems, renderItems]

theorem renderItems_verbatim (unit text : String) : renderItems unit [.verbatim text] = text := by
  simp [renderItems, Item.render]

theorem Item.map_shift_zero (items : List Item) : items.map (Item.shift 0) = items := by
  rw [show Item.shift 0 = id by funext x; cases x <;> rfl, List.map_id]

/-- Of items that are lines, only those of an empty list have no text. -/
theorem renderItems_eq_empty {items : List Item} (h : ∀ t, .verbatim t ∉ items) :
    renderItems unit items = "" ↔ items = [] := by
  cases items with
  | nil => exact iff_of_true rfl rfl
  | cons x rest =>
    refine iff_of_false (fun hempty => ?_) (List.cons_ne_nil _ _)
    rw [← List.singleton_append, renderItems_append, String.append_eq_empty_iff] at hempty
    have hline := hempty.1
    cases x with
    | line | blank => simp [renderItems, Item.render] at hline
    | verbatim t => exact h t List.mem_cons_self

/-- Items that are lines are still lines when they are moved. -/
theorem Item.verbatim_not_mem_shift {items : List Item} (h : ∀ t, .verbatim t ∉ items)
    (depth : Nat) (t : String) : .verbatim t ∉ items.map (Item.shift depth) := by
  intro hin
  obtain ⟨x, hx, hshift⟩ := List.mem_map.mp hin
  cases x with
  | line | blank => cases hshift
  | verbatim u => exact h u hx

/-- Lines that are written one after the other go to the same level. -/
theorem Listing.foldl_line (texts : List String) (level : Nat) (items : List Item) :
    texts.foldl Listing.line ⟨level, items⟩ = ⟨level, items ++ texts.map (.line level)⟩ := by
  induction texts generalizing items with
  | nil => simp
  | cons text texts ih =>
    refine (ih (items ++ [.line level text])).trans ?_
    simp

end Items

namespace Program

/-- The comment lines at the top, with a blank line after them. -/
def headerItems : Option String → List Item
  | none => []
  | some header =>
    (Text.lines header).map (fun l => .line 0 (if l.isEmpty then "#" else "# " ++ l)) ++ [.blank]

/-- The import lines, with a blank line after them if there are any. -/
def importItems (imports : List String) : List Item :=
  if imports.isEmpty then [] else imports.map (.line 0) ++ [.blank]

/-- The body as the body of a function: one level deeper, and not empty. -/
def functionItems (body : List Item) : List Item :=
  if body.isEmpty then [.line 1 "pass"] else body.map (Item.shift 1)

/-- The entry function around a body, and its call. -/
def entryItems (function : String) (body : List Item) : List Item :=
  .line 0 ("def " ++ function ++ "():") :: functionItems body ++
    [.blank, .blank, .line 0 "if __name__ == \"__main__\":", .line 1 (function ++ "()")]

/-- The lines of a program under some settings. -/
def items (p : Program) (s : Settings) : List Item :=
  headerItems s.header ++ importItems p.imports ++
    if s.entryPoint then entryItems s.entryFunction p.body else p.body

theorem writeHeader_eq (header : Option String) (items : List Item) :
    writeHeader header ⟨0, items⟩ = ⟨0, items ++ headerItems header⟩ := by
  cases header with
  | none => simp [writeHeader, headerItems]
  | some header =>
    have hlines := Listing.foldl_line
      ((Text.lines header).map fun l => if l.isEmpty then "#" else "# " ++ l) 0 items
    rw [List.foldl_map, List.map_map] at hlines
    rw [writeHeader, hlines, headerItems, ← List.append_assoc]
    rfl

theorem writeImports_eq (imports : List String) (items : List Item) :
    writeImports imports ⟨0, items⟩ = ⟨0, items ++ importItems imports⟩ := by
  rw [writeImports, importItems]
  split
  · rw [List.append_nil]
  · rw [Imports.write, Listing.foldl_line, ← List.append_assoc]
    rfl

/-- The entry function is written around the text of its body. -/
theorem render_writeEntry (function unit : String) (items : List Item) {body : List Item}
    (h : ∀ t, .verbatim t ∉ body) :
    (writeEntry function unit ⟨1, body.map (Item.shift 1)⟩ ⟨0, items⟩).render unit =
      renderItems unit (items ++ entryItems function body) := by
  have hempty : Listing.isEmpty ⟨1, body.map (Item.shift 1)⟩ unit = body.isEmpty := by
    rw [Listing.isEmpty, Bool.eq_iff_iff, String.isEmpty_iff, List.isEmpty_iff, Listing.render,
      renderItems_eq_empty (Item.verbatim_not_mem_shift h 1), List.map_eq_nil_iff]
  rw [writeEntry, entryItems, functionItems, hempty]
  cases body with
  | nil => simp [Listing.render, Listing.openBlock, Listing.line, Listing.push, Listing.indent,
      Listing.dedent, Listing.blank]
  | cons x rest =>
    rw [List.isEmpty_cons, if_neg Bool.false_ne_true, if_neg Bool.false_ne_true]
    -- the text of the body is copied, and its lines are those of the body
    simp only [Listing.render, Listing.openBlock, Listing.line, Listing.push, Listing.indent,
      Listing.dedent, Listing.blank, Listing.verbatim, renderItems_append, renderItems_verbatim,
      List.append_assoc]
    simp [← renderItems_append]

/-- The text of a program is that of its lines. -/
theorem text_eq_renderItems {p : Program} (h : ∀ t, .verbatim t ∉ p.body) (s : Settings) :
    p.text s = renderItems s.indent (p.items s) := by
  rw [text, listing, Listing.empty, writeHeader_eq, writeImports_eq, items, List.nil_append,
    bodyListing]
  by_cases hentry : s.entryPoint = true
  · rw [if_pos hentry, if_pos hentry, if_pos hentry]
    exact render_writeEntry _ _ _ h
  · rw [if_neg hentry, if_neg hentry, if_neg hentry, Item.map_shift_zero, renderItems_append]
    refine (renderItems_append _ _ _).trans ?_
    rw [renderItems_verbatim]
    rfl

end Program

namespace Draft

variable (d : Draft)

theorem listing_enter (v : Nat) : (d.enter v).listing = d.listing := by
  simp [listing, enter, traceItems, Event.item?]

theorem listing_write (origin : Option Nat) (text : String) :
    (d.write origin text).listing = d.listing.line text := by
  simp [listing, write, traceItems, Event.item?, Listing.line, Listing.push]

theorem listing_writeLines (origin : Option Nat) (text : String) :
    (d.writeLines origin text).listing = d.listing.lines text := by
  have hitem (l : String) : (lineEvent origin d.level l).item? =
      some (if Text.isBlankText l then .blank else .line d.level l) := by
    rw [lineEvent]
    split <;> rfl
  simp [listing, writeLines, traceItems, Listing.lines, Item.ofLines, hitem]

theorem listing_openArm (owner : Nat) (arm : Arm) :
    (d.openArm owner arm).listing = d.listing.indent := by
  simp [listing, openArm, traceItems, Event.item?, Listing.indent]

theorem listing_closeArm (owner : Nat) (arm : Arm) :
    (d.closeArm owner arm).listing = d.listing.dedent := by
  simp [listing, closeArm, traceItems, Event.item?, Listing.dedent]

/-- The first arm of a block is opened by the header of the block. -/
theorem listing_openBlock (owner : Nat) (header : String) (arm : Arm) :
    ((d.write (some owner) header).openArm owner arm).listing = d.listing.openBlock header := by
  rw [listing_openArm, listing_write, Listing.openBlock]

/-- The next arm of a block is the alternative to the one before it. -/
theorem listing_openElse (owner : Nat) (arm arm' : Arm) :
    (((d.closeArm owner arm).write none "else:").openArm owner arm').listing =
      d.listing.openElse := by
  rw [listing_openArm, listing_write, listing_closeArm, Listing.openElse, Listing.openBlock]

end Draft

/-- What a writer makes of a step. -/
def Listing.follow (w : Listing) : Event → Listing
  | .enter _ => w
  | .line _ _ text => w.line text
  | .blank _ => w.blank
  | .opened _ _ => w.indent
  | .closed _ _ => w.dedent

/-- The lines of a node are written at the current level. -/
theorem Listing.follow_own {own : List Event} {v level : Nat}
    (h : ∀ x ∈ own, x.StandsAt v level) (items : List Item) :
    own.foldl Listing.follow ⟨level, items⟩ = ⟨level, items ++ traceItems own⟩ := by
  induction own generalizing items with
  | nil => simp [traceItems]
  | cons x rest ih =>
    have hrest := ih fun y hy => h y (List.mem_cons_of_mem _ hy)
    rcases h x List.mem_cons_self with ⟨text, rfl⟩ | rfl
    all_goals exact (hrest _).trans (by simp [traceItems, Event.item?])

/-- A writer that was told the trace of a draft has written its listing. -/
def Draft.Followed (d : Draft) : Prop :=
  d.trace.foldl Listing.follow .empty = d.listing

namespace Job

variable {job : Job} {S : Nat → Prop} {d e : Draft}

/-- The filled text of a pattern is written as the kind of the pattern asks for. -/
theorem listing_writeFilled (d : Draft) (v : Nat) (n : Node) (kind : PatternKind) (text : String) :
    (job.writeFilled d v n kind text).listing =
      match kind with
      | .expression => d.listing.lines (job.nameOf v n ++ " = " ++ Text.trim text)
      | .statement =>
        (((Text.lines text).map Text.trim).filter fun l => !l.isEmpty).foldl Listing.line d.listing
      | .block => d.listing.lines (Text.trimEnd text) := by
  cases kind with
  | expression | block => exact d.listing_writeLines _ _
  | statement =>
    change (List.foldl _ d _).listing = _
    dsimp only
    generalize ((Text.lines text).map Text.trim).filter _ = lines
    induction lines generalizing d with
    | nil => rfl
    | cons l rest ih => rw [List.foldl_cons, List.foldl_cons, ← d.listing_write, ih]

/-- A block with two arms is written as a block with an alternative, at the end of which the level is
left again. -/
theorem listing_walkArms (walk : Nat → Draft → Draft) (owner : Nat) (header : String) (d : Draft)
    (arm arm' : Arm) (targets targets' : List Nat) :
    ∃ first second, first.listing = d.listing.openBlock header ∧
      second.listing = (walkArm walk targets first).listing.openElse ∧
      (walkArms walk owner [(arm, targets), (arm', targets')]
        (d.write (some owner) header)).listing = (walkArm walk targets' second).listing.dedent :=
  ⟨_, _, d.listing_openBlock owner header arm, Draft.listing_openElse _ owner arm arm',
    Draft.listing_closeArm _ owner arm'⟩

/-- Every step is one that a writer can follow. -/
theorem Step.followed (h : Step job S d e) (hd : d.Followed) : e.Followed := by
  have hd : d.trace.foldl Listing.follow .empty = d.listing := hd
  cases h with
  | enter =>
    rw [Draft.Followed, Draft.listing_enter, ← hd]
    simp [Draft.enter, Listing.follow]
  | @lines v _ _ =>
    have hwrites := writeGuarded_writesAt job d v
    obtain ⟨own, htrace, hown, -⟩ := hwrites.trace
    rw [Draft.Followed, Draft.listing, hwrites.level, htrace, List.foldl_append, hd, Draft.listing,
      Listing.follow_own hown]
    simp [traceItems]
  | shape _ hblock =>
    have halike := block?_alike hblock
    rw [Draft.Followed, Draft.listing, halike.level, halike.trace]
    exact hd
  | line =>
    rw [Draft.Followed, Draft.listing_write, ← hd]
    simp [Draft.write, Listing.follow]
  | openArm =>
    rw [Draft.Followed, Draft.listing_openArm, ← hd]
    simp [Draft.openArm, Listing.follow]
  | closeArm =>
    rw [Draft.Followed, Draft.listing_closeArm, ← hd]
    simp [Draft.closeArm, Listing.follow]
  | hold | letGo => exact hd

/-- A writer can follow the end of a body. -/
theorem closing_followed (hd : d.Followed) : (job.closing d).Followed := by
  have hline (notes : List Diagnostic) (text : String) :
      ((d.report notes).write none text).Followed :=
    (Step.line : Step job (fun _ => True) (d.report notes) _).followed hd
  rw [closing]
  split
  · exact hd
  · rw [returnAll]
    split
    · exact hd
    · exact hline _ _

end Job

/-- The body of a program is what a writer writes that is told the trace of the rendering step by
step, and the text is that of the listing around it. -/
theorem Generator.rendering_followed {σ : Type} (ask : PatternSource σ) {gen : Generator}
    (hg : gen.graph.WellFormed) (s : σ) :
    ∃ d, gen.rendering ask s = .ok d ∧ d.Followed ∧ (gen.run ask s).1.code =
      (Program.listing ⟨d.imports, d.listing.items⟩ gen.settings).render gen.settings.indent := by
  obtain ⟨e, hperforms, hrendering⟩ := rendering_performs ask hg s
  have hsteps := hperforms.steps (S := fun _ => True) fun _ _ => trivial
  have hbody : e.Followed := Job.keeps_of_step hsteps (fun _ _ hstep => hstep.followed) rfl
  refine ⟨_, hrendering, Job.closing_followed hbody, ?_⟩
  rw [run_eq_finish, hrendering]
  rfl

end FlowScript
