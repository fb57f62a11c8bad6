import FlowScript.Proofs.Apart
import FlowScript.Proofs.Likeness

/-!
# The layout of a program is all that its settings decide

But for the language, settings decide nothing that an emission reads. The program is one list of
lines, each blank or a text at a level, and settings say how these are set: with which indentation, in
an entry function or not, and under which header. In an entry function a body can as well be written
one level deeper from the start. That takes the same steps and makes the same reports, since no step
looks at the level and no arm is closed that has not been opened.
-/

namespace FlowScript

/-- A line of a body: blank, or a text at a level. -/
abbrev BodyLine := Option (Nat × String)

/-- The line that a step writes, if it writes one. -/
def Event.bodyLine? : Event → Option BodyLine
  | .line _ level text => some (some (level, text))
  | .blank _ => some none
  | _ => none

/-- The lines that a trace writes. -/
def bodyLines (trace : List Event) : List BodyLine :=
  trace.filterMap Event.bodyLine?

namespace Settings

variable (settings : Settings)

/-- The level at which the body stands: one deeper in an entry function. -/
def base : Nat :=
  if settings.entryPoint then 1 else 0

/-- The text of lines that stand some levels deeper. -/
def linesText (depth : Nat) (lines : List BodyLine) : String :=
  String.join (lines.map fun
    | some (level, text) =>
      String.join (List.replicate (level + depth) settings.indent) ++ text ++ "\n"
    | none => "\n")

/-- The header as comment lines and a blank line, if there is one. -/
def headerText : String :=
  match settings.header with
  | none => ""
  | some header =>
    String.join ((Text.lines header).map fun l => (if l.isEmpty then "#" else "# " ++ l) ++ "\n") ++
      "\n"

/-- The import lines and a blank line, if there are any. -/
def importText (imports : List String) : String :=
  if imports = [] then "" else String.join (imports.map (· ++ "\n")) ++ "\n"

/-- The program of some import lines and the lines of a body. -/
def layout (imports : List String) (lines : List BodyLine) : String :=
  settings.headerText ++ importText imports ++
    if settings.entryPoint then
      "def " ++ settings.entryFunction ++ "():\n" ++
        (if lines = [] then settings.indent ++ "pass\n" else settings.linesText 1 lines) ++
        "\n" ++ "\n" ++ "if __name__ == \"__main__\":\n" ++
        settings.indent ++ settings.entryFunction ++ "()\n"
    else settings.linesText 0 lines

/-- Every step writes its line under the settings. -/
theorem renderItems_trace (depth : Nat) (trace : List Event) :
    renderItems settings.indent ((traceItems trace).map (Item.shift depth)) =
      settings.linesText depth (bodyLines trace) := by
  induction trace with
  | nil => rfl
  | cons x trace ih =>
    cases x with
    | enter | opened | closed => exact ih
    | line origin level text =>
      rw [← List.singleton_append, traceItems, List.filterMap_append, List.map_append,
        renderItems_append]
      exact (congrArg (_ ++ ·) ih).trans String.join_cons.symm
    | blank origin =>
      rw [← List.singleton_append, traceItems, List.filterMap_append, List.map_append,
        renderItems_append]
      exact (congrArg (_ ++ ·) ih).trans String.join_cons.symm

/-- A body without lines has no text, and only that. -/
theorem linesText_eq_empty (depth : Nat) (lines : List BodyLine) :
    settings.linesText depth lines = "" ↔ lines = [] := by
  cases lines with
  | nil => exact iff_of_true rfl rfl
  | cons line lines =>
    have hline : settings.linesText depth (line :: lines) ≠ "" := by
      rw [linesText, List.map_cons, String.join_cons, ne_eq, String.append_eq_empty_iff]
      cases line <;> simp
    exact iff_of_false hline (List.cons_ne_nil _ _)

/-- The header as its items write it. -/
theorem renderItems_header :
    renderItems settings.indent (Program.headerItems settings.header) = settings.headerText := by
  rw [headerText]
  cases settings.header with
  | none => rfl
  | some header =>
    rw [Program.headerItems, renderItems_append, renderItems, List.map_map]
    rfl

/-- The imports as their items write them. -/
theorem renderItems_imports (imports : List String) :
    renderItems settings.indent (Program.importItems imports) = importText imports := by
  cases imports with
  | nil => rfl
  | cons line imports =>
    rw [Program.importItems, List.isEmpty_cons, if_neg Bool.false_ne_true, renderItems_append,
      renderItems, List.map_map]
    rfl

/-- A program is its imports and the lines of its body, set as the settings say. -/
theorem text_eq_layout (imports : List String) (trace : List Event) :
    Program.text ⟨imports, traceItems trace⟩ settings =
      settings.layout imports (bodyLines trace) := by
  rw [Program.text_eq_programText, programText, traceText, renderItems_trace, renderItems_append,
    renderItems_header, renderItems_imports, layout]
  cases settings.entryPoint with
  | false => rfl
  | true =>
    simp only [if_true, linesText_eq_empty]
    have htail : renderItems settings.indent [.blank, .blank, .line 0 "if __name__ == \"__main__\":",
        .line 1 (settings.entryFunction ++ "()")] =
        "\n" ++ "\n" ++ "if __name__ == \"__main__\":\n" ++
          settings.indent ++ settings.entryFunction ++ "()\n" := by
      rw [← String.toList_inj]
      simp [renderItems, Item.render]
    have hhead : renderItems settings.indent [.line 0 ("def " ++ settings.entryFunction ++ "():")] =
        "def " ++ settings.entryFunction ++ "():\n" := by
      simp [renderItems, Item.render, String.append_assoc]
    have hpass : renderItems settings.indent [.line 1 "pass"] = settings.indent ++ "pass\n" := by
      simp [renderItems, Item.render, String.append_assoc]
    rw [htail, hhead, hpass]
    simp only [String.append_assoc]

end Settings

/-- Items that are alike but for their depth. -/
theorem Item.Like.eq_shift {depth : Nat} {items items' : List Item}
    (h : List.Forall₂ (Item.Like depth Eq) items items') : items' = items.map (Item.shift depth) := by
  induction h with
  | nil => rfl
  | cons hfirst _ ih =>
    rw [List.map_cons, ih]
    cases hfirst with
    | line level htext =>
      subst htext
      rfl
    | blank => rfl

/-- A job is like itself. -/
theorem Job.Like.refl (job : Job) : Job.Like Eq Eq job job where
  graph := .refl _
  order := rfl
  fittings := rfl
  conversions := rfl
  mode := rfl
  names v n n' hn hn' := by rw [Option.some.inj (hn.symm.trans hn')]
  texts _ := rfl
  comments v n n' function hn hn' _ := by rw [Option.some.inj (hn.symm.trans hn')]
  faults _ := rfl
  notes v n n' hn hn' kind message := by
    rw [Option.some.inj (hn.symm.trans hn')]
    exact ⟨rfl, fun _ => rfl⟩

/-- A body that begins deeper writes the same lines deeper, and is otherwise the same. -/
theorem Job.body_deeper {job : Job} (hjob : job.WellFormed) (depth : Nat) {d : Draft}
    (htrace : d.trace = []) (hdeferred : d.deferred ⊆ d.entered)
    (hentered : ∀ v ∈ d.entered, v < job.graph.size) :
    ∃ e e', job.body d = .ok e ∧ job.body { d with level := d.level + depth } = .ok e' ∧
      traceItems e'.trace = (traceItems e.trace).map (Item.shift depth) ∧
      e'.imports = e.imports ∧ e'.diagnostics = e.diagnostics := by
  have hstart : Draft.Like depth Eq Eq d { d with level := d.level + depth } := by
    refine ⟨rfl, ?_, rfl, rfl, rfl, List.forall₂_same.mpr fun _ _ => rfl, rfl, rfl⟩
    rw [htrace]
    exact .nil
  obtain ⟨e, e', hbody, hbody', hlike⟩ :=
    (Job.Like.refl job).body hjob hjob hstart hdeferred hentered
  refine ⟨e, e', hbody, hbody', Item.Like.eq_shift (Event.Like.items hlike.trace), hlike.imports, ?_⟩
  have hsame := hlike.diagnostics
  rw [List.forall₂_eq_eq_eq] at hsame
  exact hsame.symm

namespace Generator

variable {σ : Type}

/-- Of the settings, an emission reads the language only. -/
theorem rendering_congr (ask : PatternSource σ) (s : σ) (graph : FlowGraph) {settings settings' : Settings}
    (hlanguage : settings'.language = settings.language) (conversions : Conversions)
    (known : List (String × Option Pattern)) :
    rendering ask ⟨graph, settings', conversions, known⟩ s =
      rendering ask ⟨graph, settings, conversions, known⟩ s := by
  have hfitted : fitAll ask ⟨graph, settings', conversions, known⟩ s =
      fitAll ask ⟨graph, settings, conversions, known⟩ s := by
    rw [fitAll, hlanguage, fitAll]
  rw [rendering, fittedJob, startDraft, hfitted, rendering, fittedJob, startDraft]
  rfl

/-- Settings with one language give the same errors and the same warnings, and set one list of lines
and imports. A body that is begun at the level at which it stands has the very text that stands there,
the same imports and the same reports. -/
theorem settings_change_layout_only (ask : PatternSource σ) (s : σ) (doc : Document)
    (conversions : Conversions) (known : List (String × Option Pattern)) (settings settings' : Settings)
    (hlanguage : settings'.language = settings.language) :
    let gen (t : Settings) : Generator := ⟨.ofDocument doc, t, conversions, known⟩
    let outcome (t : Settings) : Outcome := ((gen t).run ask s).1
    Diagnostic.errors (outcome settings').diagnostics =
        Diagnostic.errors (outcome settings).diagnostics ∧
      Diagnostic.warnings (outcome settings').diagnostics =
        Diagnostic.warnings (outcome settings).diagnostics ∧
      ∃ imports lines, ∀ t ∈ [settings, settings'],
        (outcome t).code = t.layout imports lines ∧
        ∃ e, ((gen t).fittedJob ask s).body { (gen t).startDraft ask s with level := t.base } = .ok e ∧
          renderItems t.indent (traceItems e.trace) = t.linesText t.base lines ∧
          (renderItems t.indent (traceItems e.trace) = "" ↔ lines = []) ∧
          e.imports = imports ∧ e.diagnostics = (outcome t).diagnostics := by
  intro gen outcome
  have hg : (gen settings).graph.WellFormed := FlowGraph.ofDocument_wellFormed doc
  obtain ⟨d, -, hrendering⟩ := rendering_performs ask hg s
  generalize ((gen settings).fittedJob ask s).closing d = body at hrendering
  -- under all settings with the language, the body is the same
  have hall : ∀ t ∈ [settings, settings'], (gen t).rendering ask s = .ok body := by
    intro t ht
    rw [← hrendering]
    refine rendering_congr ask s _ ?_ conversions known
    rcases List.mem_cons.mp ht with rfl | ht
    · rfl
    · rw [List.mem_singleton.mp ht, hlanguage]
  have houtcome (t : Settings) (ht : t ∈ [settings, settings']) :
      outcome t = ⟨Program.text ⟨body.imports, traceItems body.trace⟩ t, body.diagnostics⟩ := by
    change ((gen t).run ask s).1 = _
    rw [run_eq_finish, hall t ht]
    rfl
  have hfirst := houtcome settings (by simp)
  have hsecond := houtcome settings' (by simp)
  refine ⟨by rw [hfirst, hsecond], by rw [hfirst, hsecond], body.imports, bodyLines body.trace, ?_⟩
  intro t ht
  have hjob : ((gen t).fittedJob ask s).WellFormed :=
    fittedJob_wellFormed ask (FlowGraph.ofDocument_wellFormed doc) s
  obtain ⟨e, e', hbody, hbody', hitems, himports, hreports⟩ := Job.body_deeper hjob t.base
    (d := (gen t).startDraft ask s) rfl (List.nil_subset _) (by simp [startDraft, Draft.start])
  obtain rfl : e = body := Except.ok.inj (hbody.symm.trans (hall t ht))
  have htext : renderItems t.indent (traceItems e'.trace) = t.linesText t.base (bodyLines e.trace) := by
    rw [hitems, t.renderItems_trace]
  refine ⟨?_, e', ?_, htext, ?_, himports, ?_⟩
  · rw [houtcome t ht, t.text_eq_layout]
  · rw [← hbody', show ((gen t).startDraft ask s).level + t.base = t.base from Nat.zero_add _]
  · rw [htext, t.linesText_eq_empty]
  · rw [houtcome t ht, hreports]

/-- Settings with tabs and a header, and without an entry function. -/
def tabbed : Settings :=
  { Settings.standard with indent := "\t", entryPoint := false, header := some "The door" }

/-- One list of lines, in the entry function and outside it. -/
theorem doorway_set_twice :
    let outcome (t : Settings) : Outcome :=
      (run unanswered ⟨.ofDocument doorway, t, .standard .standard, []⟩ ()).1
    tabbed.language = Settings.standard.language ∧
      ∃ imports lines,
        (outcome .standard).code = Settings.standard.layout imports lines ∧
        (outcome tabbed).code = tabbed.layout imports lines ∧
        (outcome .standard).code = "def main():\n    flag_flag = False\n    if flag_flag:\n" ++
          "        return\n    spare_spare = False\n\n\nif __name__ == \"__main__\":\n    main()\n" ∧
        (outcome tabbed).code = "# The door\n\nflag_flag = False\nif flag_flag:\n\treturn\n" ++
          "spare_spare = False\n" := by
  intro outcome
  obtain ⟨-, -, imports, lines, hlines⟩ :=
    settings_change_layout_only unanswered () doorway (.standard .standard) [] .standard tabbed rfl
  exact ⟨rfl, imports, lines, (hlines .standard (by simp)).1, (hlines tabbed (by simp)).1,
    by decide +kernel, by decide +kernel⟩

end Generator

end FlowScript
