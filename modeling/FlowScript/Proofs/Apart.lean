import FlowScript.Proofs.Frame
import FlowScript.Proofs.Listings
import FlowScript.Proofs.Names
import Mathlib.Data.List.GetD

/-!
# Programs of graphs in two parts

The text of a program is its body between texts that only the settings and the imports decide. The
body of a graph in two parts, the first of which has a flow of execution, is the body of the first
part with two texts of the second put in: one after the flows from the entry points of the first
part, and one at the end.
-/

namespace FlowScript

section Texts

/-- The text that a trace writes into a program; in the entry function it is one level deeper. -/
def Settings.traceText (settings : Settings) (trace : List Event) : String :=
  renderItems settings.indent
    ((traceItems trace).map (Item.shift (if settings.entryPoint then 1 else 0)))

/-- A program with a body: the header, the imports and, in the entry function if there is one, the
text of the body. An entry function without a body passes. -/
def Settings.programText (settings : Settings) (imports : List String) (body : String) : String :=
  let unit := settings.indent
  renderItems unit (Program.headerItems settings.header ++ Program.importItems imports) ++
    if settings.entryPoint then
      renderItems unit [.line 0 ("def " ++ settings.entryFunction ++ "():")] ++
        (if body = "" then renderItems unit [.line 1 "pass"] else body) ++
        renderItems unit [.blank, .blank, .line 0 "if __name__ == \"__main__\":",
          .line 1 (settings.entryFunction ++ "()")]
    else body

theorem Settings.traceText_append (settings : Settings) (t u : List Event) :
    settings.traceText (t ++ u) = settings.traceText t ++ settings.traceText u := by
  rw [traceText, traceItems, List.filterMap_append, List.map_append, renderItems_append]
  rfl

/-- A trace that goes on writes more text. -/
theorem Settings.traceText_of_longer (settings : Settings) {t u : List Event} (h : t <+: u) :
    ∃ text, settings.traceText u = settings.traceText t ++ text := by
  obtain ⟨new, rfl⟩ := h
  exact ⟨_, settings.traceText_append t new⟩

/-- Drafts that go on to agree write the same text. -/
theorem Draft.Mirrors.text {size : Nat} {d₁ d e₁ e : Draft}
    (h : Draft.Mirrors size d₁.trace d.trace e₁ e) (settings : Settings) :
    ∃ text, settings.traceText e₁.trace = settings.traceText d₁.trace ++ text ∧
      settings.traceText e.trace = settings.traceText d.trace ++ text := by
  obtain ⟨new, htrace₁, htrace⟩ := h.trace
  exact ⟨settings.traceText new, by rw [htrace₁, settings.traceText_append],
    by rw [htrace, settings.traceText_append]⟩

/-- Only a trace without lines writes no text. -/
theorem Settings.traceText_eq_empty (settings : Settings) (trace : List Event) :
    settings.traceText trace = "" ↔ traceItems trace = [] := by
  rw [traceText, renderItems_eq_empty
    (Item.verbatim_not_mem_shift (verbatim_not_mem_traceItems trace) _), List.map_eq_nil_iff]

/-- The text of a program is decided by its settings, its imports and the text of its body. -/
theorem Program.text_eq_programText (settings : Settings) (imports : List String)
    (trace : List Event) : Program.text ⟨imports, traceItems trace⟩ settings =
      settings.programText imports (settings.traceText trace) := by
  rw [Program.text_eq_renderItems (verbatim_not_mem_traceItems trace), Program.items,
    renderItems_append, Settings.programText]
  refine congrArg (renderItems settings.indent _ ++ ·) ?_
  by_cases hentry : settings.entryPoint = true
  · rw [if_pos hentry, if_pos hentry, Program.entryItems, ← List.singleton_append,
      renderItems_append, renderItems_append]
    refine congrArg (renderItems settings.indent _ ++ · ++ renderItems settings.indent _) ?_
    rw [Program.functionItems]
    by_cases hitems : traceItems trace = []
    · rw [if_pos ((settings.traceText_eq_empty trace).mpr hitems), hitems]
      rfl
    · rw [if_neg fun hempty => hitems ((settings.traceText_eq_empty trace).mp hempty),
        if_neg (by simpa using hitems), Settings.traceText, if_pos hentry]
  · rw [if_neg hentry, if_neg hentry, Settings.traceText, if_neg hentry,
      Item.map_shift_zero]

end Texts

/-- The names of the nodes that come first do not depend on those after them. -/
theorem Naming.assign_append (nodes more : List Node) :
    ∃ names, Naming.assign (nodes ++ more) = Naming.assign nodes ++ names := by
  have hfirst := assign_take (nodes ++ more) nodes.length
  rw [List.take_left] at hfirst
  exact ⟨_, hfirst ▸ (List.take_append_drop nodes.length _).symm⟩

namespace Job

variable {job₁ job : Job} {d e : Draft}

/-- Following the flow from some entry points writes a text. -/
def EntriesWrite (job : Job) (settings : Settings) (entries : List Nat) (d : Draft) (text : String)
    (e : Draft) : Prop :=
  entries.foldlM (job.walkEntry job.graph.groups) d = .ok e ∧
    settings.traceText e.trace = settings.traceText d.trace ++ text

/-- Following the flow to some nodes, whether it has been there or not, writes a text. -/
def SweepWrites (job : Job) (settings : Settings) (vs : List Nat) (d : Draft) (text : String)
    (e : Draft) : Prop :=
  walkAll (job.flow job.graph.size) vs d = e ∧
    settings.traceText e.trace = settings.traceText d.trace ++ text

namespace IsPart

/-- The work for an entry point of the part is the same in the whole graph. -/
theorem entryTasks_eq (hpart : IsPart job₁ job) (hports : job₁.graph.anyExecutionPorts = true)
    {entry : Nat} (hentry : entry ∈ job₁.graph.entryPoints) :
    job.entryTasks entry = job₁.entryTasks entry := by
  have hg₁ := hpart.wellFormed.graph
  have hmembers : job.entryMembers entry = job₁.entryMembers entry := by
    rw [entryMembers, hpart.graph.find?_groups hg₁ hports hentry, entryMembers]
  have hplain : ∀ v ∈ job₁.entryMembers entry, job.isPlainInput v = job₁.isPlainInput v := by
    intro v hv
    rw [isPlainInput, hpart.graph.node?_eq (entryMembers_lt hg₁ entry v hv), isPlainInput]
  rw [entryTasks, hmembers, List.filter_congr hplain, entryTasks]

/-- The group of an entry point outside the part lies outside it. -/
theorem entryMembers_outside (hpart : IsPart job₁ job) {entry : Nat}
    (hentry : job₁.graph.size ≤ entry) : ∀ v ∈ job.entryMembers entry, job₁.graph.size ≤ v := by
  intro v hv
  rw [entryMembers] at hv
  cases hgroup : job.graph.groups.find? (·.members.contains entry) with
  | none =>
    rw [hgroup] at hv
    exact absurd hv List.not_mem_nil
  | some group =>
    rw [hgroup] at hv
    have hin : entry ∈ group.members := by simpa using List.find?_some hgroup
    exact hpart.graph.le_of_group (List.mem_of_find?_eq_some hgroup) hin hentry v hv

section Phases

variable {d₁ : Draft} (hpart : IsPart job₁ job) (hjob : job.WellFormed)
  (h : Draft.Mirrors job₁.graph.size d₁.trace d.trace d₁ d) (settings : Settings)

include hpart hjob h

/-- The flows from the entry points of the part write the same text in the whole graph. -/
theorem entries_write (hports : job₁.graph.anyExecutionPorts = true) :
    ∃ text e₁ e, job₁.EntriesWrite settings job₁.graph.entryPoints d₁ text e₁ ∧
      job.EntriesWrite settings job₁.graph.entryPoints d text e ∧
      Draft.Mirrors job₁.graph.size e₁.trace e.trace e₁ e := by
  have hlt : ∀ v ∈ job₁.graph.entryPoints, v < job.graph.size := fun v hv =>
    Nat.lt_of_lt_of_le (FlowGraph.entryPoints_lt hv) hpart.graph.size_le
  have htasks : job₁.graph.entryPoints.flatMap job.entryTasks =
      job₁.graph.entryPoints.flatMap job₁.entryTasks :=
    List.flatMap_congr fun v hv => hpart.entryTasks_eq hports hv
  obtain ⟨e₁, hfold₁, hperforms₁⟩ := walkEntries_performs hpart.wellFormed job₁.graph.entryPoints
    (fun v => FlowGraph.entryPoints_lt) d₁
  obtain ⟨e, hfold, hperforms⟩ := walkEntries_performs hjob job₁.graph.entryPoints hlt d
  have hinside : ∀ t ∈ job₁.graph.entryPoints.flatMap job₁.entryTasks,
      t.Of (· < job₁.graph.size) (· < job₁.graph.size) :=
    entryTasks_of_members (fun entry _ => entryMembers_lt hpart.wellFormed.graph entry)
      fun _ => FlowGraph.entryPoints_lt
  obtain ⟨f, hmirrored, hmirrors⟩ := hperforms₁.mirrored hpart hinside h
  rw [← htasks] at hmirrored
  obtain rfl := hmirrored.unique hperforms
  obtain ⟨text, htext₁, htext⟩ := hmirrors.text settings
  exact ⟨text, e₁, f, ⟨hfold₁, htext₁⟩, ⟨hfold, htext⟩, hmirrors.restart⟩

/-- The flows from other entry points leave the agreement about the part alone. -/
theorem others_write {others : List Nat} (hothers : ∀ v ∈ others, job₁.graph.size ≤ v)
    (hlt : ∀ v ∈ others, v < job.graph.size) :
    ∃ text e, job.EntriesWrite settings others d text e ∧
      Draft.Mirrors job₁.graph.size d₁.trace e.trace d₁ e := by
  obtain ⟨e, hfold, hperforms⟩ := walkEntries_performs hjob others hlt d
  have houtside : ∀ t ∈ others.flatMap job.entryTasks,
      t.Of (job₁.graph.size ≤ ·) (job₁.graph.size ≤ ·) :=
    entryTasks_of_members (fun v hv => hpart.entryMembers_outside (hothers v hv)) hothers
  obtain ⟨p₁, p, hmirrors⟩ := hperforms.mirrors_outside hpart houtside h
  obtain ⟨text, htext⟩ := settings.traceText_of_longer hperforms.extends.trace
  exact ⟨text, e, ⟨hfold, htext⟩, hmirrors.restart⟩

/-- The sweep over the nodes of the part writes the same text in the whole graph. -/
theorem sweep_writes :
    ∃ text, job₁.SweepWrites settings job₁.order d₁ text
        (walkAll (job₁.flow job₁.graph.size) job₁.order d₁) ∧
      job.SweepWrites settings job₁.order d text
        (walkAll (job.flow job.graph.size) job₁.order d) := by
  have hinside : ∀ v ∈ job₁.order, v < job₁.graph.size := fun v => hpart.wellFormed.mem_order.mp
  have hlt : ∀ v ∈ job₁.order, v < job.graph.size := fun v hv =>
    Nat.lt_of_lt_of_le (hinside v hv) hpart.graph.size_le
  have hemits₁ := sweep_emits hpart.wellFormed job₁.order hinside d₁
  obtain ⟨e, hemits, hmirrors⟩ := hemits₁.mirrored hpart hinside h
  obtain rfl := hemits.unique (sweep_emits hjob job₁.order hlt d)
  obtain ⟨text, htext₁, htext⟩ := hmirrors.text settings
  exact ⟨text, ⟨rfl, htext₁⟩, rfl, htext⟩

/-- The body of the whole graph is the body of the part with two texts put in. -/
theorem executionBody_writes (hports : job₁.graph.anyExecutionPorts = true) {others more : List Nat}
    (hentries : job.graph.entryPoints = job₁.graph.entryPoints ++ others)
    (hothers : ∀ v ∈ others, job₁.graph.size ≤ v) (horder : job.order = job₁.order ++ more) :
    ∃ (a b c c' : String) (m₁ e₁ x y z e : Draft),
      (job₁.EntriesWrite settings job₁.graph.entryPoints d₁ a m₁ ∧
        job₁.SweepWrites settings job₁.order m₁ b e₁) ∧
      (job.EntriesWrite settings job₁.graph.entryPoints d a x ∧
        job.EntriesWrite settings others x c y ∧
        job.SweepWrites settings job₁.order y b z ∧ job.SweepWrites settings more z c' e) ∧
      job₁.executionBody d₁ = .ok e₁ ∧ job.executionBody d = .ok e := by
  have hlt : ∀ v ∈ others, v < job.graph.size := fun v hv =>
    FlowGraph.entryPoints_lt (hentries ▸ List.mem_append_right _ hv)
  have hmore : ∀ v ∈ more, v < job.graph.size := fun v hv =>
    hjob.mem_order.mp (horder ▸ List.mem_append_right _ hv)
  obtain ⟨a, m₁, x, hm₁, hx, hmirrors⟩ := hpart.entries_write hjob h settings hports
  obtain ⟨c, y, hy, hmirrors⟩ := hpart.others_write hjob hmirrors settings hothers hlt
  obtain ⟨b, hb₁, hb⟩ := hpart.sweep_writes hjob hmirrors settings
  obtain ⟨c', hc'⟩ := settings.traceText_of_longer (sweep_emits hjob more hmore
    (walkAll (job.flow job.graph.size) job₁.order y)).extends.trace
  refine ⟨a, b, c, c', m₁, _, x, y, _, _, ⟨hm₁, hb₁⟩, ⟨hx, hy, hb, rfl, hc'⟩, ?_, ?_⟩
  · rw [executionBody, hm₁.1]
    rfl
  · have hwalked : job.graph.entryPoints.foldlM (job.walkEntry job.graph.groups) d = .ok y := by
      rw [hentries, List.foldlM_append, hx.1]
      exact hy.1
    have hswept : walkAll (job.flow job.graph.size) job.order y =
        walkAll (job.flow job.graph.size) more (walkAll (job.flow job.graph.size) job₁.order y) := by
      rw [horder]
      exact List.foldl_append
    rw [executionBody, hwalked, ← hswept]
    rfl

end Phases

end IsPart

end Job

namespace Generator

variable {σ : Type}

/-- A graph with a flow of execution has nodes with ports for it, and an entry point. -/
theorem mode_eq_execution {g : FlowGraph} :
    mode g = .execution ↔ g.anyExecutionPorts = true ∧ g.entryPoints ≠ [] := by
  rw [mode]
  split
  · rename_i h
    simpa using h
  · rename_i h
    simpa using h

/-- What is known about the first nodes does not depend on those after them. -/
theorem fitAll_append (ask : PatternSource σ) (s : σ) (settings : Settings)
    (conversions : Conversions) (known : List (String × Option Pattern)) {g g₁ : FlowGraph}
    {more : List Node} (hnodes : g.nodes = g₁.nodes ++ more) :
    ∃ fittings, (fitAll ask ⟨g, settings, conversions, known⟩ s).fittings =
      (fitAll ask ⟨g₁, settings, conversions, known⟩ s).fittings ++ fittings := by
  obtain ⟨fittings, hfittings, -⟩ := foldl_fitNode_fittings ask settings.language more
    (fitAll ask ⟨g₁, settings, conversions, known⟩ s)
  refine ⟨fittings, ?_⟩
  rw [← hfittings, fitAll, hnodes, List.foldl_append]
  rfl

/-- Something is known about every node. -/
theorem lt_length_fittings (ask : PatternSource σ) (gen : Generator) (s : σ) {v : Nat}
    (hv : v < gen.graph.size) : v < (gen.fitAll ask s).fittings.length := by
  obtain ⟨n, hn⟩ := FlowGraph.exists_node hv
  obtain ⟨fittings, hfittings, hall⟩ :=
    foldl_fitNode_fittings ask gen.settings.language gen.graph.nodes ⟨[], [], gen.known, s⟩
  obtain ⟨x, hx, -⟩ := hall v n hn
  rw [fitAll, hfittings]
  exact (List.getElem?_eq_some_iff.mp hx).1

/-- The job of a graph is part of the job of a graph that has it as its first part. -/
theorem fittedJob_isPart (ask : PatternSource σ) (s : σ) (settings : Settings)
    (conversions : Conversions) (known : List (String × Option Pattern)) {g g₁ g₂ : FlowGraph}
    (hunion : g.IsUnion g₁ g₂) (hg₁ : g₁.WellFormed) (hg₂ : g₂.WellFormed)
    (hmode : mode g₁ = .execution) :
    Job.IsPart (fittedJob ask ⟨g₁, settings, conversions, known⟩ s)
      (fittedJob ask ⟨g, settings, conversions, known⟩ s) where
  wellFormed := fittedJob_wellFormed ask hg₁ s
  graph := hunion.isPart hg₁
  order := by
    refine ⟨g₂.schedule.order.map (· + g₁.size), ?_, fun v hv => ?_⟩
    · change g.schedule.order = _
      rw [hunion.schedule_eq hg₁ hg₂]
      rfl
    · obtain ⟨u, -, rfl⟩ := List.mem_map.mp hv
      exact Nat.le_add_left _ _
  names v hv := by
    obtain ⟨names, hnames⟩ := Naming.assign_append g₁.nodes g₂.nodes
    have hlt : v < (Naming.assign g₁.nodes).length := (Naming.length_assign _).symm ▸ hv
    funext n
    change (Naming.assign g.nodes).getD v _ = (Naming.assign g₁.nodes).getD v _
    rw [hunion.nodes, hnames, List.getD_append _ _ _ _ hlt]
  fittings v hv := by
    obtain ⟨fittings, hfittings⟩ := fitAll_append ask s settings conversions known hunion.nodes
    have hlt := lt_length_fittings ask ⟨g₁, settings, conversions, known⟩ s hv
    change (fitAll ask ⟨g, settings, conversions, known⟩ s).fittings.getD v _ = _
    rw [hfittings, List.getD_append _ _ _ _ hlt]
    rfl
  conversions := rfl
  mode := by
    obtain ⟨hports, hentries⟩ := mode_eq_execution.mp hmode
    obtain ⟨others, hothers, -⟩ := (hunion.isPart hg₁).entryPoints_eq hports
    have hsome : g.entryPoints ≠ [] := by
      rw [hothers]
      exact fun hnil => hentries (List.append_eq_nil_iff.mp hnil).1
    exact (mode_eq_execution.mpr ⟨(hunion.isPart hg₁).anyExecutionPorts hports, hsome⟩).trans hmode.symm

/-- Where there is a flow of execution, rendering follows it. -/
theorem rendering_eq_executionBody (ask : PatternSource σ) (gen : Generator) (s : σ)
    (hmode : (gen.fittedJob ask s).mode = .execution) :
    gen.rendering ask s = (gen.fittedJob ask s).executionBody (gen.startDraft ask s) := by
  rw [rendering, Job.body, hmode]

/-- The text of a program whose body is known. -/
theorem code_of_rendering {ask : PatternSource σ} {gen : Generator} {s : σ} {d : Draft}
    (h : gen.rendering ask s = .ok d) : (gen.run ask s).1.code =
      gen.settings.programText d.imports (gen.settings.traceText d.trace) := by
  rw [run_eq_finish, h]
  exact Program.text_eq_programText gen.settings d.imports d.trace

/-- Parts of a document that no edge connects do not disturb each other. Let the nodes of the first
part come first and have a flow of execution. Then the schedule is that of the first part and, after
it, that of the second. There are texts `a`, `b`, `c` and `d` such that the body of the first part
alone is `a` and `b`, and the body of the whole is `a`, `c`, `b` and `d`: the flows from the entry
points of the parts write `a` and `c`, and the sweeps over their nodes `b` and `d`. -/
theorem separate_parts_do_not_disturb (ask : PatternSource σ) (s : σ) (settings : Settings)
    (conversions : Conversions) (known : List (String × Option Pattern))
    {doc doc₁ doc₂ : Document} (hunion : doc.IsUnion doc₁ doc₂)
    (hmode : mode (.ofDocument doc₁) = .execution) :
    let gen₁ : Generator := ⟨.ofDocument doc₁, settings, conversions, known⟩
    let gen : Generator := ⟨.ofDocument doc, settings, conversions, known⟩
    let job₁ := gen₁.fittedJob ask s
    let job := gen.fittedJob ask s
    let shifted := (FlowGraph.ofDocument doc₂).schedule.order.map (· + gen₁.graph.size)
    gen.graph.schedule.order = gen₁.graph.schedule.order ++ shifted ∧
    ∃ others, gen.graph.entryPoints = gen₁.graph.entryPoints ++ others ∧
      (∀ v ∈ others, gen₁.graph.size ≤ v) ∧
    ∃ (a b c d : String) (m₁ e₁ x y z e : Draft),
      job₁.EntriesWrite settings gen₁.graph.entryPoints (gen₁.startDraft ask s) a m₁ ∧
      job₁.SweepWrites settings gen₁.graph.schedule.order m₁ b e₁ ∧
      job.EntriesWrite settings gen₁.graph.entryPoints (gen.startDraft ask s) a x ∧
      job.EntriesWrite settings others x c y ∧
      job.SweepWrites settings gen₁.graph.schedule.order y b z ∧
      job.SweepWrites settings shifted z d e ∧
      gen₁.rendering ask s = .ok e₁ ∧ gen.rendering ask s = .ok e ∧
      settings.traceText e₁.trace = a ++ b ∧ settings.traceText e.trace = a ++ c ++ b ++ d ∧
      (gen₁.run ask s).1.code = settings.programText e₁.imports (a ++ b) ∧
      (gen.run ask s).1.code = settings.programText e.imports (a ++ c ++ b ++ d) := by
  intro gen₁ gen job₁ job shifted
  have hg₁ := FlowGraph.ofDocument_wellFormed doc₁
  have hg₂ := FlowGraph.ofDocument_wellFormed doc₂
  have hjob : job.WellFormed := fittedJob_wellFormed ask (FlowGraph.ofDocument_wellFormed doc) s
  have hpart : Job.IsPart job₁ job :=
    fittedJob_isPart ask s settings conversions known hunion.graph hg₁ hg₂ hmode
  have hports := (mode_eq_execution.mp hmode).1
  have horder : job.order = job₁.order ++ shifted :=
    congrArg Schedule.order (hunion.graph.schedule_eq hg₁ hg₂)
  obtain ⟨others, hentries, hothers⟩ := hpart.graph.entryPoints_eq hports
  have hstart : Draft.Mirrors job₁.graph.size (gen₁.startDraft ask s).trace
      (gen.startDraft ask s).trace (gen₁.startDraft ask s) (gen.startDraft ask s) :=
    ⟨rfl, fun _ _ => Iff.rfl, fun _ _ => Iff.rfl, fun _ _ _ => rfl, [], rfl, rfl⟩
  obtain ⟨a, b, c, d, m₁, e₁, x, y, z, e, ⟨hm₁, he₁⟩, ⟨hx, hy, hz, he⟩, hbody₁, hbody⟩ :=
    hpart.executionBody_writes hjob hstart settings hports hentries hothers horder
  have hrendering₁ : gen₁.rendering ask s = .ok e₁ :=
    (rendering_eq_executionBody ask gen₁ s hmode).trans hbody₁
  have hrendering : gen.rendering ask s = .ok e :=
    (rendering_eq_executionBody ask gen s (hpart.mode.trans hmode)).trans hbody
  have htext₁ : settings.traceText e₁.trace = a ++ b := by
    rw [he₁.2, hm₁.2]
    exact congrArg (· ++ b) String.empty_append
  have htext : settings.traceText e.trace = a ++ c ++ b ++ d := by
    rw [he.2, hz.2, hy.2, hx.2]
    exact congrArg (· ++ c ++ b ++ d) String.empty_append
  refine ⟨horder, others, hentries, hothers, a, b, c, d, m₁, e₁, x, y, z, e, hm₁, he₁, hx, hy, hz,
    he, hrendering₁, hrendering, htext₁, htext, ?_, ?_⟩
  · rw [code_of_rendering hrendering₁, htext₁]
  · rw [code_of_rendering hrendering, htext]

/-- A conditional that reads an input, and an input that nothing reads. -/
def doorway : Document where
  nodes :=
    [⟨"flag", "flag", none, some .input, [], [⟨"out", "out", "bool", false, none⟩], none, [], [],
        none, none⟩,
      ⟨"check", "check", none, some .conditional, [⟨"cond", "cond", "bool", false, none⟩], [],
        some true, [], [], none, none⟩,
      ⟨"yes", "yes", none, some .output, [], [], some true, [], [], none, none⟩,
      ⟨"spare", "spare", none, some .input, [], [⟨"out", "out", "bool", false, none⟩], none, [], [],
        none, none⟩]
  edges :=
    [⟨"condition", "flag", "check", some "out", some "cond", none⟩,
      ⟨"then", "check", "yes", none, none, some ⟨some .execution, some "then"⟩⟩]

/-- A loop that reads an input, and an input that nothing reads. -/
def bell : Document where
  nodes :=
    [⟨"tone", "flag", none, some .input, [], [⟨"out", "out", "str", false, none⟩], none, [], [],
        none, none⟩,
      ⟨"ring", "ring", none, some .loop, [⟨"items", "items", "list", false, none⟩], [], some true,
        [], [], none, none⟩,
      ⟨"again", "spare", none, some .input, [], [⟨"out", "out", "bool", false, none⟩], none, [], [],
        none, none⟩]
  edges := [⟨"items", "tone", "ring", some "out", some "items", none⟩]

/-- Both, with the edge of the second between the edges of the first. -/
def doorwayAndBell : Document where
  nodes := doorway.nodes ++ bell.nodes
  edges :=
    [⟨"condition", "flag", "check", some "out", some "cond", none⟩,
      ⟨"items", "tone", "ring", some "out", some "items", none⟩,
      ⟨"then", "check", "yes", none, none, some ⟨some .execution, some "then"⟩⟩]

/-- The loop stands after the conditional, and the inputs that nothing reads come last. -/
theorem bell_does_not_disturb_doorway :
    let ask : PatternSource Unit := fun s _ _ => (.notFound, s)
    let gen₁ := Generator.new (.ofDocument doorway) .standard
    let gen := Generator.new (.ofDocument doorwayAndBell) .standard
    (doorwayAndBell.IsUnion doorway bell ∧ mode (.ofDocument doorway) = .execution) ∧
    ∃ (a b c d : String) (e₁ e : Draft),
      gen₁.rendering ask () = .ok e₁ ∧ gen.rendering ask () = .ok e ∧
      Settings.standard.traceText e₁.trace = a ++ b ∧
      Settings.standard.traceText e.trace = a ++ c ++ b ++ d ∧
      a ++ b = "    flag_flag = False\n    if flag_flag:\n        return\n" ++
        "    spare_spare = False\n" ∧
      a ++ c ++ b ++ d = "    flag_flag = False\n    if flag_flag:\n        return\n" ++
        "    flag_tone = \"\"\n    for ring_ring_item in flag_tone:\n        pass\n" ++
        "    spare_spare = False\n" ++ "    spare_again = False\n" := by
  intro ask gen₁ gen
  have hunion : doorwayAndBell.IsUnion doorway bell :=
    ⟨rfl, .left (.right (.left .nil)), by decide, by decide, by decide⟩
  have hmode : mode (.ofDocument doorway) = .execution := by decide
  obtain ⟨-, _, -, -, a, b, c, d, _, e₁, _, _, _, e, -, -, -, -, -, -, he₁, he, htext₁, htext, -⟩ :=
    separate_parts_do_not_disturb ask () .standard (.standard .standard) [] hunion hmode
  have hbody {g : Generator} {f : Draft} {text : String} (hf : g.rendering ask () = .ok f)
      (hmap : (g.rendering ask ()).toOption.map (fun f => Settings.standard.traceText f.trace) =
        some text) : Settings.standard.traceText f.trace = text := by
    rw [hf] at hmap
    exact Option.some.inj hmap
  exact ⟨⟨hunion, hmode⟩, a, b, c, d, e₁, e, he₁, he, htext₁, htext,
    htext₁.symm.trans (hbody he₁ (by decide +kernel)),
    htext.symm.trans (hbody he (by decide +kernel))⟩

end Generator

end FlowScript
