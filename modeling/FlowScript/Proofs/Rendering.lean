import FlowScript.Proofs.Body

/-!
# Rendering a graph

The program of a graph is rendered without a fault, and rendering enters every node of the graph
once. The walks that this is made of come to an end from every draft: what they give is what the
rules without a budget give. Each of them finds the level and the barriers again as it left them.
-/

namespace FlowScript

/-- The walks of an emission. -/
inductive Walk where
  /-- Follow the flow of execution from a node. -/
  | flow (v : Nat)
  /-- Enter a node that is reached through a data edge. -/
  | standalone (v : Nat)
  /-- Follow the flow to the targets of a branch. -/
  | branch (targets : List Nat)
  /-- Write a conditional and what follows it. -/
  | conditional (v : Nat)
  /-- Write a loop and what follows it. -/
  | loop (v : Nat)

/-- The nodes of a walk are among the first `size` positions. -/
def Walk.Within (size : Nat) : Walk → Prop
  | .flow v | .standalone v | .conditional v | .loop v => v < size
  | .branch targets => ∀ v ∈ targets, v < size

namespace Job

variable {job : Job} {d e : Draft}

/-- Write the block that a node has become; a node that has become none is left alone. -/
def walkShape (job : Job) (v : Nat) (shape : Option (Block × Draft)) (d : Draft) : Draft :=
  match shape with
  | some (b, e) => job.walkBlock (job.flow job.graph.size) v b e
  | none => d

/-- Take a walk. -/
def walk (job : Job) : Walk → Draft → Draft
  | .flow v, d => job.flow job.graph.size v d
  | .standalone v, d => job.standalone job.graph.size v d
  | .branch targets, d => walkArm (job.flow job.graph.size) targets d
  | .conditional v, d => job.walkShape v ((job.graph.node? v).bind (job.conditionalBlock? d v)) d
  | .loop v, d => job.walkShape v ((job.graph.node? v).bind (job.loopBlock? d v)) d

/-- The block that a node has become is written by the rules without a budget. -/
def WalksShape (job : Job) (v : Nat) (shape : Option (Block × Draft)) (d e : Draft) : Prop :=
  match shape with
  | some (b, s) => Emits job (.block v b) s e
  | none => e = d

/-- A walk comes to an end by the rules without a budget. -/
def Walks (job : Job) : Walk → Draft → Draft → Prop
  | .flow v, d, e => Emits job (.flow v) d e
  | .standalone v, d, e => Emits job (.value v) d e
  | .branch targets, d, e => ∃ f, Emits job (.flows targets) d f ∧
      e = if f.written = d.written then f.write none "pass" else f
  | .conditional v, d, e =>
      job.WalksShape v ((job.graph.node? v).bind (job.conditionalBlock? d v)) d e
  | .loop v, d, e => job.WalksShape v ((job.graph.node? v).bind (job.loopBlock? d v)) d e

/-- A shape that a node can take: it writes nothing, and leads to successors of the node. -/
structure Shapes (job : Job) (v : Nat) (d : Draft) (shape : Option (Block × Draft)) : Prop where
  alike : ∀ b e, shape = some (b, e) → Draft.Alike d e
  targets : ∀ b e, shape = some (b, e) →
    ∀ w, (w ∈ b.rest ∨ ∃ x ∈ b.arms, w ∈ x.2) → w ∈ job.graph.successors v

/-- The shape of a conditional. -/
theorem shapes_conditional (job : Job) (v : Nat) (d : Draft) :
    Shapes job v d ((job.graph.node? v).bind (job.conditionalBlock? d v)) where
  alike b e h := by
    obtain ⟨n, -, hblock⟩ := Option.bind_eq_some_iff.mp h
    exact conditionalBlock?_alike hblock
  targets b e h w hw := by
    obtain ⟨n, -, hblock⟩ := Option.bind_eq_some_iff.mp h
    exact (conditionalBlock?_targets hblock w).mpr hw

/-- The shape of a loop. -/
theorem shapes_loop (job : Job) (v : Nat) (d : Draft) :
    Shapes job v d ((job.graph.node? v).bind (job.loopBlock? d v)) where
  alike b e h := by
    obtain ⟨n, -, hblock⟩ := Option.bind_eq_some_iff.mp h
    exact loopBlock?_alike hblock
  targets b e h w hw := by
    obtain ⟨n, -, hblock⟩ := Option.bind_eq_some_iff.mp h
    exact (loopBlock?_targets hblock w).mpr hw

/-- Writing the block that a node has become comes to an end, in one way only. -/
theorem Shapes.walks_iff (hjob : job.WellFormed) {v : Nat} {shape : Option (Block × Draft)}
    (h : Shapes job v d shape) : job.WalksShape v shape d e ↔ e = job.walkShape v shape d := by
  cases shape with
  | none => exact Iff.rfl
  | some x =>
    obtain ⟨b, s⟩ := x
    have hwalk : Emits job (.block v b) s (job.walkBlock (job.flow job.graph.size) v b s) := by
      refine walkBlock_emits hjob v b (fun v hv d => flow_emits hjob _ hv) (fun w hw => ?_)
        (pending_le_size job s)
      exact (hjob.graph.leads_lt (FlowGraph.mem_successors.mp (h.targets b s rfl w hw))).2
    constructor
    · exact fun hemits => hemits.unique hwalk
    · intro he
      rw [he]
      exact hwalk

/-- Writing the block that a node has become extends the draft. -/
theorem Shapes.extends {v : Nat} {shape : Option (Block × Draft)} (h : Shapes job v d shape)
    (hwalks : job.WalksShape v shape d e) : Draft.Extends d e := by
  cases shape with
  | none =>
    obtain rfl : e = d := hwalks
    exact .refl e
  | some x =>
    have hemits : Emits job (.block v x.1) x.2 e := hwalks
    exact (h.alike x.1 x.2 rfl).extends.trans hemits.extends

/-- A walk comes to an end, in one way only, and its budget suffices for it. -/
theorem walks_iff (hjob : job.WellFormed) {w : Walk} (hw : w.Within job.graph.size) :
    job.Walks w d e ↔ e = job.walk w d := by
  have hpending := pending_le_size job d
  -- a result by the rules, and that there is only one
  have hiff {t : Task} {d f : Draft} (h : Emits job t d f) (e : Draft) :
      Emits job t d e ↔ e = f := by
    constructor
    · exact fun he => he.unique h
    · intro he
      rw [he]
      exact h
  cases w with
  | flow v => exact hiff (flow_emits hjob _ hw hpending) e
  | standalone v => exact hiff (standalone_emits hjob.graph _ hw hpending) e
  | branch targets =>
    have hflows := sweep_emits hjob targets hw d
    constructor
    · intro h
      obtain ⟨f, hf, rfl⟩ := h
      rw [hf.unique hflows]
      rfl
    · intro he
      exact ⟨_, hflows, he⟩
  | conditional v => exact (shapes_conditional job v d).walks_iff hjob
  | loop v => exact (shapes_loop job v d).walks_iff hjob

/-- A walk extends the draft. -/
theorem Walks.extends {w : Walk} (h : job.Walks w d e) : Draft.Extends d e := by
  cases w with
  | flow v => exact Emits.extends h
  | standalone v => exact Emits.extends h
  | branch targets =>
    obtain ⟨f, hf, rfl⟩ := h
    split
    · exact hf.extends.trans (Draft.write_extends f none _)
    · exact hf.extends
  | conditional v => exact (shapes_conditional job v d).extends h
  | loop v => exact (shapes_loop job v d).extends h

/-- The pieces of work of a body enter every node of the graph, unless some are held back. -/
theorem Performs.mem_entered (hjob : job.WellFormed) (h : Performs job job.bodyTasks d e)
    (hd : d.barriers = []) {v : Nat} (hv : v < job.graph.size) : v ∈ e.entered := by
  have horder : v ∈ job.order := hjob.mem_order.mpr hv
  cases hmode : job.mode with
  | execution =>
    rw [bodyTasks, hmode] at h
    obtain ⟨f, hentries, hlast⟩ := h.split
    cases hlast with
    | cons hflows hnil =>
      cases hnil
      exact hflows.flows_mem v horder (by simp [hentries.extends.barriers, hd])
  | dataFlow =>
    rw [bodyTasks, hmode] at h
    cases h with
    | cons _ hlast =>
      cases hlast with
      | cons hvalues hnil =>
        cases hnil
        exact hvalues.values_mem v horder

/-- From nothing, the pieces of work of a body enter exactly the nodes of the graph. -/
theorem Performs.mem_entered_iff (hjob : job.WellFormed) (h : Performs job job.bodyTasks d e)
    (hbarriers : d.barriers = []) (hentered : d.entered = []) {v : Nat} :
    v ∈ e.entered ↔ v < job.graph.size :=
  ⟨h.entered_lt hjob.graph (bodyTasks_of hjob) (by simp [hentered]) v,
    h.mem_entered hjob hbarriers⟩

end Job

namespace Generator

variable {σ : Type}

/-- The job of a generator with the answers of a source. -/
def fittedJob (ask : PatternSource σ) (gen : Generator) (s : σ) : Job :=
  gen.job gen.graph.schedule (gen.fitAll ask s).fittings

/-- The draft that rendering starts from. -/
def startDraft (ask : PatternSource σ) (gen : Generator) (s : σ) : Draft :=
  Draft.start ((gen.fitAll ask s).notes ++ gen.graph.cycleReports gen.graph.schedule)

/-- The body of the program, as the answers of a source make it. -/
def rendering (ask : PatternSource σ) (gen : Generator) (s : σ) : Except (Fault × Draft) Draft :=
  (gen.fittedJob ask s).body (gen.startDraft ask s)

/-- A program is the text of what rendering gives. -/
theorem run_eq_finish (ask : PatternSource σ) (gen : Generator) (s : σ) :
    (gen.run ask s).1 = finish gen.settings (gen.rendering ask s) :=
  rfl

/-- A trace that rendering leaves. -/
theorem exists_rendering {ask : PatternSource σ} {gen : Generator} {s : σ} {trace : List Event}
    (h : (gen.rendering ask s).toOption.map Draft.trace = some trace) :
    ∃ d, gen.rendering ask s = .ok d ∧ d.trace = trace := by
  cases hrendering : gen.rendering ask s with
  | error x => simp [hrendering, Except.toOption] at h
  | ok d => exact ⟨d, rfl, by simpa [hrendering, Except.toOption] using h⟩

/-- The job of a graph is well formed. -/
theorem fittedJob_wellFormed (ask : PatternSource σ) {gen : Generator} (hg : gen.graph.WellFormed)
    (s : σ) : (gen.fittedJob ask s).WellFormed :=
  ⟨hg, hg.order_perm⟩

/-- Rendering does the pieces of work of its body, without a fault. -/
theorem rendering_performs (ask : PatternSource σ) {gen : Generator} (hg : gen.graph.WellFormed)
    (s : σ) : ∃ e, Job.Performs (gen.fittedJob ask s) (gen.fittedJob ask s).bodyTasks
        (gen.startDraft ask s) e ∧ gen.rendering ask s = .ok ((gen.fittedJob ask s).closing e) :=
  Job.body_performs (fittedJob_wellFormed ask hg s) _ (List.nil_subset _)
    (by simp [startDraft, Draft.start])

/-- Rendering comes to an end without a fault and enters each node of the graph once. Whatever walk
is taken from whatever draft comes to an end, leaves the barriers and the level as they were, only
adds to the nodes that have been entered, and has entered a node that it followed the flow to. -/
theorem rendering_enters_each_node_once (ask : PatternSource σ) (s : σ) (doc : Document)
    (settings : Settings) (conversions : Conversions) (known : List (String × Option Pattern)) :
    let gen : Generator := ⟨.ofDocument doc, settings, conversions, known⟩
    let job := gen.fittedJob ask s
    (∃ d, Job.Performs job job.bodyTasks (gen.startDraft ask s) d ∧
      gen.rendering ask s = .ok (job.closing d) ∧
      (entries (job.closing d).trace).Perm gen.graph.positions ∧
      ∀ v, v ∈ (job.closing d).entered ↔ v < gen.graph.size) ∧
    ∀ w : Walk, w.Within gen.graph.size → ∀ d : Draft,
      (∀ e, job.Walks w d e ↔ e = job.walk w d) ∧
      (job.walk w d).barriers = d.barriers ∧
      (job.walk w d).level = d.level ∧
      d.entered <+: (job.walk w d).entered ∧
      ∀ v, w = .flow v → v ∉ d.barriers → v ∈ (job.walk w d).entered := by
  intro gen job
  have hg : gen.graph.WellFormed := FlowGraph.ofDocument_wellFormed doc
  have hjob : job.WellFormed := fittedJob_wellFormed ask hg s
  constructor
  · obtain ⟨d, hperforms, hrendering⟩ := rendering_performs ask hg s
    have hentered (v : Nat) : v ∈ (job.closing d).entered ↔ v < gen.graph.size := by
      rw [Job.closing_entered]
      exact hperforms.mem_entered_iff hjob rfl rfl
    refine ⟨d, hperforms, hrendering, ?_, hentered⟩
    obtain ⟨new, hnew, hnodup, -, hentries⟩ :=
      (hperforms.extends.trans (Job.closing_extends job d)).entered
    have hnew : (job.closing d).entered = new := hnew
    have hentries : entries (job.closing d).trace = new := hentries
    have hpositions : gen.graph.positions.Nodup := List.nodup_range
    rw [hentries, List.perm_ext_iff_of_nodup hnodup hpositions]
    intro v
    rw [← hnew, hentered, FlowGraph.mem_positions]
  · intro w hw d
    have hwalks : job.Walks w d (job.walk w d) := (Job.walks_iff hjob hw).mpr rfl
    have hextends := hwalks.extends
    refine ⟨fun e => Job.walks_iff hjob hw, hextends.barriers, hextends.level, ?_, ?_⟩
    · obtain ⟨new, hentered, -⟩ := hextends.entered
      exact ⟨new, hentered.symm⟩
    · intro v hv hfree
      subst hv
      exact Job.Emits.flow_mem hwalks hfree

end Generator

end FlowScript
