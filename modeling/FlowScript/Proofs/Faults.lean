import FlowScript.Proofs.Lookups
import FlowScript.Proofs.Tables

/-!
# Faults are unreachable

A fault is a node that is not there, or an input that a node does not have. Rendering the graph of a
document goes through steps that name only nodes of the graph, whatever the patterns and the
conversions are, and on a node of the graph no step is a fault. So the text of a program is always
that of a finished body, no report is about an internal failure, and resolving the graph beforehand
looks at no place outside its tables.
-/

namespace FlowScript

open Relation (ReflTransGen)

namespace Job

variable {job : Job}

/-- The lines of a node of the graph are written without a fault. -/
theorem writeNode_ok {v : Nat} (hv : v < job.graph.size) (d : Draft) :
    job.writeNode d v = .ok (job.writeGuarded d v) := by
  obtain ⟨n, hn⟩ := FlowGraph.exists_node hv
  have houtput : ∃ e, job.writeOutput d v n = .ok e := by
    rw [writeOutput]
    split
    · exact ⟨_, rfl⟩
    · cases hinputs : n.inputs with
      | nil => exact ⟨_, rfl⟩
      | cons p ps => simp [argumentAt, hinputs]
  have hnode : ∃ e, job.writeNode d v = .ok e := by
    simp only [writeNode, node_eq_ok hn]
    split
    · exact ⟨_, rfl⟩
    · exact ⟨_, rfl⟩
    · split
      · exact ⟨_, rfl⟩
      · exact houtput
      · exact ⟨_, rfl⟩
  obtain ⟨e, hwrite⟩ := hnode
  rw [writeGuarded, hwrite]

/-- The steps of an emission that are no faults: all that they name are nodes of the graph, and the
lines of a node are written as they should be. -/
inductive Faultless (job : Job) : Draft → Draft → Prop where
  | enter {v d} : v < job.graph.size → (∀ u ∈ job.graph.dependencies v, u < job.graph.size) →
      Faultless job d (d.enter v)
  | lines {v d e} : v < job.graph.size → job.writeNode d v = .ok e → Faultless job d e
  /-- A node becomes a block, and the flow after it splits into regions. -/
  | shape {v d b e} : v < job.graph.size → job.block? d v = some (b, e) →
      (∀ r ∈ job.regions e b, ∀ u ∈ r, u < job.graph.size) →
      (∀ r ∈ job.regionNeeds e b, ∀ u ∈ r, u < job.graph.size) → Faultless job d e
  | header {v d b s t} : v < job.graph.size → job.block? s v = some (b, t) →
      Faultless job d (d.write (some v) b.header)
  | line {d text} : text = "pass" ∨ text = "else:" → Faultless job d (d.write none text)
  | openArm {v d arm} : v < job.graph.size → Faultless job d (d.openArm v arm)
  | closeArm {v d arm} : v < job.graph.size → Faultless job d (d.closeArm v arm)
  | hold {d held} : (∀ u ∈ held, u < job.graph.size) → Faultless job d (d.hold held)
  | letGo {d held} : (∀ u ∈ held, u < job.graph.size) → Faultless job d (d.letGo held)

variable {d e : Draft} {v : Nat}

/-- Work on nodes of the graph, with blocks that nodes of the graph have become. -/
def OnNodes (job : Job) : Task → Prop
  | .value v | .flow v => v < job.graph.size
  | .values vs | .flows vs => ∀ v ∈ vs, v < job.graph.size
  | .hoists _ needs _ => ∀ r ∈ needs, ∀ v ∈ r, v < job.graph.size
  | .arms owner xs => owner < job.graph.size ∧ ∀ x ∈ xs, ∀ v ∈ x.2, v < job.graph.size
  | .block owner b => owner < job.graph.size ∧ ∃ d e, job.block? d owner = some (b, e)

/-- A block of a node of the graph leads to nodes of the graph. -/
theorem block?_lt (hg : job.graph.WellFormed) {b : Block} (h : job.block? d v = some (b, e))
    {w : Nat} (hw : w ∈ b.rest ∨ ∃ x ∈ b.arms, w ∈ x.2) : w < job.graph.size :=
  (hg.leads_lt (FlowGraph.mem_successors.mp ((block?_targets h w).mpr hw))).2

/-- Entering a node of the graph is no fault. -/
theorem Faultless.enter_node (hg : job.graph.WellFormed) (hv : v < job.graph.size) (d : Draft) :
    Faultless job d (d.enter v) :=
  .enter hv ((spread_size hg).values v hv)

/-- The lines of a node of the graph are no fault. -/
theorem Faultless.guarded (hv : v < job.graph.size) (d : Draft) :
    Faultless job d (job.writeGuarded d v) :=
  .lines hv (writeNode_ok hv d)

/-- The lines of a node whose successors are left alone are no fault. -/
theorem Faultless.alone (hv : v < job.graph.size) (d : Draft) :
    ReflTransGen (Faultless job) d (job.writeAlone v d) := by
  have hlines := ReflTransGen.single (Faultless.guarded hv d)
  rw [writeAlone]
  split
  · exact ((hlines.tail (.openArm hv)).tail (.line (.inl rfl))).tail (.closeArm hv)
  · exact hlines

/-- The end of an arm is no fault. -/
theorem Faultless.endArm (hv : v < job.graph.size) (d : Draft) (arm : Arm) (e : Draft) :
    ReflTransGen (Faultless job) e (d.endArm v arm e) := by
  rw [Draft.endArm]
  split
  · exact (ReflTransGen.single (.line (.inl rfl))).tail (.closeArm hv)
  · exact .single (.closeArm hv)

/-- Announcing the next arm is no fault. -/
theorem Faultless.nextArm (d : Draft) (rest : List (Arm × List Nat)) :
    ReflTransGen (Faultless job) d (d.nextArm rest) := by
  rw [Draft.nextArm]
  split
  · exact .refl
  · exact .single (.line (.inr rfl))

/-- Work on nodes of the graph goes through steps that are no faults. -/
theorem Emits.faultless (hg : job.graph.WellFormed) {t : Task} (h : Emits job t d e)
    (ht : job.OnNodes t) : ReflTransGen (Faultless job) d e := by
  have hspread := spread_size hg
  induction h with
  | value_skip | values_nil | hoists_nil | flow_skip | flows_nil | arms_nil => exact .refl
  | @value_enter v d e _ _ ih =>
    have hread := ReflTransGen.head (.enter_node hg ht d) (ih (hspread.values v ht))
    exact hread.trans (Faultless.alone ht e)
  | values_cons _ _ ih ih' | flows_cons _ _ ih ih' =>
    exact (ih (ht _ List.mem_cons_self)).trans (ih' fun u hu => ht u (List.mem_cons_of_mem _ hu))
  | hoists_take hshared _ _ _ ih ih' =>
    obtain ⟨r, hr, hv⟩ := exists_of_shared hshared
    exact (ih (ht r hr _ hv)).trans (ih' ht)
  | hoists_leave _ _ ih => exact ih ht
  | @flow_plain v d e _ _ _ _ _ _ _ ihDeps ih =>
    have hread := ReflTransGen.head (.enter_node hg ht d) (ihDeps (hspread.values v ht))
    exact (hread.tail (.guarded ht e)).trans (ih (hspread.flow v ht (by simp)))
  | @flow_scope v d e _ _ _ _ _ _ _ ihDeps ih =>
    have hread := ReflTransGen.head (.enter_node hg ht d) (ihDeps (hspread.values v ht))
    refine (hread.tail (.guarded ht e)).trans (ih ⟨ht, fun x hx => ?_⟩)
    obtain rfl := List.mem_singleton.mp hx
    exact hspread.flow v ht (by simp)
  | @flow_block v d e b s f _ _ _ hblock _ ihDeps ih =>
    have hread := ReflTransGen.head (.enter_node hg ht d) (ihDeps (hspread.values v ht))
    have hlt := fun w (hw : w ∈ b.rest ∨ ∃ x ∈ b.arms, w ∈ x.2) => block?_lt hg hblock hw
    have hregions := fun r hr u hu => (hspread.regions (d := s) (by simp) hlt r hr u hu).1
    have hneeds := hspread.regionNeeds (d := s) (by simp) hlt
    exact (hread.tail (.shape ht hblock hregions hneeds)).trans (ih ⟨ht, e, s, hblock⟩)
  | @block owner b d e f h i _ _ _ _ ihHoists ihArms ihRest ihHeld =>
    obtain ⟨howner, s, t, hblock⟩ := ht
    have hlt := fun w (hw : w ∈ b.rest ∨ ∃ x ∈ b.arms, w ∈ x.2) => block?_lt hg hblock hw
    have hheld := hspread.held (d := d) (by simp) hlt
    have hhoists := ihHoists (hspread.regionNeeds (by simp) hlt)
    have harms := ihArms ⟨howner, fun x hx w hw => hlt w (.inr ⟨x, hx, hw⟩)⟩
    have hrest := ihRest fun w hw => hlt w (.inl hw)
    have hbefore := (hhoists.tail (.hold hheld)).tail (.header howner hblock)
    exact (((hbefore.trans harms).tail (.letGo hheld)).trans hrest).trans (ihHeld hheld)
  | @arms_cons owner arm targets rest d e f _ _ ihArm ihRest =>
    obtain ⟨howner, hxs⟩ := ht
    have harm := ReflTransGen.head (.openArm howner) (ihArm (hxs _ List.mem_cons_self))
    have hend := harm.trans (Faultless.endArm howner (d.openArm owner arm) arm e)
    have hrest := ihRest ⟨howner, fun x hx => hxs x (List.mem_cons_of_mem _ hx)⟩
    exact (hend.trans (Faultless.nextArm _ rest)).trans hrest

/-- The pieces of work of a body are work on nodes of the graph. -/
theorem bodyTasks_onNodes (hjob : job.WellFormed) : ∀ t ∈ job.bodyTasks, job.OnNodes t := by
  intro t ht
  have hof := bodyTasks_of hjob t ht
  rcases eq_of_mem_bodyTasks ht with ⟨vs, rfl⟩ | ⟨v, rfl⟩ | ⟨vs, rfl⟩
  · exact hof
  · exact hof
  · exact hof

/-- A body goes through steps that are no faults. -/
theorem Performs.faultless (hjob : job.WellFormed) (h : Performs job job.bodyTasks d e) :
    ReflTransGen (Faultless job) d e :=
  h.keeps (P := fun x => ReflTransGen (Faultless job) d x)
    (fun t ht _ _ hemits hd => hd.trans (hemits.faultless hjob.graph (bodyTasks_onNodes hjob t ht)))
    .refl

/-- A step that is no fault reports nothing but arguments. -/
theorem Faultless.notes (h : Faultless job d e) : d.NotesArguments e := by
  cases h with
  | lines _ hwrite => exact writeNode_notes hwrite
  | shape _ hblock => exact block?_notes hblock
  | enter | header | line | openArm | closeArm | hold | letGo => exact .of_eq rfl

/-- Steps that are no faults report nothing but arguments. -/
theorem Faultless.run_notes (h : ReflTransGen (Faultless job) d e) : d.NotesArguments e := by
  induction h with
  | refl => exact .of_eq rfl
  | tail _ hlast ih => exact ih.trans hlast.notes

/-- What is returned at the end of a body are values of nodes of the graph. -/
theorem Performs.deferred_lt (hjob : job.WellFormed) (h : Performs job job.bodyTasks d e)
    (hdeferred : d.deferred = []) (hentered : d.entered = []) :
    ∀ v ∈ e.deferred, v < job.graph.size := by
  have hin : e.deferred ⊆ e.entered :=
    keeps_of_step (S := fun _ => True) (P := fun x => x.deferred ⊆ x.entered)
      (h.steps fun _ _ => trivial) (fun _ _ hstep hx => hstep.deferred hx) (by simp [hdeferred])
  exact fun v hv => h.entered_lt hjob.graph (bodyTasks_of hjob) (by simp [hentered]) v (hin hv)

end Job

namespace Generator

variable {σ : Type} {ask : PatternSource σ}

/-- What is reported about the functions of some nodes is about lookups. -/
theorem foldl_fitNode_notes (language : String) (nodes : List Node) (r : Fitted σ)
    (h : ∀ x ∈ r.notes, x.kind.isAboutLookups = true) :
    ∀ x ∈ (nodes.foldl (fitNode ask language) r).notes, x.kind.isAboutLookups = true := by
  refine List.foldlRecOn nodes (fitNode ask language)
    (motive := fun t => ∀ x ∈ t.notes, x.kind.isAboutLookups = true) h fun t ht n _ => ?_
  rw [fitNode]
  split
  · exact ht
  · rename_i function _
    intro x hx
    rcases List.mem_append.mp hx with hx | hx
    · exact ht x hx
    · revert hx
      cases (lookup ask language function t.known t.source).1 with
      | found p => simp [fit]
      | notFound | failed f =>
        simp only [fit, List.mem_singleton]
        rintro rfl
        rfl

/-- Rendering starts with reports about lookups and cycles. -/
theorem startDraft_kind (ask : PatternSource σ) (gen : Generator) (s : σ) :
    ∀ r ∈ (gen.startDraft ask s).diagnostics,
      r.kind.isAboutLookups = true ∨ r.kind = .dependencyCycle := by
  intro r hr
  rcases List.mem_append.mp hr with hr | hr
  · exact .inl (foldl_fitNode_notes _ _ _ (by simp) r hr)
  · obtain ⟨c, -, rfl⟩ := List.mem_map.mp hr
    exact .inr rfl

/-- No fault arises for the graph of a document, whatever the source of patterns answers and whatever
the settings, the conversions and what is known from earlier calls are. Resolving the graph with
tables looks at no place outside them. The lines of each node of the graph are written without a
fault, from every draft. Rendering goes through steps that are no faults and name only nodes of the
graph, to values of nodes of the graph that are returned in the end. The text is that of the finished
program, and no report is about an internal failure. -/
theorem faults_are_unreachable (ask : PatternSource σ) (s : σ) (doc : Document)
    (settings : Settings) (conversions : Conversions) (known : List (String × Option Pattern)) :
    let gen : Generator := ⟨.ofDocument doc, settings, conversions, known⟩
    let g := gen.graph
    let job := gen.fittedJob ask s
    let outcome := (gen.run ask s).1
    g.resolve? = some ⟨g.adjacency, g.entryPoints, g.exitPoints, g.groups,
      tabulate g.size (FlowGraph.assignedTo g.groups), g.schedule⟩ ∧
    (∀ v < g.size, ∀ d, job.writeNode d v = .ok (job.writeGuarded d v)) ∧
    (∃ d, ReflTransGen (Job.Faultless job) (gen.startDraft ask s) d ∧
      (∀ v ∈ d.deferred, v < g.size) ∧
      gen.rendering ask s = .ok (job.closing d) ∧
      outcome = ⟨Program.text ⟨(job.closing d).imports, traceItems (job.closing d).trace⟩ settings,
        (job.closing d).diagnostics⟩) ∧
    ∀ r ∈ outcome.diagnostics, r.kind ≠ .internalGenerationFailure := by
  intro gen g job outcome
  have hg : g.WellFormed := FlowGraph.ofDocument_wellFormed doc
  have hjob : job.WellFormed := fittedJob_wellFormed ask hg s
  obtain ⟨d, hperforms, hrendering⟩ := rendering_performs ask hg s
  have houtcome : outcome = finish settings (.ok (job.closing d)) := by
    rw [← hrendering]
    exact run_eq_finish ask gen s
  have hfaultless := hperforms.faultless hjob
  refine ⟨hg.resolve?_eq, fun v hv d => Job.writeNode_ok hv d,
    ⟨d, hfaultless, hperforms.deferred_lt hjob rfl rfl, hrendering, houtcome⟩, ?_⟩
  intro r hr
  rw [houtcome] at hr
  obtain ⟨notes, hdiagnostics, hnotes⟩ :=
    (Job.Faultless.run_notes hfaultless).trans (Job.closing_notes job d)
  have hr : r ∈ (job.closing d).diagnostics := hr
  rw [hdiagnostics] at hr
  intro hinternal
  rcases List.mem_append.mp hr with hr | hr
  · rcases startDraft_kind ask gen s r hr with hkind | hkind
    · simp [hinternal, DiagnosticKind.isAboutLookups] at hkind
    · simp [hinternal] at hkind
  · have hkind := hnotes r hr
    simp [hinternal, DiagnosticKind.isAboutArguments] at hkind

end Generator

end FlowScript
