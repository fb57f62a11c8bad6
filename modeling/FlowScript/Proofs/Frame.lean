import FlowScript.Proofs.Parts
import FlowScript.Proofs.TypeReports

/-!
# Work on one part of a graph

Work on the nodes of one part of a graph does in the whole graph what it does in the part alone: two
drafts that agree about the nodes of the part go on to agree, and the same steps are added to both
traces. Work on the other nodes leaves the agreement alone: it enters none of the nodes of the part,
and binds none of their values.
-/

namespace FlowScript

namespace Draft

variable {size : Nat} {p₁ p : List Event} {d₁ d e₁ e : Draft}

/-- Two drafts agree about the nodes below `size`, and the same steps have been added to the traces
`p₁` and `p`. -/
structure Mirrors (size : Nat) (p₁ p : List Event) (d₁ d : Draft) : Prop where
  level : d.level = d₁.level
  entered : ∀ v < size, v ∈ d.entered ↔ v ∈ d₁.entered
  barriers : ∀ v < size, v ∈ d.barriers ↔ v ∈ d₁.barriers
  values : ∀ v < size, ∀ port, d.value? v port = d₁.value? v port
  trace : ∃ new, d₁.trace = p₁ ++ new ∧ d.trace = p ++ new

namespace Mirrors

/-- The same steps are added to both traces. -/
theorem log (h : Mirrors size p₁ p d₁ d) (own : List Event) :
    ∃ new, d₁.trace ++ own = p₁ ++ new ∧ d.trace ++ own = p ++ new := by
  obtain ⟨new, htrace₁, htrace⟩ := h.trace
  exact ⟨new ++ own, by rw [htrace₁, List.append_assoc], by rw [htrace, List.append_assoc]⟩

/-- An agreement can be counted from the traces as they are. -/
theorem restart (h : Mirrors size p₁ p d₁ d) : Mirrors size d₁.trace d.trace d₁ d :=
  ⟨h.level, h.entered, h.barriers, h.values, [], (List.append_nil _).symm, (List.append_nil _).symm⟩

theorem enter (h : Mirrors size p₁ p d₁ d) (v : Nat) :
    Mirrors size p₁ p (d₁.enter v) (d.enter v) where
  level := h.level
  entered u hu := by rw [mem_enter, mem_enter, h.entered u hu]
  barriers := h.barriers
  values := h.values
  trace := h.log _

theorem write (h : Mirrors size p₁ p d₁ d) (origin : Option Nat) (text : String) :
    Mirrors size p₁ p (d₁.write origin text) (d.write origin text) where
  level := h.level
  entered := h.entered
  barriers := h.barriers
  values := h.values
  trace := by
    rw [Draft.write, Draft.write, h.level]
    exact h.log _

theorem writeLines (h : Mirrors size p₁ p d₁ d) (origin : Option Nat) (text : String) :
    Mirrors size p₁ p (d₁.writeLines origin text) (d.writeLines origin text) where
  level := h.level
  entered := h.entered
  barriers := h.barriers
  values := h.values
  trace := by
    rw [Draft.writeLines, Draft.writeLines, h.level]
    exact h.log _

theorem openArm (h : Mirrors size p₁ p d₁ d) (owner : Nat) (arm : Arm) :
    Mirrors size p₁ p (d₁.openArm owner arm) (d.openArm owner arm) where
  level := congrArg (· + 1) h.level
  entered := h.entered
  barriers := h.barriers
  values := h.values
  trace := h.log _

theorem closeArm (h : Mirrors size p₁ p d₁ d) (owner : Nat) (arm : Arm) :
    Mirrors size p₁ p (d₁.closeArm owner arm) (d.closeArm owner arm) where
  level := congrArg (· - 1) h.level
  entered := h.entered
  barriers := h.barriers
  values := h.values
  trace := h.log _

theorem bindOutputs (h : Mirrors size p₁ p d₁ d) (v : Nat) (ports : List String) (text : String) :
    Mirrors size p₁ p (d₁.bindOutputs v ports text) (d.bindOutputs v ports text) where
  level := h.level
  entered := h.entered
  barriers := h.barriers
  values u hu port := by
    have hbefore := h.values u hu port
    rw [value?, value?] at hbefore
    rw [value?, value?, Draft.bindOutputs, Draft.bindOutputs, List.lookup_append, List.lookup_append,
      hbefore]
  trace := h.trace

/-- Reports are not compared, nor are imports and what is returned in the end. -/
theorem report (h : Mirrors size p₁ p d₁ d) (notes₁ notes : List Diagnostic) :
    Mirrors size p₁ p (d₁.report notes₁) (d.report notes) :=
  ⟨h.level, h.entered, h.barriers, h.values, h.trace⟩

theorem require (h : Mirrors size p₁ p d₁ d) (lines : List String) :
    Mirrors size p₁ p (d₁.require lines) (d.require lines) :=
  ⟨h.level, h.entered, h.barriers, h.values, h.trace⟩

theorem defer (h : Mirrors size p₁ p d₁ d) (v : Nat) :
    Mirrors size p₁ p (d₁.defer v) (d.defer v) :=
  ⟨h.level, h.entered, h.barriers, h.values, h.trace⟩

theorem hold (h : Mirrors size p₁ p d₁ d) (held : List Nat) :
    Mirrors size p₁ p (d₁.hold held) (d.hold held) where
  level := h.level
  entered := h.entered
  barriers v hv := by simp [Draft.hold, h.barriers v hv]
  values := h.values
  trace := h.trace

theorem letGo (h : Mirrors size p₁ p d₁ d) (held : List Nat) :
    Mirrors size p₁ p (d₁.letGo held) (d.letGo held) where
  level := h.level
  entered := h.entered
  barriers v hv := by simp [Draft.letGo, h.barriers v hv]
  values := h.values
  trace := h.trace

/-- Lines have been written since an earlier state of one draft if they have been since the state of
the other. -/
theorem written_iff (h : Mirrors size p₁ p d₁ d) (h' : Mirrors size p₁ p e₁ e) :
    e.written = d.written ↔ e₁.written = d₁.written := by
  obtain ⟨new, htrace₁, htrace⟩ := h.trace
  obtain ⟨new', htrace₁', htrace'⟩ := h'.trace
  simp only [written_eq, traceItems, htrace₁, htrace, htrace₁', htrace', List.filterMap_append,
    List.length_append]
  omega

theorem endArm (h : Mirrors size p₁ p d₁ d) (h' : Mirrors size p₁ p e₁ e) (owner : Nat) (arm : Arm) :
    Mirrors size p₁ p (d₁.endArm owner arm e₁) (d.endArm owner arm e) := by
  rw [Draft.endArm, Draft.endArm]
  refine Mirrors.closeArm ?_ owner arm
  simp only [h.written_iff h']
  split
  · exact h'.write none _
  · exact h'

theorem nextArm (h : Mirrors size p₁ p d₁ d) (rest : List (Arm × List Nat)) :
    Mirrors size p₁ p (d₁.nextArm rest) (d.nextArm rest) := by
  rw [Draft.nextArm, Draft.nextArm]
  split
  · exact h
  · exact h.write none _

end Mirrors

end Draft

namespace Job

variable {job₁ job : Job} {p₁ p : List Event} {d₁ d e₁ e : Draft} {v : Nat} {n : Node}

/-- A job is the first part of another one: its graph is, its order comes first, and it says the same
about its nodes. -/
structure IsPart (job₁ job : Job) : Prop where
  wellFormed : job₁.WellFormed
  graph : job₁.graph.IsPart job.graph
  order : ∃ more, job.order = job₁.order ++ more ∧ ∀ v ∈ more, job₁.graph.size ≤ v
  names : ∀ v < job₁.graph.size, job.nameOf v = job₁.nameOf v
  fittings : ∀ v < job₁.graph.size, job.fitting v = job₁.fitting v
  conversions : job.conversions = job₁.conversions
  mode : job.mode = job₁.mode

namespace IsPart

theorem opensScope_eq (hpart : IsPart job₁ job) (hv : v < job₁.graph.size) :
    job.opensScope v = job₁.opensScope v := by
  rw [opensScope, hpart.fittings v hv, opensScope]

section Statements

variable (hpart : IsPart job₁ job) (h : Draft.Mirrors job₁.graph.size p₁ p d₁ d)
  (hv : v < job₁.graph.size)

include hpart h

theorem boundArgument_eq {b : Binding} (hb : b.source < job₁.graph.size) (q : Port) :
    job.boundArgument d n q b = job₁.boundArgument d₁ n q b := by
  have hnode := hpart.graph.node?_eq hb
  have hsource : job.sourceText d b = job₁.sourceText d₁ b := by
    rw [sourceText, hnode, hpart.names _ hb, h.values _ hb, sourceText]
  simp only [boundArgument, hsource, hpart.conversions, FlowGraph.outputType, FlowGraph.idAt, hnode]

include hv

theorem argument_eq (q : Port) : job.argument d v n q = job₁.argument d₁ v n q := by
  rw [argument, argument, hpart.graph.binding?_eq hv]
  cases hbinding : job₁.graph.binding? v q.id with
  | none => rfl
  | some b =>
    obtain ⟨e, he, -, -, -, rfl⟩ := FlowGraph.exists_edge_of_binding? hbinding
    exact hpart.boundArgument_eq h (hpart.wellFormed.graph.sources e he) q

theorem loopVariable_eq (q : Port) : job.loopVariable d v n q = job₁.loopVariable d₁ v n q := by
  rw [loopVariable, loopVariable, hpart.graph.binding?_eq hv]
  cases hbinding : job₁.graph.binding? v q.id with
  | none =>
    dsimp only
    rw [itemName, hpart.names v hv, itemName]
  | some b =>
    obtain ⟨e, he, -, -, -, rfl⟩ := FlowGraph.exists_edge_of_binding? hbinding
    exact hpart.boundArgument_eq h (hpart.wellFormed.graph.sources e he) q

theorem writeFilled (kind : PatternKind) (text : String) :
    Draft.Mirrors job₁.graph.size p₁ p (job₁.writeFilled d₁ v n kind text)
      (job.writeFilled d v n kind text) := by
  cases kind with
  | expression =>
    simp only [Job.writeFilled, hpart.names v hv]
    exact (h.writeLines _ _).bindOutputs _ _ _
  | statement =>
    change Draft.Mirrors _ _ _ (List.foldl _ d₁ _) (List.foldl _ d _)
    generalize ((Text.lines text).map Text.trim).filter _ = lines
    induction lines generalizing d₁ d with
    | nil => exact h
    | cons l lines ih => exact ih (h.write _ _)
  | block => exact h.writeLines _ _

theorem writePattern (q : Pattern) :
    Draft.Mirrors job₁.graph.size p₁ p (job₁.writePattern d₁ v n q) (job.writePattern d v n q) := by
  have harguments : n.inputs.map (job.argument d v n) = n.inputs.map (job₁.argument d₁ v n) :=
    List.map_congr_left fun q _ => hpart.argument_eq h hv q
  simp only [Job.writePattern, harguments]
  exact hpart.writeFilled (((h.report _ _).report _ _).require _) hv _ _

/-- A node of the part writes the same lines. -/
theorem writeGuarded :
    Draft.Mirrors job₁.graph.size p₁ p (job₁.writeGuarded d₁ v) (job.writeGuarded d v) := by
  obtain ⟨n, hn⟩ := FlowGraph.exists_node hv
  have hn' : job.graph.node? v = some n := (hpart.graph.node?_eq hv).trans hn
  simp only [Job.writeGuarded, writeNode, node_eq_ok hn, node_eq_ok hn', hpart.fittings v hv]
  cases job₁.fitting v with
  | pattern q => exact hpart.writePattern h hv q
  | missing function => exact h.write _ _
  | absent =>
    cases n.kind with
    | input =>
      simp only [writeInput, hpart.names v hv]
      exact (h.write _ _).bindOutputs _ _ _
    | output =>
      simp only [writeOutput, hpart.mode]
      cases job₁.mode with
      | dataFlow => exact h.defer v
      | execution =>
        cases hinputs : n.inputs with
        | nil =>
          simp only [List.isEmpty_nil, if_true]
          exact h.write _ _
        | cons q inputs =>
          simp only [argumentAt, hinputs, List.getElem?_cons_zero, hpart.argument_eq h hv,
            List.isEmpty_cons, Bool.false_eq_true, if_false]
          exact (h.report _ _).write _ _
    | plain | conditional | loop | start | finish =>
      exact h

theorem writeAlone :
    Draft.Mirrors job₁.graph.size p₁ p (job₁.writeAlone v d₁) (job.writeAlone v d) := by
  have hwritten := hpart.writeGuarded h hv
  simp only [Job.writeAlone, hpart.opensScope_eq hv]
  split
  · exact ((hwritten.openArm _ _).write _ _).closeArm _ _
  · exact hwritten

theorem loopHead?_eq : job.loopHead? d v n = job₁.loopHead? d₁ v n := by
  simp only [loopHead?, itemName, hpart.names v hv, hpart.argument_eq h hv,
    hpart.loopVariable_eq h hv]

/-- A node of the part that becomes no block. -/
theorem block?_eq_none (hnone : job₁.block? d₁ v = none) : job.block? d v = none := by
  rw [block?, hpart.graph.node?_eq hv]
  rw [block?] at hnone
  cases hn : job₁.graph.node? v with
  | none => rfl
  | some n =>
    rw [hn, Option.bind_some] at hnone
    rw [Option.bind_some]
    cases hkind : n.kind with
    | conditional =>
      simp only [hkind, conditionalBlock?, Option.map_eq_none_iff] at hnone ⊢
      exact hnone
    | loop =>
      simp only [hkind, loopBlock?, Option.map_eq_none_iff, hpart.loopHead?_eq h hv] at hnone ⊢
      exact hnone
    | plain | input | output | start | finish => rfl

/-- A node of the part becomes the same block. -/
theorem block?_eq_some {b : Block} {s₁ : Draft} (hsome : job₁.block? d₁ v = some (b, s₁)) :
    ∃ s, job.block? d v = some (b, s) ∧ Draft.Mirrors job₁.graph.size p₁ p s₁ s := by
  have htargets := hpart.graph.branchTargets_eq hv
  have hunclaimed (claimed : List Nat) : job.unclaimed v claimed = job₁.unclaimed v claimed := by
    rw [unclaimed, hpart.graph.successors_eq hv, unclaimed]
  rw [block?, hpart.graph.node?_eq hv]
  obtain ⟨n, hn, ⟨hkind, hblock⟩ | ⟨hkind, hblock⟩⟩ := Job.block?_eq_some hsome
  · obtain ⟨q, hq, hb⟩ := Option.map_eq_some_iff.mp hblock
    obtain ⟨rfl, rfl⟩ := Prod.mk.inj hb
    refine ⟨d.report (job₁.argument d₁ v n q).notes, ?_, h.report _ _⟩
    simp only [hn, hkind, Option.bind_some, conditionalBlock?, hq, Option.map_some,
      hpart.argument_eq h hv, htargets, hunclaimed]
  · obtain ⟨⟨name, collection⟩, hhead, hb⟩ := Option.map_eq_some_iff.mp hblock
    obtain ⟨rfl, rfl⟩ := Prod.mk.inj hb
    refine ⟨_, ?_, (h.report (name.notes ++ collection.notes) (name.notes ++ collection.notes)).bindOutputs
      v (n.outputs.map (·.id)) name.text⟩
    simp only [hn, hkind, Option.bind_some, loopBlock?, hpart.loopHead?_eq h hv, hhead, Option.map_some,
      htargets, hunclaimed]

end Statements

/-- Regions of the part share no other node. -/
theorem not_shared_of_le {size u : Nat} {regions : List (List Nat)}
    (hlt : ∀ r ∈ regions, ∀ w ∈ r, w < size) (hu : size ≤ u) : shared regions u = false := by
  rw [← Bool.not_eq_true]
  intro hshared
  obtain ⟨r, hr, hur⟩ := exists_of_shared hshared
  exact absurd (hlt r hr u hur) (Nat.not_lt.mpr hu)

/-- The regions of a block of the part lie in the part. -/
theorem regions_lt (hpart : IsPart job₁ job) {b : Block}
    (hb : ∀ v, (v ∈ b.rest ∨ ∃ x ∈ b.arms, v ∈ x.2) → v < job₁.graph.size) :
    ∀ r ∈ job₁.regions d₁ b, ∀ u ∈ r, u < job₁.graph.size := fun r hr u hu =>
  ((spread_size hpart.wellFormed.graph).regions (by simp) hb r hr u hu).1

section Regions

variable (hpart : IsPart job₁ job) (h : Draft.Mirrors job₁.graph.size p₁ p d₁ d)

include hpart h

theorem flowRegion_eq {targets : List Nat} (htargets : ∀ w ∈ targets, w < job₁.graph.size) :
    job.flowRegion d targets = job₁.flowRegion d₁ targets := by
  refine hpart.graph.reach_eq (fun u hu => hpart.graph.successors_eq hu)
    (fun u _ w hw => (hpart.wellFormed.graph.leads_lt (FlowGraph.mem_successors.mp hw)).2)
    (fun u hu => ?_) htargets
  simp [h.entered u hu, h.barriers u hu]

theorem dataNeeds_eq {region : List Nat} (hregion : ∀ u ∈ region, u < job₁.graph.size) :
    job.dataNeeds d region = job₁.dataNeeds d₁ region := by
  have hg := hpart.wellFormed.graph
  have hstarts : region.flatMap job.graph.dependencies = region.flatMap job₁.graph.dependencies :=
    List.flatMap_congr fun u hu => hpart.graph.dependencies_eq (hregion u hu)
  rw [dataNeeds, hstarts]
  refine hpart.graph.reach_eq (fun u hu => hpart.graph.dependencies_eq hu)
    (fun u _ w hw => (hg.feeds_lt (FlowGraph.mem_dependencies.mp hw)).1) (fun u hu => ?_)
    fun u hu => ?_
  · simp [h.entered u hu, hpart.graph.isDataOnly_eq hu]
  · obtain ⟨w, -, hw⟩ := List.mem_flatMap.mp hu
    exact (hg.feeds_lt (FlowGraph.mem_dependencies.mp hw)).1

theorem hoistable_eq (owner : Nat) (hv : v < job₁.graph.size) :
    job.hoistable d owner v = job₁.hoistable d₁ owner v := by
  have hg := hpart.wellFormed.graph
  have hclosed (u : Nat) : ∀ w ∈ job₁.graph.dependencies u, w < job₁.graph.size :=
    fun w hw => (hg.feeds_lt (FlowGraph.mem_dependencies.mp hw)).1
  let admitted (u : Nat) := u != owner && !d₁.entered.contains u && job₁.graph.isDataOnly u
  have hpending : reach job.graph.size job.graph.dependencies
      (fun u => u != owner && !d.entered.contains u && job.graph.isDataOnly u)
      (job₁.graph.dependencies v) =
        reach job₁.graph.size job₁.graph.dependencies admitted (job₁.graph.dependencies v) := by
    refine hpart.graph.reach_eq (fun u hu => hpart.graph.dependencies_eq hu) (fun u _ => hclosed u)
      (fun u hu => ?_) (hclosed v)
    simp [admitted, h.entered u hu, hpart.graph.isDataOnly_eq hu]
  have hfound : ∀ u ∈ reach job₁.graph.size job₁.graph.dependencies admitted
      (job₁.graph.dependencies v), u < job₁.graph.size :=
    reachFrom_sound _ _ [] (fun u _ w hw _ => hclosed u w hw) (fun u hu _ => hclosed v u hu) (by simp)
  have hlt : ∀ u ∈ v :: reach job₁.graph.size job₁.graph.dependencies admitted
      (job₁.graph.dependencies v), u < job₁.graph.size := by
    simpa using ⟨hv, hfound⟩
  rw [hoistable, hpart.graph.dependencies_eq hv, hpending, hoistable, Bool.eq_iff_iff,
    List.all_eq_true, List.all_eq_true]
  refine forall₂_congr fun u hu => ?_
  rw [hpart.graph.dependencies_eq (hlt u hu), List.all_eq_true, List.all_eq_true]
  refine forall₂_congr fun w hw => ?_
  simp [h.entered w (hclosed u w hw), hpart.graph.isDataOnly_eq (hclosed u w hw)]

section Blocks

variable {b : Block} (hb : ∀ v, (v ∈ b.rest ∨ ∃ x ∈ b.arms, v ∈ x.2) → v < job₁.graph.size)

include hb

theorem regionsOfArms_eq : (b.arms.map Prod.snd).map (job.flowRegion d) =
    (b.arms.map Prod.snd).map (job₁.flowRegion d₁) := by
  refine List.map_congr_left fun targets htargets => ?_
  obtain ⟨x, hx, rfl⟩ := List.mem_map.mp htargets
  exact hpart.flowRegion_eq h fun w hw => hb w (.inr ⟨x, hx, hw⟩)

theorem regionOfRest_eq : job.flowRegion d b.rest = job₁.flowRegion d₁ b.rest :=
  hpart.flowRegion_eq h fun w hw => hb w (.inl hw)

/-- No node outside the part is in a region, so the regions meet where they do in the part. -/
theorem joins_eq : job.joins d b = job₁.joins d₁ b := by
  have hregions : job.regions d b = job₁.regions d₁ b := by
    rw [regions, hpart.regionsOfArms_eq h hb, hpart.regionOfRest_eq h hb, regions]
  obtain ⟨more, horder, hmore⟩ := hpart.order
  have hnone : more.filter (shared (job₁.regions d₁ b)) = [] := by
    refine List.filter_eq_nil_iff.mpr fun u hu => ?_
    rw [not_shared_of_le (hpart.regions_lt hb) (hmore u hu)]
    exact Bool.false_ne_true
  rw [joins, hregions, horder, List.filter_append, hnone, List.append_nil, joins]

theorem held_eq : job.held d b = job₁.held d₁ b := by
  rw [held, hpart.joins_eq h hb, held]
  refine List.filter_congr fun u hu => ?_
  obtain ⟨r, hr, hur⟩ := exists_of_mem_joins hu
  simp [h.barriers u (hpart.regions_lt hb r hr u hur)]

theorem regionNeeds_eq : job.regionNeeds d b = job₁.regionNeeds d₁ b := by
  rw [regionNeeds, hpart.regionsOfArms_eq h hb, hpart.regionOfRest_eq h hb, hpart.joins_eq h hb,
    regionNeeds]
  refine List.map_congr_left fun r hr => hpart.dataNeeds_eq h fun u hu => ?_
  obtain ⟨t, ht, hut⟩ := exists_of_mem_walked hr hu
  exact hpart.regions_lt hb t ht u hut

end Blocks

end Regions

end IsPart

/-- Values that regions share, one list of nodes after the other. -/
theorem Emits.hoists_append {owner : Nat} {needs : List (List Nat)} {vs ws : List Nat} {f : Draft}
    (hfirst : Emits job (.hoists owner needs vs) d e) (hrest : Emits job (.hoists owner needs ws) e f) :
    Emits job (.hoists owner needs (vs ++ ws)) d f := by
  induction vs generalizing d with
  | nil =>
    cases hfirst
    exact hrest
  | cons v vs ih =>
    cases hfirst with
    | hoists_take hshared hhoistable hvalue hvs =>
      exact .hoists_take hshared hhoistable hvalue (ih hvs)
    | hoists_leave hleave hvs => exact .hoists_leave hleave (ih hvs)

/-- Nodes that the regions do not share are left. -/
theorem Emits.hoists_none {owner : Nat} {needs : List (List Nat)} {vs : List Nat}
    (hvs : ∀ v ∈ vs, shared needs v = false) : Emits job (.hoists owner needs vs) d d := by
  induction vs with
  | nil => exact .hoists_nil
  | cons v vs ih =>
    refine .hoists_leave ?_ (ih fun u hu => hvs u (List.mem_cons_of_mem _ hu))
    simp [hvs v List.mem_cons_self]

/-- Work on the part does the same in the whole graph. -/
theorem Emits.mirrored {t : Task} (hpart : IsPart job₁ job) (hemits : Emits job₁ t d₁ e₁)
    (ht : t.Of (· < job₁.graph.size) (· < job₁.graph.size))
    (h : Draft.Mirrors job₁.graph.size p₁ p d₁ d) :
    ∃ e, Emits job t d e ∧ Draft.Mirrors job₁.graph.size p₁ p e₁ e := by
  have hg := hpart.wellFormed.graph
  have hspread := spread_size hg
  -- a node of the part is entered after all that it reads
  have hread {d₁ e₁ d : Draft} {v : Nat} (hv : v < job₁.graph.size)
      (ih : (∀ u ∈ job₁.graph.dependencies v, u < job₁.graph.size) →
        Draft.Mirrors job₁.graph.size p₁ p (d₁.enter v) (d.enter v) →
        ∃ e, Emits job (.values (job₁.graph.dependencies v)) (d.enter v) e ∧
          Draft.Mirrors job₁.graph.size p₁ p e₁ e)
      (h : Draft.Mirrors job₁.graph.size p₁ p d₁ d) :
      ∃ e, Emits job (.values (job.graph.dependencies v)) (d.enter v) e ∧
        Draft.Mirrors job₁.graph.size p₁ p e₁ e := by
    rw [hpart.graph.dependencies_eq hv]
    exact ih (hspread.values v hv) (h.enter v)
  induction hemits generalizing d with
  | value_skip hin => exact ⟨d, .value_skip ((h.entered _ ht).mpr hin), h⟩
  | value_enter hnew _ ih =>
    obtain ⟨e, hdeps, he⟩ := hread ht ih h
    exact ⟨_, .value_enter (mt (h.entered _ ht).mp hnew) hdeps, hpart.writeAlone he ht⟩
  | values_nil => exact ⟨d, .values_nil, h⟩
  | values_cons _ _ ih ih' =>
    obtain ⟨e, hfirst, he⟩ := ih (ht _ List.mem_cons_self) h
    obtain ⟨f, hrest, hf⟩ := ih' (fun u hu => ht u (List.mem_cons_of_mem _ hu)) he
    exact ⟨f, .values_cons hfirst hrest, hf⟩
  | hoists_nil => exact ⟨d, .hoists_nil, h⟩
  | hoists_take hshared hhoistable _ _ ih ih' =>
    obtain ⟨r, hr, hv⟩ := exists_of_shared hshared
    obtain ⟨e, hfirst, he⟩ := ih (ht r hr _ hv) h
    obtain ⟨f, hrest, hf⟩ := ih' ht he
    refine ⟨f, .hoists_take hshared ?_ hfirst hrest, hf⟩
    rwa [hpart.hoistable_eq h _ (ht r hr _ hv)]
  | @hoists_leave owner needs v vs d₁ e₁ hleave _ ih =>
    obtain ⟨e, hrest, he⟩ := ih ht h
    refine ⟨e, .hoists_leave (fun htake => hleave ?_) hrest, he⟩
    obtain ⟨hshared, hhoistable⟩ := Bool.and_eq_true_iff.mp htake
    obtain ⟨r, hr, hv⟩ := exists_of_shared hshared
    rw [hshared, ← hpart.hoistable_eq h owner (ht r hr v hv), hhoistable]
    rfl
  | flow_skip hmet => exact ⟨d, .flow_skip (hmet.imp (h.barriers _ ht).mpr (h.entered _ ht).mpr), h⟩
  | @flow_plain v _ _ _ hfree hnew _ hnone hscope _ ihDeps ih =>
    obtain ⟨e, hdeps, he⟩ := hread ht ihDeps h
    obtain ⟨f, hflows, hf⟩ := ih (hspread.flow v ht (by simp)) (hpart.writeGuarded he ht)
    refine ⟨f, .flow_plain (mt (h.barriers _ ht).mp hfree) (mt (h.entered _ ht).mp hnew) hdeps
      (hpart.block?_eq_none he ht hnone) ((hpart.opensScope_eq ht).trans hscope) ?_, hf⟩
    rwa [hpart.graph.successors_eq ht]
  | @flow_scope v _ _ _ hfree hnew _ hnone hscope _ ihDeps ih =>
    obtain ⟨e, hdeps, he⟩ := hread ht ihDeps h
    have harms : (Task.arms v [(.scope, job₁.graph.successors v)]).Of (· < job₁.graph.size)
        (· < job₁.graph.size) := by
      intro x hx
      obtain rfl := List.mem_singleton.mp hx
      exact hspread.flow v ht (by simp)
    obtain ⟨f, hflows, hf⟩ := ih harms (hpart.writeGuarded he ht)
    refine ⟨f, .flow_scope (mt (h.barriers _ ht).mp hfree) (mt (h.entered _ ht).mp hnew) hdeps
      (hpart.block?_eq_none he ht hnone) ((hpart.opensScope_eq ht).trans hscope) ?_, hf⟩
    rwa [hpart.graph.successors_eq ht]
  | @flow_block v _ _ b _ _ hfree hnew _ hblock _ ihDeps ih =>
    obtain ⟨e, hdeps, he⟩ := hread ht ihDeps h
    obtain ⟨s, hblock', hs⟩ := hpart.block?_eq_some he ht hblock
    obtain ⟨f, hwalk, hf⟩ := ih
      (fun w hw => hspread.flow v ht (by simp) w ((block?_targets hblock w).mpr hw)) hs
    exact ⟨f, .flow_block (mt (h.barriers _ ht).mp hfree) (mt (h.entered _ ht).mp hnew) hdeps
      hblock' hwalk, hf⟩
  | @block owner b d₁ _ _ _ _ _ _ _ _ ihHoists ihArms ihRest ihHeld =>
    have hheld := hpart.held_eq h ht
    have hneeds := hpart.regionNeeds_eq h ht
    obtain ⟨more, horder, hmore⟩ := hpart.order
    have hneedsLt := hspread.regionNeeds (d := d₁) (by simp) ht
    obtain ⟨e, hhoists, he⟩ := ihHoists hneedsLt h
    obtain ⟨f, harms, hf⟩ := ihArms (fun x hx v hv => ht v (.inr ⟨x, hx, hv⟩))
      ((he.hold (job₁.held d₁ b)).write (some owner) b.header)
    obtain ⟨k, hrest, hk⟩ := ihRest (fun v hv => ht v (.inl hv)) (hf.letGo (job₁.held d₁ b))
    obtain ⟨i, hlast, hi⟩ := ihHeld (hspread.held (by simp) ht) hk
    -- the nodes of the other part come last in the order, and no region reads them
    have hothers : Emits job (.hoists owner (job₁.regionNeeds d₁ b) more) e e :=
      .hoists_none fun v hv => IsPart.not_shared_of_le hneedsLt (hmore v hv)
    have hall := hhoists.hoists_append hothers
    rw [← hneeds, ← horder] at hall
    rw [← hheld] at harms hrest hlast
    exact ⟨i, .block hall harms hrest hlast, hi⟩
  | flows_nil => exact ⟨d, .flows_nil, h⟩
  | flows_cons _ _ ih ih' =>
    obtain ⟨e, hfirst, he⟩ := ih (ht _ List.mem_cons_self) h
    obtain ⟨f, hrest, hf⟩ := ih' (fun u hu => ht u (List.mem_cons_of_mem _ hu)) he
    exact ⟨f, .flows_cons hfirst hrest, hf⟩
  | arms_nil => exact ⟨d, .arms_nil, h⟩
  | @arms_cons owner arm targets rest _ _ _ _ _ ihArm ihRest =>
    have hopen := h.openArm owner arm
    obtain ⟨e, harm, he⟩ := ihArm (ht _ List.mem_cons_self) hopen
    obtain ⟨f, hrest, hf⟩ := ihRest (fun x hx => ht x (List.mem_cons_of_mem _ hx))
      ((hopen.endArm he owner arm).nextArm rest)
    exact ⟨f, .arms_cons harm hrest, hf⟩

/-- Pieces of work on the part do the same in the whole graph. -/
theorem Performs.mirrored {ts : List Task} (hpart : IsPart job₁ job) (hperforms : Performs job₁ ts d₁ e₁)
    (hts : ∀ t ∈ ts, t.Of (· < job₁.graph.size) (· < job₁.graph.size))
    (h : Draft.Mirrors job₁.graph.size p₁ p d₁ d) :
    ∃ e, Performs job ts d e ∧ Draft.Mirrors job₁.graph.size p₁ p e₁ e := by
  induction hperforms generalizing d with
  | nil => exact ⟨d, .nil, h⟩
  | cons hfirst _ ih =>
    obtain ⟨e, hemits, he⟩ := hfirst.mirrored hpart (hts _ List.mem_cons_self) h
    obtain ⟨f, hrest, hf⟩ := ih (fun t ht => hts t (List.mem_cons_of_mem _ ht)) he
    exact ⟨f, .cons hemits hrest, hf⟩

/-- What a step about another node leaves alone: the expressions that hold the values of a node. -/
theorem Aside.value?_eq (h : Aside job v d e) (port : String) : e.value? v port = d.value? v port := by
  have hbound {u : Nat} {bound : List ((Nat × String) × String)} (hne : u ≠ v)
      (hu : ∀ x ∈ bound, x.1.1 = u) (values : List ((Nat × String) × String)) :
      (bound ++ values).lookup (v, port) = values.lookup (v, port) := by
    have hnone : bound.lookup (v, port) = none := by
      refine List.lookup_eq_none_iff.mpr fun x hx => ?_
      simp only [bne_iff_ne, ne_eq]
      intro heq
      exact hne ((hu x hx).symm.trans (congrArg Prod.fst heq.symm))
    rw [List.lookup_append, hnone]
    rfl
  cases h with
  | enter | line | openArm | closeArm | hold | letGo => rfl
  | @lines u _ hne =>
    obtain ⟨bound, hvalues, hnode⟩ := (writeGuarded_writes job d u).values
    rw [Draft.value?, hvalues, hbound hne fun x hx => (hnode x hx).1]
    rfl
  | @shape u _ b _ hne hblock =>
    obtain ⟨m, -, ⟨-, hcond⟩ | ⟨-, hloop⟩⟩ := Job.block?_eq_some hblock
    · obtain ⟨-, -, -, -, rfl⟩ := conditionalBlock?_eq_some hcond
      rfl
    · obtain ⟨name, -, -, -, -, -, rfl⟩ := loopBlock?_eq_some hloop
      refine hbound hne (fun x hx => ?_) d.values
      obtain ⟨q, -, rfl⟩ := List.mem_map.mp hx
      rfl

/-- What other nodes read and lead to lies outside the part. -/
theorem IsPart.spread_outside (h : IsPart job₁ job) :
    Spread job [] (job₁.graph.size ≤ ·) (job₁.graph.size ≤ ·) where
  values _ hv _ hu := h.graph.le_of_feeds (FlowGraph.mem_dependencies.mp hu) hv
  reads _ hv _ _ hu := h.graph.le_of_feeds (FlowGraph.mem_dependencies.mp hu) hv
  flow _ hv _ _ hw := h.graph.le_of_leads (FlowGraph.mem_successors.mp hw) hv

/-- Work on other nodes leaves the agreement about the part alone. -/
theorem Emits.mirrors_outside {t : Task} (hpart : IsPart job₁ job) (hemits : Emits job t d e)
    (ht : t.Of (job₁.graph.size ≤ ·) (job₁.graph.size ≤ ·))
    (h : Draft.Mirrors job₁.graph.size p₁ p d₁ d) :
    Draft.Mirrors job₁.graph.size d₁.trace e.trace d₁ e := by
  have hextends := hemits.extends
  have hentered {v : Nat} (hv : v < job₁.graph.size) (hin : v ∈ e.entered) : v ∈ d.entered := by
    rcases hemits.enters_only hpart.spread_outside (by simp) ht v hin with hin | hin | hin
    · exact hin
    · exact absurd hv (Nat.not_lt.mpr hin)
    · exact absurd hv (Nat.not_lt.mpr hin)
  refine ⟨hextends.level.trans h.level, fun v hv => ?_, fun v hv => ?_, fun v hv port => ?_, [], ?_, ?_⟩
  · rw [← h.entered v hv]
    exact ⟨hentered hv, fun hin => hextends.subset hin⟩
  · rw [hextends.barriers, h.barriers v hv]
  · rw [← h.values v hv port]
    cases hemits.visits (v := v) with
    | aside _ hsteps =>
      exact keeps_of_aside (P := fun e => e.value? v port = d.value? v port) hsteps
        (fun _ _ haside hbefore => (haside.value?_eq port).trans hbefore) rfl
    | turn hnew hin => exact absurd (hentered hv hin) hnew
  · exact (List.append_nil _).symm
  · exact (List.append_nil _).symm

/-- Pieces of work on other nodes leave the agreement about the part alone. -/
theorem Performs.mirrors_outside {ts : List Task} (hpart : IsPart job₁ job)
    (hperforms : Performs job ts d e)
    (hts : ∀ t ∈ ts, t.Of (job₁.graph.size ≤ ·) (job₁.graph.size ≤ ·))
    (h : Draft.Mirrors job₁.graph.size p₁ p d₁ d) :
    ∃ q₁ q, Draft.Mirrors job₁.graph.size q₁ q d₁ e := by
  induction hperforms generalizing p₁ p with
  | nil => exact ⟨p₁, p, h⟩
  | cons hfirst _ ih =>
    exact ih (fun t ht => hts t (List.mem_cons_of_mem _ ht))
      (hfirst.mirrors_outside hpart (hts _ List.mem_cons_self) h)

end Job

end FlowScript
