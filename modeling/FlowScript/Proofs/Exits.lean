import FlowScript.Proofs.Places
import FlowScript.Proofs.Sequence

/-!
# Ways out of a block

Each edge out of a conditional or a loop belongs to one arm of its block or runs past the block. When
a block is begun, nothing that lies behind it has been entered, so it holds back all that two of its
ways out lead to: an open arm leads to nothing unmet that another way out leads to as well, and what
is let go when the block is closed lies behind one of its arms and beside that arm.
-/

namespace FlowScript

open Relation (ReflTransGen TransGen)

/-- The arm that an edge with some label leads into, if its source is a conditional or a loop with an
input. -/
def Node.armOf? (n : Node) (label : Option String) : Option Arm :=
  if n.inputs.isEmpty then none
  else match n.kind with
    | .conditional =>
      if label.any (Text.labelIn thenLabels) then some .thenArm
      else if label.any (Text.labelIn elseLabels) then some .elseArm
      else none
    | .loop => if label.any (Text.labelIn bodyLabels) then some .loopBody else none
    | _ => none

namespace FlowGraph

variable {g : FlowGraph} {a b c u v w : Nat}

/-- The nodes that an arm of a node leads to. -/
def armTargets (g : FlowGraph) (c : Nat) : Arm → List Nat
  | .thenArm => g.branchTargets c thenLabels
  | .elseArm => (g.branchTargets c elseLabels).filter fun w =>
      !(g.branchTargets c thenLabels).contains w
  | .loopBody => g.branchTargets c bodyLabels
  | .scope => g.successors c

/-- The flow comes to a node from another, first to one that an arm leads to. -/
def LeadsInto (g : FlowGraph) (c : Nat) (arm : Arm) (v : Nat) : Prop :=
  ∃ w ∈ g.armTargets c arm, ReflTransGen g.Leads w v

/-- The flow comes to a node from another, but first to one that an arm does not lead to. -/
def LeadsPast (g : FlowGraph) (c : Nat) (arm : Arm) (v : Nat) : Prop :=
  ∃ w, g.Leads c w ∧ w ∉ g.armTargets c arm ∧ ReflTransGen g.Leads w v

/-- The arm that an edge belongs to, if its source becomes a block. The edges that run past the
block belong to none. -/
def armOf? (g : FlowGraph) (e : Edge) : Option Arm :=
  (g.node? e.source).bind fun n => n.armOf? e.label

/-- An execution edge that belongs to an arm, or to none, leads from one node to another. -/
def BranchesTo (g : FlowGraph) (u : Nat) (arm : Option Arm) (w : Nat) : Prop :=
  ∃ e ∈ g.edges, e.kind = .execution ∧ e.source = u ∧ e.target = w ∧ g.armOf? e = arm

/-- On its way to a node, the flow forks off to another: edges of one arm, or of none, lead to that
one and to one that the flow comes to the node from. -/
def ForksOff (g : FlowGraph) (u w c : Nat) : Prop :=
  ∃ arm w', w' ≠ w ∧ g.BranchesTo u arm w ∧ g.BranchesTo u arm w' ∧ ReflTransGen g.Leads w' c

/-- The flow that forks off on the way to a node does so on the way to what lies behind it. -/
theorem ForksOff.trans (h : g.ForksOff u w c) (hpath : ReflTransGen g.Leads c v) :
    g.ForksOff u w v := by
  obtain ⟨arm, w', hne, hw, hw', hback⟩ := h
  exact ⟨arm, w', hne, hw, hw', hback.trans hpath⟩

/-- An arm leads to successors of its node. -/
theorem armTargets_subset (arm : Arm) : g.armTargets c arm ⊆ g.successors c := by
  intro w hw
  cases arm with
  | thenArm | loopBody => exact branchTargets_subset hw
  | elseArm => exact branchTargets_subset (List.mem_filter.mp hw).1
  | scope => exact hw

/-- What an arm leads to lies behind its node. -/
theorem LeadsInto.leads {arm : Arm} (h : g.LeadsInto c arm v) : TransGen g.Leads c v := by
  obtain ⟨w, hw, hpath⟩ := h
  exact .head' (mem_successors.mp (armTargets_subset arm hw)) hpath

/-- The arm of an edge out of a conditional with an input. -/
theorem armOf?_conditional {e : Edge} {n : Node} (hn : g.node? e.source = some n)
    (hkind : n.kind = .conditional) (hinputs : n.inputs ≠ []) :
    g.armOf? e = if e.label.any (Text.labelIn thenLabels) then some .thenArm
      else if e.label.any (Text.labelIn elseLabels) then some .elseArm else none := by
  simp [armOf?, Node.armOf?, hn, hkind, hinputs]

/-- The arm of an edge out of a loop with an input. -/
theorem armOf?_loop {e : Edge} {n : Node} (hn : g.node? e.source = some n) (hkind : n.kind = .loop)
    (hinputs : n.inputs ≠ []) :
    g.armOf? e = if e.label.any (Text.labelIn bodyLabels) then some .loopBody else none := by
  simp [armOf?, Node.armOf?, hn, hkind, hinputs]

/-- An edge to none of the targets of a branch does not have one of its labels. -/
theorem not_labelIn_of_not_mem {e : Edge} {labels : List String} (he : e ∈ g.edges)
    (hkind : e.kind = .execution) (h : e.target ∉ g.branchTargets e.source labels) :
    ¬ e.label.any (Text.labelIn labels) = true :=
  fun hlabel => h (mem_branchTargets.mpr ⟨e, he, hkind, rfl, rfl, hlabel⟩)

/-- From each of its edges, a path goes on to its end. -/
theorem Path.leads_of_mem {e : Edge} {es : List Edge} (h : g.Path a es b) (he : e ∈ es) :
    g.Leads e.source e.target ∧ ReflTransGen g.Leads e.target b := by
  induction h with
  | nil => cases he
  | @cons f es b hf hkind hpath ih =>
    rcases List.mem_cons.mp he with rfl | he
    · exact ⟨⟨e, hf, hkind, rfl, rfl⟩, hpath.leads⟩
    · exact ih he

/-- Where there is a flow of execution, the entry points take part in it. -/
theorem hasExecutionPorts_of_entryPoints (hmode : Generator.mode g = .execution)
    (ha : a ∈ g.entryPoints) : g.hasExecutionPorts a = true := by
  have hany : g.anyExecutionPorts = true := by
    by_contra hnone
    simp [Generator.mode, hnone] at hmode
  rw [entryPoints, if_pos hany, List.mem_filter, Bool.and_eq_true] at ha
  exact ha.2.1

end FlowGraph

/-- How a block parts the successors of its node: each arm has its own targets, to which edges of the
arm lead, and edges of no arm lead to the others, which run after the block. -/
structure Block.Parts (b : Block) (g : FlowGraph) (c : Nat) : Prop where
  leads : ∀ w, g.Leads c w ↔ w ∈ b.rest ∨ ∃ x ∈ b.arms, w ∈ x.2
  arms : ∀ x ∈ b.arms, x.2 = g.armTargets c x.1
  disjoint : b.targets.Pairwise List.Disjoint
  inside : ∀ x ∈ b.arms, ∀ w ∈ x.2, g.BranchesTo c (some x.1) w
  rest : ∀ w ∈ b.rest, g.BranchesTo c none w

namespace Job

variable {job : Job} {d e f s : Draft} {b : Block} {c u v w : Nat} {ws : List Nat}

/-- The edges of a node that becomes no block belong to no arm. -/
theorem branchesTo_of_not_block (h : job.block? d c = none) (hw : job.graph.Leads c w) :
    job.graph.BranchesTo c none w := by
  obtain ⟨x, hx, hkind, hsource, htarget⟩ := hw
  refine ⟨x, hx, hkind, hsource, htarget, ?_⟩
  rw [← hsource] at h
  cases hn : job.graph.node? x.source with
  | none => simp [FlowGraph.armOf?, hn]
  | some n =>
    by_cases hinputs : n.inputs = []
    · simp [FlowGraph.armOf?, Node.armOf?, hn, hinputs]
    · cases hshape : n.kind with
      | conditional =>
        obtain ⟨b, s, hblock, -⟩ := exists_conditionalBlock hn hshape hinputs d
        cases h.symm.trans hblock
      | loop =>
        obtain ⟨b, s, hblock, -⟩ := exists_loopBlock hn hshape hinputs d
        cases h.symm.trans hblock
      | _ => simp [FlowGraph.armOf?, Node.armOf?, hn, hshape]

/-- The block of a conditional parts its successors. -/
theorem conditionalBlock?_parts {n : Node} (hn : job.graph.node? c = some n)
    (hkind : n.kind = .conditional) (h : job.conditionalBlock? d c n = some (b, e)) :
    b.Parts job.graph c := by
  obtain ⟨p, hp, -, ⟨harms, hrest⟩, -⟩ := conditionalBlock?_eq_some h
  have hinputs : n.inputs ≠ [] := by
    intro hnil
    simp [hnil] at hp
  have hcases : ∀ x ∈ b.arms, x = (.thenArm, job.graph.armTargets c .thenArm) ∨
      x = (.elseArm, job.graph.armTargets c .elseArm) := by
    intro x hx
    rw [harms, List.mem_cons] at hx
    refine hx.imp id fun hx => ?_
    split at hx
    · cases hx
    · exact List.mem_singleton.mp hx
  have hno : ∀ w ∈ job.graph.armTargets c .elseArm, w ∈ job.graph.branchTargets c elseLabels ∧
      w ∉ job.graph.branchTargets c thenLabels := by
    simp [FlowGraph.armTargets]
  have hafter : ∀ w ∈ b.rest, job.graph.Leads c w ∧ w ∉ job.graph.branchTargets c thenLabels ∧
      w ∉ job.graph.branchTargets c elseLabels := by
    intro w hw
    rw [hrest, mem_unclaimed, List.mem_append, not_or] at hw
    refine ⟨FlowGraph.mem_successors.mp hw.1, hw.2.1, fun helse => hw.2.2 ?_⟩
    simpa using ⟨helse, hw.2.1⟩
  refine ⟨fun w => ?_, ?_, ?_, ?_, fun w hw => ?_⟩
  · rw [← FlowGraph.mem_successors]
    exact conditionalBlock?_targets h w
  · intro x hx
    rcases hcases x hx with rfl | rfl <;> rfl
  · have hyesNo : (job.graph.armTargets c .thenArm).Disjoint (job.graph.armTargets c .elseArm) :=
      fun w hw hw' => (hno w hw').2 hw
    have hyesRest : (job.graph.armTargets c .thenArm).Disjoint b.rest :=
      fun w hw hw' => (hafter w hw').2.1 hw
    have hnoRest : (job.graph.armTargets c .elseArm).Disjoint b.rest :=
      fun w hw hw' => (hafter w hw').2.2 (hno w hw).1
    have htargets : b.targets = job.graph.armTargets c .thenArm ::
        ((if (job.graph.armTargets c .elseArm).isEmpty then []
          else [job.graph.armTargets c .elseArm]) ++ [b.rest]) := by
      rw [Block.targets, harms, FlowGraph.armTargets, FlowGraph.armTargets]
      split <;> rfl
    rw [htargets]
    split <;> simp [hyesNo, hyesRest, hnoRest]
  · intro x hx w hw
    rcases hcases x hx with rfl | rfl
    · obtain ⟨y, hy, hexec, rfl, htarget, hlabel⟩ := FlowGraph.mem_branchTargets.mp hw
      exact ⟨y, hy, hexec, rfl, htarget, by
        rw [FlowGraph.armOf?_conditional hn hkind hinputs, if_pos hlabel]⟩
    · obtain ⟨helse, hthen⟩ := hno w hw
      obtain ⟨y, hy, hexec, rfl, rfl, hlabel⟩ := FlowGraph.mem_branchTargets.mp helse
      exact ⟨y, hy, hexec, rfl, rfl, by
        rw [FlowGraph.armOf?_conditional hn hkind hinputs,
          if_neg (FlowGraph.not_labelIn_of_not_mem hy hexec hthen), if_pos hlabel]⟩
  · obtain ⟨⟨y, hy, hexec, rfl, rfl⟩, hthen, helse⟩ := hafter w hw
    exact ⟨y, hy, hexec, rfl, rfl, by
      rw [FlowGraph.armOf?_conditional hn hkind hinputs,
        if_neg (FlowGraph.not_labelIn_of_not_mem hy hexec hthen),
        if_neg (FlowGraph.not_labelIn_of_not_mem hy hexec helse)]⟩

/-- The block of a loop parts its successors. -/
theorem loopBlock?_parts {n : Node} (hn : job.graph.node? c = some n) (hkind : n.kind = .loop)
    (h : job.loopBlock? d c n = some (b, e)) : b.Parts job.graph c := by
  obtain ⟨name, collection, hhead, -, harms, hrest, -⟩ := loopBlock?_eq_some h
  have hinputs : n.inputs ≠ [] := by
    intro hnil
    simp [loopHead?, hnil] at hhead
  have hafter : ∀ w ∈ b.rest, job.graph.Leads c w ∧ w ∉ job.graph.branchTargets c bodyLabels := by
    intro w hw
    rw [hrest, mem_unclaimed] at hw
    exact ⟨FlowGraph.mem_successors.mp hw.1, hw.2⟩
  refine ⟨fun w => ?_, ?_, ?_, ?_, fun w hw => ?_⟩
  · rw [← FlowGraph.mem_successors]
    exact loopBlock?_targets h w
  · intro x hx
    obtain rfl := List.mem_singleton.mp (harms ▸ hx)
    rfl
  · have hdisjoint : (job.graph.branchTargets c bodyLabels).Disjoint b.rest :=
      fun w hw hw' => (hafter w hw').2 hw
    simpa [Block.targets, harms] using hdisjoint
  · intro x hx w hw
    obtain rfl := List.mem_singleton.mp (harms ▸ hx)
    obtain ⟨y, hy, hexec, rfl, htarget, hlabel⟩ := FlowGraph.mem_branchTargets.mp hw
    exact ⟨y, hy, hexec, rfl, htarget, by rw [FlowGraph.armOf?_loop hn hkind hinputs, if_pos hlabel]⟩
  · obtain ⟨⟨y, hy, hexec, rfl, rfl⟩, hbody⟩ := hafter w hw
    exact ⟨y, hy, hexec, rfl, rfl, by
      rw [FlowGraph.armOf?_loop hn hkind hinputs,
        if_neg (FlowGraph.not_labelIn_of_not_mem hy hexec hbody)]⟩

/-- A block parts the successors of its node. -/
theorem block?_parts (h : job.block? d c = some (b, e)) : b.Parts job.graph c := by
  obtain ⟨n, hn, ⟨hkind, hblock⟩ | ⟨hkind, hblock⟩⟩ := block?_eq_some h
  · exact conditionalBlock?_parts hn hkind hblock
  · exact loopBlock?_parts hn hkind hblock

/-- What is in the flow region of some targets lies behind one of them. -/
theorem exists_target_of_mem_flowRegion (hv : v ∈ job.flowRegion d ws) :
    ∃ w ∈ ws, ReflTransGen job.graph.Leads w v := by
  refine flowRegion_induction (P := fun v => ∃ w ∈ ws, ReflTransGen job.graph.Leads w v)
    (fun w hw _ _ => ⟨w, hw, .refl⟩) (fun u hu w huw _ _ => ?_) v hv
  obtain ⟨x, hx, hpath⟩ := hu
  exact ⟨x, hx, hpath.tail (FlowGraph.mem_successors.mp huw)⟩

/-- Behind a node, all that follows what is met is met. -/
def Sealed (job : Job) (d : Draft) (w : Nat) : Prop :=
  ∀ u, ReflTransGen job.graph.Leads w u → d.Meets u → ∀ v, job.graph.Leads u v → d.Meets v

namespace Sealed

/-- Behind a node lies what lies behind the nodes behind it. -/
theorem trans (h : job.Sealed d w) (hpath : ReflTransGen job.graph.Leads w u) : job.Sealed d u :=
  fun x hx => h x (hpath.trans hx)

/-- Work that leaves nothing behind keeps a node sealed. -/
theorem since (h : job.Sealed d w) (hext : Draft.Extends d e) (hsince : job.ClosedSince d e) :
    job.Sealed e w := by
  intro u hpath hu v hleads
  by_cases hmet : d.Meets u
  · exact (h u hpath hmet v hleads).mono hext
  · have hin : u ∈ e.entered := hu.resolve_right fun hbar => hmet (.inr (hext.barriers ▸ hbar))
    exact hsince u hin (fun hold => hmet (.inl hold)) v hleads

/-- What is not met behind a target lies in the flow region of the targets. -/
theorem mem_flowRegion (hg : job.graph.WellFormed) (hws : ∀ w ∈ ws, w < job.graph.size)
    (h : job.Sealed d w) (hw : w ∈ ws) (hpath : ReflTransGen job.graph.Leads w v)
    (hfree : ¬ d.Meets v) : v ∈ job.flowRegion d ws := by
  induction hpath with
  | refl => exact mem_flowRegion_of_target hg hws hw hfree
  | @tail x y hpath hlast ih =>
    have hx : ¬ d.Meets x := fun hmet => hfree (h x hpath hmet y hlast)
    exact mem_flowRegion_of_leads hg hws (ih hx) hlast hfree

/-- When a node and what it reads have been entered, its successors are sealed if it was. -/
theorem read (hsep : job.graph.Separated) (h : job.Sealed d v) (hnew : v ∉ d.entered)
    (hdeps : Emits job (.values (job.graph.dependencies v)) (d.enter v) e)
    (hw : job.graph.Leads v w) : job.Sealed e w := by
  have hext := (Draft.enter_extends hnew).trans hdeps.extends
  intro u hpath hu x hleads
  by_cases hmet : d.Meets u
  · exact (h u (.head hw hpath) hmet x hleads).mono hext
  have hin : u ∈ e.entered := hu.resolve_right fun hbar => hmet (.inr (hext.barriers ▸ hbar))
  rcases hdeps.enters_read hsep u hin with hin | rfl | hdata
  · exact absurd (.inl hin) hmet
  · exact absurd (TransGen.head' hw hpath) (hsep.acyclic u)
  · exact absurd hleads (hdata.not_leads hsep)

end Sealed

/-- A block of a node, begun in a draft behind all of whose starts what follows the met is met. -/
structure Begun (job : Job) (d : Draft) (c : Nat) (b : Block) : Prop where
  parts : b.Parts job.graph c
  starts : ∀ w, job.graph.Leads c w → job.Sealed d w

/-- Of two that stand one after the other in a list, the first is not the last. -/
theorem mem_of_pair_sublist {α : Type} {x y z : α} {l : List α} (h : [x, y].Sublist (l ++ [z])) :
    x ∈ l := by
  have hinit : [x].Sublist l := by simpa using h.reverse.tail.reverse
  exact hinit.subset List.mem_cons_self

/-- A block holds back what two of its regions share. -/
theorem mem_held_of_shared (hjob : job.WellFormed) (hfree : ¬ d.Meets v) (hlt : v < job.graph.size)
    (hshared : shared (job.regions d b) v = true) : v ∈ job.held d b := by
  refine List.mem_filter.mpr ⟨List.mem_filter.mpr ⟨hjob.mem_order.mpr hlt, hshared⟩, ?_⟩
  simpa using (not_or.mp hfree).2

/-- What a block computes ahead leads nowhere. -/
theorem Emits.not_leads_of_hoisted (hsep : job.graph.Separated)
    (h : Emits job (.hoists c (job.regionNeeds d b) job.order) d s) (hu : u ∈ s.entered)
    (hnew : u ∉ d.entered) : ¬ job.graph.Leads u v := by
  have hdata := h.enters_dataOnly hsep (regionNeeds_dataOnly hsep) u hu
  exact (hdata.resolve_left hnew).not_leads hsep

/-- The arms of a block are closed when they are done. -/
theorem Emits.closed_mem {xs : List (Arm × List Nat)} (h : Emits job (.arms c xs) d f) :
    ∀ x ∈ xs, .closed c x.1 ∈ f.trace := by
  induction xs generalizing d with
  | nil => simp
  | cons y xs ih =>
    cases h with
    | @arms_cons _ arm _ _ _ e _ harm hrest =>
      intro x hx
      rcases List.mem_cons.mp hx with rfl | hx
      · obtain ⟨pass, htrace, -⟩ := Draft.endArm_trace c arm (d.openArm c arm) e
        refine hrest.extends.trace.subset ((Draft.nextArm_extends _ xs).trace.subset ?_)
        rw [htrace]
        exact List.mem_append_right _ List.mem_cons_self
      · exact ih hrest x hx

/-- When the arms of a block are done, what was entered and written before the block still is, and the
same arms are open. -/
theorem Emits.arms_done {needs : List (List Nat)} {order held : List Nat}
    (hhoists : Emits job (.hoists c needs order) d s)
    (harms : Emits job (.arms c b.arms) ((s.hold held).write (some c) b.header) f) :
    d.entered ⊆ f.entered ∧ d.trace <+: f.trace ∧ openArms f.trace = openArms d.trace := by
  refine ⟨fun v hv => harms.extends.subset (hhoists.extends.subset hv), ?_, ?_⟩
  · exact (hhoists.extends.trace.trans (List.prefix_append _ _)).trans harms.extends.trace
  · exact harms.openArms_eq.trans ((Draft.openArms_write _ _ _).trans hhoists.openArms_eq)

namespace Begun

section Held

variable (hjob : job.WellFormed) (h : job.Begun d c b)
include h

/-- The starts of a block are successors of its node. -/
theorem leads_of_mem (hws : ws ∈ b.targets) (hw : w ∈ ws) : job.graph.Leads c w := by
  refine (h.parts.leads w).mpr ?_
  rcases mem_targets.mp hws with rfl | ⟨x, hx, rfl⟩
  · exact .inl hw
  · exact .inr ⟨x, hx, hw⟩

/-- A successor of the node of a block is one of the starts of the block. -/
theorem exists_targets (hw : job.graph.Leads c w) : ∃ ws ∈ b.targets, w ∈ ws := by
  rcases (h.parts.leads w).mp hw with hw | ⟨x, hx, hw⟩
  · exact ⟨_, mem_targets.mpr (.inl rfl), hw⟩
  · exact ⟨_, mem_targets.mpr (.inr ⟨x, hx, rfl⟩), hw⟩

/-- What runs after a block is the target of no arm. -/
theorem not_mem_arm {x : Arm × List Nat} (hx : x ∈ b.arms) (hw : w ∈ b.rest) : w ∉ x.2 := by
  have hdisjoint := (List.pairwise_append.mp h.parts.disjoint).2.2 x.2
    (List.mem_map.mpr ⟨x, hx, rfl⟩) b.rest List.mem_cons_self
  exact fun hin => hdisjoint hin hw

/-- What a block holds back lies behind one of its arms and beside it. -/
theorem exists_arm (hv : v ∈ job.held d b) : ∃ x ∈ b.arms,
    job.graph.LeadsInto c x.1 v ∧ job.graph.LeadsPast c x.1 v := by
  have hshared := (List.mem_filter.mp (List.mem_filter.mp hv).1).2
  obtain ⟨ws, ws', hpair, hregion, hregion'⟩ := shared_regions_iff.mp hshared
  obtain ⟨w, hw, hpath⟩ := exists_target_of_mem_flowRegion hregion
  obtain ⟨w', hw', hpath'⟩ := exists_target_of_mem_flowRegion hregion'
  have hdisjoint : ws.Disjoint ws' := List.pairwise_pair.mp (h.parts.disjoint.sublist hpair)
  obtain ⟨x, hx, rfl⟩ := List.mem_map.mp (mem_of_pair_sublist hpair)
  have hleads := h.leads_of_mem (hpair.subset (List.mem_cons_of_mem _ List.mem_cons_self)) hw'
  rw [h.parts.arms x hx] at hw hdisjoint
  exact ⟨x, hx, ⟨w, hw, hpath⟩, w', hleads, fun hin => hdisjoint hin hw', hpath'⟩

/-- What a block holds back lies behind one of its starts. -/
theorem exists_start (hv : v ∈ job.held d b) :
    ∃ w, job.graph.Leads c w ∧ ReflTransGen job.graph.Leads w v := by
  obtain ⟨x, -, -, w, hleads, -, hpath⟩ := h.exists_arm hv
  exact ⟨w, hleads, hpath⟩

include hjob

/-- The starts of a block are nodes of the graph. -/
theorem targets_lt (hws : ws ∈ b.targets) : ∀ w ∈ ws, w < job.graph.size :=
  fun _ hw => (hjob.graph.leads_lt (h.leads_of_mem hws hw)).2

/-- A block holds back what two of its starts lead to, if it is not met. -/
theorem mem_held_of_starts {w' : Nat} {ws' : List Nat} (hws : ws ∈ b.targets)
    (hws' : ws' ∈ b.targets) (hne : ws ≠ ws') (hw : w ∈ ws) (hw' : w' ∈ ws')
    (hpath : ReflTransGen job.graph.Leads w v) (hpath' : ReflTransGen job.graph.Leads w' v)
    (hfree : ¬ d.Meets v) : v ∈ job.held d b := by
  have hregion {ws : List Nat} {w : Nat} (hws : ws ∈ b.targets) (hw : w ∈ ws)
      (hpath : ReflTransGen job.graph.Leads w v) : v ∈ job.flowRegion d ws :=
    (h.starts w (h.leads_of_mem hws hw)).mem_flowRegion hjob.graph (h.targets_lt hjob hws) hw hpath
      hfree
  have hlt : v < job.graph.size := by
    cases hpath with
    | refl => exact h.targets_lt hjob hws _ hw
    | tail _ hlast => exact (hjob.graph.leads_lt hlast).2
  have hshared : shared (job.regions d b) v = true := by
    rw [shared_regions_iff]
    rcases pair_sublist hws hws' hne with hpair | hpair
    · exact ⟨ws, ws', hpair, hregion hws hw hpath, hregion hws' hw' hpath'⟩
    · exact ⟨ws', ws, hpair, hregion hws' hw' hpath', hregion hws hw hpath⟩
  exact mem_held_of_shared hjob hfree hlt hshared

/-- A block holds back what follows a node that it holds back, if it is not met. -/
theorem mem_held_of_leads (hu : u ∈ job.held d b) (huv : job.graph.Leads u v)
    (hfree : ¬ d.Meets v) : v ∈ job.held d b := by
  have hshared := (List.mem_filter.mp (List.mem_filter.mp hu).1).2
  obtain ⟨ws, ws', hpair, hregion, hregion'⟩ := shared_regions_iff.mp hshared
  have hws := h.targets_lt hjob (hpair.subset List.mem_cons_self)
  have hws' := h.targets_lt hjob (hpair.subset (List.mem_cons_of_mem _ List.mem_cons_self))
  refine mem_held_of_shared hjob hfree (hjob.graph.leads_lt huv).2
    (shared_regions_iff.mpr ⟨ws, ws', hpair, ?_, ?_⟩)
  · exact mem_flowRegion_of_leads hjob.graph hws hregion huv hfree
  · exact mem_flowRegion_of_leads hjob.graph hws' hregion' huv hfree

/-- A block holds back what lies behind a node that it holds back, if it is not met. -/
theorem mem_held_of_behind (hu : u ∈ job.held d b) (hpath : ReflTransGen job.graph.Leads u v)
    (hfree : ¬ d.Meets v) : v ∈ job.held d b := by
  obtain ⟨w, hw, hback⟩ := h.exists_start hu
  have hsealed := (h.starts w hw).trans hback
  induction hpath with
  | refl => exact hu
  | @tail x y hpath hlast ih =>
    have hx : ¬ d.Meets x := fun hmet => hfree (hsealed x hpath hmet y hlast)
    exact h.mem_held_of_leads hjob (ih hx) hlast hfree

end Held

section Phases

variable (hjob : job.WellFormed) (hsep : job.graph.Separated) (h : job.Begun d c b)
  (hhoists : Emits job (.hoists c (job.regionNeeds d b) job.order) d s)
include hjob h hhoists

omit hjob h in
/-- What is met before a block is met in it. -/
theorem meets_hold (hv : d.Meets v) :
    ((s.hold (job.held d b)).write (some c) b.header).Meets v :=
  (hv.mono hhoists.extends).imp id (List.mem_append_left _)

/-- An arm of a block leads to nothing that is neither met nor held back and lies behind another way
out of the block. -/
theorem not_leadsPast {x : Arm × List Nat} (hx : x ∈ b.arms) (hw : w ∈ x.2)
    (hpath : ReflTransGen job.graph.Leads w v)
    (hfree : ¬ ((s.hold (job.held d b)).write (some c) b.header).Meets v) :
    ¬ job.graph.LeadsPast c x.1 v := by
  rintro ⟨w', hw', hother, hpath'⟩
  obtain ⟨ws', hws', hin⟩ := h.exists_targets hw'
  have hne : x.2 ≠ ws' := fun heq => hother (h.parts.arms x hx ▸ heq ▸ hin)
  refine hfree (.inr (List.mem_append_right _ ?_))
  exact h.mem_held_of_starts hjob (mem_targets.mpr (.inr ⟨x, hx, rfl⟩)) hws' hne hw hin hpath hpath'
    fun hmet => hfree (meets_hold hhoists hmet)

include hsep

/-- The starts of a block are sealed when it holds nodes back. -/
theorem sealed_hold (hw : job.graph.Leads c w) :
    job.Sealed ((s.hold (job.held d b)).write (some c) b.header) w := by
  intro u hpath hu v hleads
  by_cases hmet : d.Meets u
  · exact meets_hold hhoists (h.starts w hw u hpath hmet v hleads)
  rcases hu with hin | hin
  · exact absurd hleads (hhoists.not_leads_of_hoisted hsep hin fun hold => hmet (.inl hold))
  · have hheld : u ∈ job.held d b := (List.mem_append.mp hin).resolve_left fun hbar =>
      hmet (.inr (hhoists.extends.barriers ▸ hbar))
    by_cases hv : d.Meets v
    · exact meets_hold hhoists hv
    · exact .inr (List.mem_append_right _ (h.mem_held_of_leads hjob hheld hleads hv))

variable (harms : Emits job (.arms c b.arms)
  ((s.hold (job.held d b)).write (some c) b.header) f)
include harms

omit hjob hsep h in
/-- What is met before a block is met when it is closed. -/
theorem meets_letGo (hv : d.Meets v) : (f.letGo (job.held d b)).Meets v := by
  rcases hv with hv | hv
  · exact .inl ((hhoists.arms_done harms).1 hv)
  · exact .inr (Divided.letGo_barriers hhoists harms ▸ hv)

/-- What runs after a block is sealed when the block is closed, for no arm has come to any of it. -/
theorem sealed_letGo (hw : w ∈ b.rest ∨ w ∈ job.held d b) :
    job.Sealed (f.letGo (job.held d b)) w := by
  have hstart : ∃ a, job.graph.Leads c a ∧ ReflTransGen job.graph.Leads a w := by
    rcases hw with hw | hw
    · exact ⟨w, (h.parts.leads w).mpr (.inl hw), .refl⟩
    · exact h.exists_start hw
  obtain ⟨a, ha, hback⟩ := hstart
  intro u hpath hu v hleads
  by_cases hmet : d.Meets u
  · exact meets_letGo hhoists harms (h.starts a ha u (hback.trans hpath) hmet v hleads)
  have hin : u ∈ f.entered := hu.resolve_right fun hbar =>
    hmet (.inr (Divided.letGo_barriers hhoists harms ▸ hbar))
  rcases harms.enters_behind hsep (fun _ _ _ _ => trivial) u hin with hin | hdata | hbehind
  · exact absurd hleads (hhoists.not_leads_of_hoisted hsep hin fun hold => hmet (.inl hold))
  · exact absurd hleads (hdata.not_leads hsep)
  · obtain ⟨⟨w', ⟨x, hx, hw'⟩, hpath'⟩, hfree⟩ := hbehind
    refine absurd (List.mem_append_right _ ?_) hfree
    rcases hw with hw | hw
    · have hout : x.2 ≠ b.rest := fun heq => h.not_mem_arm hx hw (heq ▸ hw)
      exact h.mem_held_of_starts hjob (mem_targets.mpr (.inr ⟨x, hx, rfl⟩))
        (mem_targets.mpr (.inl rfl)) hout hw' hw hpath' hpath hmet
    · exact h.mem_held_of_behind hjob hw hpath hmet

end Phases

end Begun

end Job

end FlowScript
