import FlowScript.Proofs.Branches
import FlowScript.Proofs.Closure
import FlowScript.Proofs.Rendering

/-!
# Control dependence

What a branch controls is entered inside the arm of the branch. Until the node of the branch is
entered, nothing that the branch controls has been entered: the flow does not come to it another way,
and where blocks further out hold such a node back, they hold back the node of the branch as well and
let it go first. When the node of the branch becomes a block, no other arm comes to what the branch
controls, nothing of it is held back, and so following the flow into the arm enters all of it.
-/

namespace FlowScript

open Relation (TransGen)

namespace Job

variable {job : Job} {c : Nat} {arm : Arm} {labels : List String} {d e : Draft} {v : Nat}

/-- A branch that controls some node, in a job whose graph keeps data and execution apart and whose
order goes along the edges of execution. -/
structure Controls (job : Job) (c : Nat) (arm : Arm) (labels : List String) : Prop where
  wellFormed : job.WellFormed
  separated : job.graph.Separated
  branch : job.graph.Branch c arm labels
  order : job.order.Pairwise fun a b => job.graph.Controlled c labels a → b ≠ c
  controlled : ∃ n, job.graph.Controlled c labels n

/-- Nothing that the branch controls has been entered, nor its node, and no such node is held back
unless the node of the branch is. -/
structure Pristine (job : Job) (c : Nat) (labels : List String) (d : Draft) : Prop where
  node : c ∉ d.entered
  nodes : ∀ v, job.graph.Controlled c labels v → v ∉ d.entered
  barriers : ∀ v, job.graph.Controlled c labels v → v ∈ d.barriers → c ∈ d.barriers

/-- All that the branch controls has been entered inside the arm of the branch. -/
def Settled (job : Job) (c : Nat) (arm : Arm) (labels : List String) (d : Draft) : Prop :=
  ∀ n, job.graph.Controlled c labels n → EnteredInside c arm n d.trace

/-- Work that comes to what the branch controls only after the node of the branch. -/
def Guarded (job : Job) (c : Nat) (labels : List String) (d : Draft) : Task → Prop
  | .flows vs => ∃ front back, vs = front ++ back ∧
      (∀ v ∈ front, job.graph.ReachedAround c labels v) ∧ (back = [] ∨ c ∈ front ∧ c ∉ d.barriers)
  | t => t.Of job.DataOnly (job.graph.ReachedAround c labels)

/-- Work on nodes that the flow comes to without the branch. -/
theorem guarded_flows {vs : List Nat} (hvs : ∀ v ∈ vs, job.graph.ReachedAround c labels v) :
    job.Guarded c labels d (.flows vs) :=
  ⟨vs, [], (List.append_nil vs).symm, hvs, .inl rfl⟩

/-- What is settled stays settled. -/
theorem Settled.mono (h : job.Settled c arm labels d) (htrace : d.trace <+: e.trace) :
    job.Settled c arm labels e :=
  fun n hn => (h n hn).mono htrace

namespace Controls

variable (h : Controls job c arm labels)
include h

/-- The flow comes to the node of the branch without the branch. -/
theorem reachedAround : job.graph.ReachedAround c labels c := by
  obtain ⟨n, hn⟩ := h.controlled
  exact hn.exists_target.1

/-- What the branch controls takes part in the flow of execution. -/
theorem not_dataOnly (hv : job.graph.Controlled c labels v) : ¬ job.DataOnly v := by
  intro hdata
  obtain ⟨u, -, hlast⟩ := TransGen.tail'_iff.mp hv.leads
  rw [DataOnly, (h.separated.ends u v hlast).2] at hdata
  cases hdata

/-- The node of the branch takes part in the flow of execution. -/
theorem node_not_dataOnly : ¬ job.DataOnly c := by
  intro hdata
  obtain ⟨n, hn⟩ := h.controlled
  obtain ⟨u, hfirst, -⟩ := TransGen.head'_iff.mp hn.leads
  exact hdata.not_leads h.separated hfirst

/-- The node of the branch is a node of the graph. -/
theorem node_lt : c < job.graph.size := by
  obtain ⟨n, hn⟩ := h.controlled
  obtain ⟨u, hfirst, -⟩ := TransGen.head'_iff.mp hn.leads
  exact (h.wellFormed.graph.leads_lt hfirst).1

/-- Away from the branch, the flow comes only to nodes that it comes to without the branch. -/
theorem spread : Spread job [c] job.DataOnly (job.graph.ReachedAround c labels) where
  values _ _ _ hu := h.separated.sources _ _ (FlowGraph.mem_dependencies.mp hu)
  reads _ _ _ _ hu := h.separated.sources _ _ (FlowGraph.mem_dependencies.mp hu)
  flow v hv hne w hw :=
    hv.step ((FlowGraph.mem_successors.mp hw).avoids (by simpa using hne))

/-- The node of the branch always becomes a block, which holds the branch. -/
theorem exists_block (d : Draft) : ∃ b s ys zs targets, job.block? d c = some (b, s) ∧
    b.Holds job.graph c arm labels ys zs targets := by
  obtain ⟨n, hn⟩ := h.controlled
  obtain ⟨haround, w, hw, hcontrolled, -⟩ := hn.exists_target
  exact exists_block_of_branch h.branch d hw fun havoids => hcontrolled.2 (haround.step havoids)

/-- A region whose targets the flow comes to without the branch holds the node of the branch if it
holds a node that the branch controls. -/
theorem mem_flowRegion_node {targets : List Nat}
    (htargets : ∀ w ∈ targets, job.graph.ReachedAround c labels w)
    (hv : job.graph.Controlled c labels v) (hin : v ∈ job.flowRegion d targets) :
    c ∈ job.flowRegion d targets := by
  by_contra hnot
  have hmem {u : Nat} := @mem_flowRegion job d u h.wellFormed.graph targets fun w hw =>
    (htargets w hw).reached.lt h.wellFormed.graph
  obtain ⟨s, hs, hfree, hpath⟩ := hmem.mp hin
  have haround : job.graph.ReachedAround c labels v := by
    clear hv hin
    induction hpath with
    | refl => exact htargets s hs
    | @tail a b hpath hlast ih =>
      have hne : a ≠ c := fun heq => hnot (heq ▸ hmem.mpr ⟨s, hs, hfree, hpath⟩)
      exact ih.step ((FlowGraph.mem_successors.mp hlast.1).avoids hne)
  exact hv.2 haround

/-- A block that holds back a node that the branch controls holds back the node of the branch. -/
theorem mem_held {b : Block}
    (hb : ∀ w, (w ∈ b.rest ∨ ∃ x ∈ b.arms, w ∈ x.2) → job.graph.ReachedAround c labels w)
    (hv : job.graph.Controlled c labels v) (hin : v ∈ job.held d b) : c ∈ job.held d b := by
  have hregions : ∀ r ∈ job.regions d b, v ∈ r → c ∈ r := by
    intro r hr hvr
    rcases mem_regions.mp hr with rfl | ⟨x, hx, rfl⟩
    · exact h.mem_flowRegion_node (fun w hw => hb w (.inl hw)) hv hvr
    · exact h.mem_flowRegion_node (fun w hw => hb w (.inr ⟨x, hx, hw⟩)) hv hvr
  have hshared := (List.mem_filter.mp (List.mem_filter.mp hin).1).2
  have hsharedNode : shared (job.regions d b) c = true := shared_of_shared hshared hregions
  obtain ⟨r, hr, hcr⟩ := exists_of_shared hsharedNode
  have hfree : c ∉ d.barriers := by
    rcases mem_regions.mp hr with rfl | ⟨x, -, rfl⟩
    · exact (flowRegion_free hcr).2
    · exact (flowRegion_free hcr).2
  refine List.mem_filter.mpr ⟨List.mem_filter.mpr ⟨?_, hsharedNode⟩, by simpa using hfree⟩
  exact h.wellFormed.mem_order.mpr h.node_lt

/-- A block that holds the branch holds back nothing that the branch controls. -/
theorem not_mem_held {b : Block} {ys zs : List (Arm × List Nat)} {targets : List Nat}
    (hb : b.Holds job.graph c arm labels ys zs targets) (hc : c ∈ d.entered)
    (hv : job.graph.Controlled c labels v) : v ∉ job.held d b := by
  intro hin
  -- the other arms and the rest come only to what the flow comes to without the branch
  have hother {ws : List Nat} (hws : ∀ w ∈ ws, job.graph.Avoids c labels c w) :
      v ∉ job.flowRegion d ws := by
    intro hvr
    refine hv.2 (h.spread.flowRegion (by simpa using .inl hc) (fun w hw => ?_) v hvr)
    exact h.reachedAround.step (hws w hw)
  have hshared := (List.mem_filter.mp (List.mem_filter.mp hin).1).2
  rw [regions, hb.arms, List.map_append, List.map_append, List.append_assoc, List.map_cons,
    List.map_cons, List.cons_append, shared_append_cons] at hshared
  · cases hshared
  · intro r hr
    simp only [List.map_map, List.mem_append, List.mem_map, List.mem_singleton,
      Function.comp_apply] at hr
    rcases hr with ⟨y, hy, rfl⟩ | ⟨y, hy, rfl⟩ | rfl
    · exact hother (hb.others y (List.mem_append_left _ hy))
    · exact hother (hb.others y (List.mem_append_right _ hy))
    · exact hother hb.rest

/-- Following the flow into the arm of the branch enters all that the branch controls. -/
theorem mem_entered {targets : List Nat} (hflows : Emits job (.flows targets) d e)
    (hinside : ∀ w ∈ job.graph.branchTargets c labels, ¬ job.graph.Avoids c labels c w → w ∈ targets)
    (hnew : ∀ v, job.graph.Controlled c labels v → v ∉ d.entered ∧ v ∉ d.barriers)
    (hv : job.graph.Controlled c labels v) : v ∈ e.entered := by
  have hcloses := hflows.closes h.separated fun _ _ => trivial
  have hmeets {u : Nat} (hu : job.graph.Controlled c labels u) (hmet : e.Meets u) :
      u ∈ e.entered :=
    hmet.resolve_right fun hbar => (hnew u hu).2 (hflows.extends.barriers ▸ hbar)
  obtain ⟨haround, w, hw, hwcontrolled, hchain⟩ := hv.exists_target
  have hall : job.graph.Controlled c labels v ∧ v ∈ e.entered := by
    clear hv
    induction hchain with
    | refl =>
      have hin := hinside w hw fun havoids => hwcontrolled.2 (haround.step havoids)
      exact ⟨hwcontrolled, hmeets hwcontrolled (hcloses.starts w hin)⟩
    | @tail a b _ hlast ih =>
      have hmet := hcloses.since a ih.2 (hnew a ih.1).1 b hlast.1
      exact ⟨hlast.2, hmeets hlast.2 hmet⟩
  exact hall.2

/-- Writing the block that holds the branch enters all that the branch controls inside the arm. -/
theorem settled_of_block {b : Block} {ys zs : List (Arm × List Nat)} {targets : List Nat}
    (hb : b.Holds job.graph c arm labels ys zs targets) (hblock : Emits job (.block c b) d e)
    (hc : c ∈ d.entered)
    (hnew : ∀ v, job.graph.Controlled c labels v → v ∉ d.entered ∧ v ∉ d.barriers) :
    job.Settled c arm labels e := by
  cases hblock with
  | @block _ _ _ s f g _ hhoists harms hrest hheld =>
    have hneeds := regionNeeds_dataOnly (d := d) (b := b) h.separated
    have hcs : c ∈ s.entered := hhoists.extends.subset hc
    rw [hb.arms] at harms
    obtain ⟨s', e', hext, hentered, hannounced, hflows, htrace⟩ := harms.arm_split h.spread
      (fun v hv => (List.mem_singleton.mp hv).symm ▸ hcs)
      fun y hy w hw => h.reachedAround.step (hb.others y (List.mem_append_left _ hy) w hw)
    -- the work before the arm comes to nothing that the branch controls
    have hnew' : ∀ v, job.graph.Controlled c labels v → v ∉ s'.entered ∧ v ∉ s'.barriers := by
      intro v hv
      constructor
      · intro hin
        rcases hentered v hin with hin | hin | hin
        · rcases hhoists.enters_dataOnly h.separated hneeds v hin with hin | hin
          · exact (hnew v hv).1 hin
          · exact h.not_dataOnly hv hin
        · exact h.not_dataOnly hv hin
        · exact hv.2 hin
      · have hbarriers : s'.barriers = d.barriers ++ job.held d b := by
          rw [hext.barriers, ← hhoists.extends.barriers]
          rfl
        rw [hbarriers, List.mem_append, not_or]
        exact ⟨(hnew v hv).2, h.not_mem_held hb hc hv⟩
    have hheader : ∃ before header, s'.trace = before ++ [header] ∧ IsHeader c arm header := by
      rcases hb.header with ⟨rfl, hline⟩ | ⟨hys, rfl⟩
      · obtain ⟨-, rfl⟩ := hannounced.resolve_right fun helse => helse.1 rfl
        exact ⟨_, _, rfl, hline s.level⟩
      · obtain ⟨-, before, level, helse⟩ := hannounced.resolve_left fun hnone => hys hnone.1
        exact ⟨before, _, helse, level, rfl⟩
    obtain ⟨before, header, hbefore, hisHeader⟩ := hheader
    have hlater : f.trace <+: e.trace := (hrest.extends.trans hheld.extends).trace
    intro n hn
    exact hflows.enteredInside hbefore hisHeader (hext.subset hcs)
      (h.mem_entered hflows hb.inside hnew' hn) (hnew' n hn).1 (htrace.trans hlater)

/-- Entering nodes that are neither the node of the branch nor controlled by it changes nothing. -/
theorem pristine_of_entered (hd : job.Pristine c labels d) (hbarriers : e.barriers = d.barriers)
    (hentered : ∀ v ∈ e.entered, v ∈ d.entered ∨ job.DataOnly v ∨
      v ≠ c ∧ job.graph.ReachedAround c labels v) : job.Pristine c labels e where
  node hin := by
    rcases hentered c hin with hin | hin | hin
    · exact hd.node hin
    · exact h.node_not_dataOnly hin
    · exact hin.1 rfl
  nodes v hv hin := by
    rcases hentered v hin with hin | hin | hin
    · exact hd.nodes v hv hin
    · exact h.not_dataOnly hv hin
    · exact hv.2 hin.2
  barriers := hbarriers ▸ hd.barriers

/-- Work on values changes nothing for the branch. -/
theorem pristine_of_values {t : Task} (hd : job.Pristine c labels d) (hemits : Emits job t d e)
    (ht : t.Of job.DataOnly fun _ => False) : job.Pristine c labels e :=
  h.pristine_of_entered hd hemits.extends.barriers fun v hv =>
    (hemits.enters_dataOnly h.separated ht v hv).imp_right .inl

/-- Entering a node that is not the node of the branch, and what it reads, changes nothing. -/
theorem pristine_of_read (hd : job.Pristine c labels d) (hne : v ≠ c)
    (hv : job.graph.ReachedAround c labels v)
    (hdeps : Emits job (.values (job.graph.dependencies v)) (d.enter v) e) :
    job.Pristine c labels e := by
  refine h.pristine_of_entered hd hdeps.extends.barriers fun u hu => ?_
  rcases hdeps.enters_read h.separated u hu with hin | rfl | hin
  · exact .inl hin
  · exact .inr (.inr ⟨hne, hv⟩)
  · exact .inr (.inl hin)

/-- When the flow comes to the node of the branch, the branch is settled. -/
theorem settled_of_flow_node (hd : job.Pristine c labels d) (hfree : c ∉ d.barriers)
    (hflow : Emits job (.flow c) d e) : job.Settled c arm labels e := by
  cases hflow with
  | flow_skip hskip => exact absurd hskip (not_or.mpr ⟨hfree, hd.node⟩)
  | @flow_plain _ _ s _ _ _ _ hnone | @flow_scope _ _ s _ _ _ _ hnone =>
    obtain ⟨b, s', ys, zs, targets, hblock, -⟩ := h.exists_block s
    cases hnone.symm.trans hblock
  | @flow_block _ _ s b s' _ _ _ hdeps hblock hnext =>
    obtain ⟨b, s', ys, zs, targets, hblock', hb⟩ := h.exists_block s
    obtain ⟨rfl, rfl⟩ := Prod.mk.inj (Option.some.inj (hblock.symm.trans hblock'))
    have halike := block?_alike hblock
    refine h.settled_of_block hb hnext ?_ fun v hv => ⟨?_, ?_⟩
    · rw [halike.entered]
      exact hdeps.extends.subset (Draft.mem_enter.mpr (.inr rfl))
    · rw [halike.entered]
      intro hin
      rcases hdeps.enters_read h.separated v hin with hin | rfl | hin
      · exact hd.nodes v hv hin
      · exact hv.2 h.reachedAround
      · exact h.not_dataOnly hv hin
    · rw [halike.barriers, hdeps.extends.barriers]
      exact fun hin => hfree (hd.barriers v hv hin)

/-- What a block holds back is let go with the node of the branch first. -/
theorem guarded_held {b : Block} (hb : ∀ w, (w ∈ b.rest ∨ ∃ x ∈ b.arms, w ∈ x.2) →
    job.graph.ReachedAround c labels w) (hbarriers : e.barriers = d.barriers) :
    job.Guarded c labels e (.flows (job.held d b)) := by
  have hreached : ∀ v ∈ job.held d b, job.graph.Reached v :=
    (spread_dataOnly h.separated job.graph.Reached fun v hv w hw =>
      hv.step (FlowGraph.mem_successors.mp hw)).held (by simp) fun w hw => (hb w hw).reached
  by_cases hnone : ∃ v ∈ job.held d b, job.graph.Controlled c labels v
  · obtain ⟨v, hv, hcontrolled⟩ := hnone
    have hc := h.mem_held hb hcontrolled hv
    obtain ⟨front, back, hsplit⟩ := List.append_of_mem hc
    have hpairwise := (h.order.filter (shared (job.regions d b))).filter
      fun v => !d.barriers.contains v
    change (job.held d b).Pairwise _ at hpairwise
    rw [hsplit, List.pairwise_append] at hpairwise
    refine ⟨front ++ [c], back, by simp [hsplit], fun u hu => ?_, .inr ⟨by simp, ?_⟩⟩
    · rcases List.mem_append.mp hu with hu | hu
      · by_contra haround
        have hin : u ∈ job.held d b := hsplit ▸ List.mem_append_left _ hu
        exact hpairwise.2.2 u hu c List.mem_cons_self ⟨hreached u hin, haround⟩ rfl
      · exact List.mem_singleton.mp hu ▸ h.reachedAround
    · exact hbarriers ▸ held_free c hc
  · refine guarded_flows fun v hv => ?_
    by_contra haround
    exact hnone ⟨v, hv, hreached v hv, haround⟩

/-- Guarded work either leaves the branch alone or settles it. -/
theorem pristine_or_settled {t : Task} (hemits : Emits job t d e)
    (ht : job.Guarded c labels d t) (hd : job.Pristine c labels d) :
    job.Pristine c labels e ∨ job.Settled c arm labels e := by
  -- the flow from a node that the flow comes to without the branch, but is not the node of it
  have hnext {v : Nat} (hne : v ≠ c) (hv : job.graph.ReachedAround c labels v) :
      ∀ w ∈ job.graph.successors v, job.graph.ReachedAround c labels w := fun w hw =>
    hv.step ((FlowGraph.mem_successors.mp hw).avoids hne)
  induction hemits with
  | value_skip hin => exact .inl hd
  | value_enter hnew hdeps => exact .inl (h.pristine_of_values hd (.value_enter hnew hdeps) ht)
  | values_nil => exact .inl hd
  | values_cons hfirst hrest => exact .inl (h.pristine_of_values hd (.values_cons hfirst hrest) ht)
  | hoists_nil => exact .inl hd
  | hoists_take hshared hhoistable hfirst hrest =>
    exact .inl (h.pristine_of_values hd (.hoists_take hshared hhoistable hfirst hrest) ht)
  | hoists_leave hleave hrest =>
    exact .inl (h.pristine_of_values hd (.hoists_leave hleave hrest) ht)
  | flow_skip => exact .inl hd
  | @flow_plain v d e f hfree hnew hdeps hnone hscope hflows _ ih =>
    by_cases hne : v = c
    · subst hne
      exact .inr (h.settled_of_flow_node hd hfree (.flow_plain hfree hnew hdeps hnone hscope hflows))
    have hwrites := writeGuarded_writes job e v
    have hread := h.pristine_of_read hd hne ht hdeps
    refine ih (guarded_flows (hnext hne ht)) (h.pristine_of_entered hread hwrites.barriers ?_)
    exact fun u hu => .inl (hwrites.entered ▸ hu)
  | @flow_scope v d e f hfree hnew hdeps hnone hscope harms _ ih =>
    by_cases hne : v = c
    · subst hne
      exact .inr (h.settled_of_flow_node hd hfree (.flow_scope hfree hnew hdeps hnone hscope harms))
    have hwrites := writeGuarded_writes job e v
    have hread := h.pristine_of_read hd hne ht hdeps
    refine ih (fun x hx => ?_) (h.pristine_of_entered hread hwrites.barriers ?_)
    · exact List.mem_singleton.mp hx ▸ hnext hne ht
    · exact fun u hu => .inl (hwrites.entered ▸ hu)
  | @flow_block v d e b s f hfree hnew hdeps hblock hemits _ ih =>
    by_cases hne : v = c
    · subst hne
      exact .inr (h.settled_of_flow_node hd hfree (.flow_block hfree hnew hdeps hblock hemits))
    have halike := block?_alike hblock
    have hread := h.pristine_of_read hd hne ht hdeps
    refine ih (fun w hw => hnext hne ht w ((block?_targets hblock w).mpr hw))
      (h.pristine_of_entered hread halike.barriers ?_)
    exact fun u hu => .inl (halike.entered ▸ hu)
  | @block owner b d e f g i hhoists harms hrest hheld _ ihArms ihRest ihHeld =>
    have he := h.pristine_of_values hd hhoists (regionNeeds_dataOnly h.separated)
    have hfree : ∀ v ∈ job.held d b, v ∉ e.barriers := hhoists.extends.barriers ▸ held_free
    have hletGo := Draft.letGo_extends hfree ((Draft.write_extends _ _ _).trans harms.extends)
    have hbarriers : g.barriers = d.barriers :=
      (hrest.extends.barriers.trans hletGo.barriers).trans hhoists.extends.barriers
    have hhold : job.Pristine c labels
        ((e.hold (job.held d b)).write (some owner) b.header) := by
      refine ⟨he.node, he.nodes, fun v hv hin => ?_⟩
      rcases List.mem_append.mp hin with hin | hin
      · exact List.mem_append_left _ (he.barriers v hv hin)
      · exact List.mem_append_right _ (h.mem_held ht hv hin)
    rcases ihArms (fun x hx v hv => ht v (.inr ⟨x, hx, hv⟩)) hhold with hf | hf
    · have hlet : job.Pristine c labels (f.letGo (job.held d b)) :=
        ⟨hf.node, hf.nodes, hletGo.barriers ▸ he.barriers⟩
      rcases ihRest (guarded_flows fun v hv => ht v (.inl hv)) hlet with hg | hg
      · exact ihHeld (h.guarded_held ht hbarriers) hg
      · exact .inr (hg.mono hheld.extends.trace)
    · exact .inr (hf.mono (hrest.extends.trans hheld.extends).trace)
  | flows_nil => exact .inl hd
  | @flows_cons v vs d e f hfirst hrest ih ih' =>
    obtain ⟨front, back, hsplit, hfront, hback⟩ := ht
    cases front with
    | nil =>
      obtain rfl := hback.resolve_right fun hc => List.not_mem_nil hc.1
      cases hsplit
    | cons u front =>
      obtain ⟨rfl, rfl⟩ := List.cons.inj hsplit
      rcases ih (hfront v List.mem_cons_self) hd with he | he
      · refine ih' ⟨front, back, rfl, fun u hu => hfront u (List.mem_cons_of_mem _ hu), ?_⟩ he
        -- the node of the branch is not the first, which has been entered
        refine hback.imp_right fun hc => ⟨?_, hfirst.extends.barriers ▸ hc.2⟩
        rcases List.mem_cons.mp hc.1 with rfl | hin
        · exact absurd (hfirst.flow_mem hc.2) he.node
        · exact hin
      · exact .inr (he.mono hrest.extends.trace)
  | arms_nil => exact .inl hd
  | @arms_cons owner x targets rest d e f harm hrest ihArm ihRest =>
    have hopen : job.Pristine c labels (d.openArm owner x) := ⟨hd.node, hd.nodes, hd.barriers⟩
    have hnextArm := Draft.trace_nextArm_endArm owner x rest (d.openArm owner x) e
    rcases ihArm (guarded_flows (ht _ List.mem_cons_self)) hopen with he | he
    · refine ihRest (fun y hy => ht y (List.mem_cons_of_mem _ hy))
        (h.pristine_of_entered he (by simp) fun u hu => .inl (by simpa using hu))
    · exact .inr (he.mono (hnextArm.trans hrest.extends.trace))

end Controls

/-- The work of a body with a flow of execution settles the branch. -/
theorem Controls.settled (h : Controls job c arm labels) (hmode : job.mode = .execution)
    (hperforms : Performs job job.bodyTasks d e) (hbarriers : d.barriers = [])
    (hentered : d.entered = []) : job.Settled c arm labels e := by
  rw [bodyTasks, hmode] at hperforms
  obtain ⟨f, hentries, hlast⟩ := hperforms.split
  have hstart : job.Pristine c labels d := by
    constructor <;> simp [hbarriers, hentered]
  have hkept : job.Pristine c labels f ∨ job.Settled c arm labels f := by
    refine hentries.keeps (P := fun d => job.Pristine c labels d ∨ job.Settled c arm labels d)
      (fun t ht d e hemits hd => ?_) (.inl hstart)
    rcases hd with hd | hd
    · refine h.pristine_or_settled hemits ?_ hd
      rcases entryTasks_of (F := job.graph.ReachedAround c labels)
        (fun entry hentry => ⟨entry, hentry, .refl⟩) ht with ⟨vs, rfl, hvs⟩ | ⟨v, rfl, hv⟩
      · exact hvs
      · exact hv
    · exact .inr (hd.mono hemits.extends.trace)
  have hnode : c ∈ f.entered :=
    hentries.reached_mem h.separated hbarriers hentered h.reachedAround.reached
  exact (hkept.resolve_left fun hf => hf.node hnode).mono hlast.extends.trace

end Job

namespace Generator

variable {σ : Type}

/-- Let the execution edges of a graph run in no circle and join nodes of the flow of execution, and
let no data edge start at such a node. If the flow comes to a node, but only on paths with an edge
of one branch of a conditional or a loop, then rendering enters the node between the line that
announces the arm of the branch and the end of that arm. -/
theorem branch_is_entered_inside_its_arm (ask : PatternSource σ) (s : σ) (doc : Document)
    (settings : Settings) (conversions : Conversions) (known : List (String × Option Pattern))
    (c n : Nat) (arm : Arm) (labels : List String)
    (hmode : mode (.ofDocument doc) = .execution)
    (hseparated : (FlowGraph.ofDocument doc).Separated)
    (hbranch : (FlowGraph.ofDocument doc).Branch c arm labels)
    (hreached : ∃ entry ∈ (FlowGraph.ofDocument doc).entryPoints, ∃ es,
      (FlowGraph.ofDocument doc).Path entry es n)
    (hthrough : ∀ entry ∈ (FlowGraph.ofDocument doc).entryPoints, ∀ es,
      (FlowGraph.ofDocument doc).Path entry es n → ∃ e ∈ es, FlowGraph.InBranch c labels e) :
    let gen : Generator := ⟨.ofDocument doc, settings, conversions, known⟩
    ∃ d, gen.rendering ask s = .ok d ∧ EnteredInside c arm n d.trace := by
  intro gen
  have hg : gen.graph.WellFormed := FlowGraph.ofDocument_wellFormed doc
  have hcontrolled := FlowGraph.controlled_of_paths hreached hthrough
  obtain ⟨e, hperforms, hrendering⟩ := rendering_performs ask hg s
  have hcontrols : (gen.fittedJob ask s).Controls c arm labels :=
    ⟨fittedJob_wellFormed ask hg s, hseparated, hbranch, hseparated.order_pairwise hg, n, hcontrolled⟩
  have hsettled := hcontrols.settled hmode hperforms rfl rfl
  exact ⟨_, hrendering, (hsettled n hcontrolled).mono (Job.closing_extends _ e).trace⟩

/-- A conditional whose first branch holds another conditional, the branches of which meet again. -/
def nestedMeeting : Document where
  nodes :=
    [⟨"flag", "flag", none, some .input, [], [⟨"out", "out", "bool", false, none⟩], none, [], [],
        none, none⟩,
      ⟨"outer", "outer", none, some .conditional, [⟨"cond", "cond", "bool", false, none⟩], [],
        some true, [], [], none, none⟩,
      ⟨"inner", "inner", none, some .conditional, [⟨"cond", "cond", "bool", false, none⟩], [],
        some true, [], [], none, none⟩,
      ⟨"left", "left", none, some .plain, [], [], some true, [], [], none, none⟩,
      ⟨"right", "right", none, some .plain, [], [], some true, [], [], none, none⟩,
      ⟨"meet", "meet", none, some .plain, [], [], some true, [], [], none, none⟩,
      ⟨"other", "other", none, some .plain, [], [], some true, [], [], none, none⟩,
      ⟨"last", "last", none, some .plain, [], [], some true, [], [], none, none⟩]
  edges :=
    [⟨"c1", "flag", "outer", some "out", some "cond", none⟩,
      ⟨"c2", "flag", "inner", some "out", some "cond", none⟩,
      ⟨"e1", "outer", "inner", none, none, some ⟨some .execution, some "then"⟩⟩,
      ⟨"e2", "outer", "other", none, none, some ⟨some .execution, some "else"⟩⟩,
      ⟨"e3", "inner", "left", none, none, some ⟨some .execution, some "then"⟩⟩,
      ⟨"e4", "inner", "right", none, none, some ⟨some .execution, some "else"⟩⟩,
      ⟨"e5", "left", "meet", none, none, some ⟨some .execution, none⟩⟩,
      ⟨"e6", "right", "meet", none, none, some ⟨some .execution, none⟩⟩,
      ⟨"e7", "meet", "last", none, none, some ⟨some .execution, none⟩⟩,
      ⟨"e8", "other", "last", none, none, some ⟨some .execution, none⟩⟩]

/-- A source that knows no pattern. -/
def unanswered : PatternSource Unit := fun s _ _ => (.notFound, s)

/-- The node where the inner branches meet is entered inside the first arm of the outer conditional,
also though the inner one holds it back. -/
theorem nestedMeeting_entered_inside :
    let g := FlowGraph.ofDocument nestedMeeting
    (g.Separated ∧ g.Branch 1 .thenArm thenLabels ∧
      (∃ entry ∈ g.entryPoints, ∃ es, g.Path entry es 5) ∧
      ∀ entry ∈ g.entryPoints, ∀ es, g.Path entry es 5 →
        ∃ e ∈ es, FlowGraph.InBranch 1 thenLabels e) ∧
    ∃ d, (Generator.new g .standard).rendering unanswered () = .ok d ∧
      EnteredInside 1 .thenArm 5 d.trace := by
  intro g
  have hseparated : g.Separated := FlowGraph.separated_of_edges (by decide) (by decide)
  have hbranch : g.Branch 1 .thenArm thenLabels := .yes rfl rfl (List.cons_ne_nil _ _)
  have hreached : ∃ entry ∈ g.entryPoints, ∃ es, g.Path entry es 5 :=
    ⟨1, by decide, _, .cons (e := ⟨"e1", 1, 2, .execution, "", "", some "then"⟩) (by decide) rfl <|
      .cons (e := ⟨"e3", 2, 3, .execution, "", "", some "then"⟩) (by decide) rfl <|
        .cons (e := ⟨"e5", 3, 5, .execution, "", "", none⟩) (by decide) rfl .nil⟩
  have hthrough : ∀ entry ∈ g.entryPoints, ∀ es, g.Path entry es 5 →
      ∃ e ∈ es, FlowGraph.InBranch 1 thenLabels e := by
    intro entry hentry es hpath
    have hentries : g.entryPoints = [1] := by decide
    rw [hentries, List.mem_singleton] at hentry
    exact hpath.exists_inBranch (P := (· ∈ [1, 6, 7])) (by decide) (by simp [hentry]) (by decide)
  exact ⟨⟨hseparated, hbranch, hreached, hthrough⟩,
    branch_is_entered_inside_its_arm unanswered () nestedMeeting .standard (.standard .standard) []
      1 5 .thenArm thenLabels (by decide) hseparated hbranch hreached hthrough⟩

end Generator

end FlowScript
