import FlowScript.Proofs.Control
import FlowScript.Proofs.Sources
import FlowScript.Proofs.Turns

/-!
# Nodes that several ways out of a conditional lead to

A conditional is left by its first branch, by its second branch, or past its block. A node that the
flow can come to on two of these ways waits behind a barrier until the block is closed, and is
entered after that. Barriers hold back only the flow: a node that reads the waiting node inside a
branch would enter it there, and so the nodes of one branch alone must not read it. An edge whose
target the first branch leads to as well is not counted, so that no target may be led to twice.
-/

namespace FlowScript

open Relation (ReflTransGen TransGen)

/-- The ways out of a conditional. -/
inductive Lane where
  | yes
  | no
  | after
deriving DecidableEq, Repr

/-- Whether an edge with some label takes a way out of a conditional: the labels of a branch lead into
it, and all other edges lead past the block. -/
def Lane.takes : Lane → Option String → Bool
  | .yes, label => label.any (Text.labelIn thenLabels)
  | .no, label => label.any (Text.labelIn elseLabels)
  | .after, label =>
    !label.any (Text.labelIn thenLabels) && !label.any (Text.labelIn elseLabels)

namespace FlowGraph

variable {g : FlowGraph} {c w : Nat}

/-- An execution edge leads from one node to another on a way out. -/
def LeadsBy (g : FlowGraph) (c : Nat) (lane : Lane) (w : Nat) : Prop :=
  ∃ e ∈ g.edges, e.kind = .execution ∧ e.source = c ∧ e.target = w ∧ lane.takes e.label = true

/-- No two ways out of a node have a target in common. -/
def Parted (g : FlowGraph) (c : Nat) : Prop :=
  ∀ lane lane' w, g.LeadsBy c lane w → g.LeadsBy c lane' w → lane = lane'

/-- The first branch leads to its targets. -/
theorem mem_yesTargets : w ∈ g.branchTargets c thenLabels ↔ g.LeadsBy c .yes w :=
  mem_branchTargets

/-- The second branch leads to its targets, none of which the first leads to. -/
theorem Parted.mem_noTargets (h : g.Parted c) :
    w ∈ (g.branchTargets c elseLabels).filter
        (fun u => !(g.branchTargets c thenLabels).contains u) ↔ g.LeadsBy c .no w := by
  rw [List.mem_filter, mem_branchTargets]
  constructor
  · exact fun hw => hw.1
  · intro hw
    refine ⟨hw, ?_⟩
    simp only [List.contains_eq_mem, Bool.not_eq_true', decide_eq_false_iff_not]
    exact fun hyes => Lane.noConfusion (h .no .yes w hw (mem_yesTargets.mp hyes))

/-- An edge takes some way out. -/
theorem exists_lane (h : g.Leads c w) : ∃ lane, g.LeadsBy c lane w := by
  obtain ⟨e, he, hkind, hsource, htarget⟩ := h
  have htakes : ∃ lane : Lane, lane.takes e.label = true := by
    cases hyes : e.label.any (Text.labelIn thenLabels) with
    | true => exact ⟨.yes, hyes⟩
    | false =>
      cases hno : e.label.any (Text.labelIn elseLabels) with
      | true => exact ⟨.no, hno⟩
      | false => exact ⟨.after, by simp [Lane.takes, hyes, hno]⟩
  obtain ⟨lane, hlane⟩ := htakes
  exact ⟨lane, e, he, hkind, hsource, htarget, hlane⟩

/-- A label takes one way out only. -/
theorem lane_unique {label : Option String} {lane lane' : Lane} (h : lane.takes label = true)
    (h' : lane'.takes label = true) : lane = lane' := by
  have hboth (hyes : Lane.yes.takes label = true) : Lane.no.takes label = false := by
    obtain ⟨l, rfl, hl⟩ := Option.any_eq_true _ _ |>.mp hyes
    rw [Lane.takes, Option.any_some, labelIn_elseLabels hl]
  cases lane <;> cases lane' <;> simp_all [Lane.takes]

/-- No two ways out have a target in common if edges to one target have one label. -/
theorem parted_of_edges (h : ∀ e ∈ g.edges, ∀ e' ∈ g.edges, e.source = c → e'.source = c →
    e.target = e'.target → e.label = e'.label) : g.Parted c := by
  rintro lane lane' w ⟨e, he, -, hsource, htarget, htakes⟩ ⟨e', he', -, hsource', htarget', htakes'⟩
  rw [h e he e' he' hsource hsource' (htarget.trans htarget'.symm)] at htakes
  exact lane_unique htakes htakes'

/-- A way out follows execution edges. -/
theorem LeadsBy.leads {lane : Lane} (h : g.LeadsBy c lane w) : g.Leads c w := by
  obtain ⟨e, he, hkind, hsource, htarget, -⟩ := h
  exact ⟨e, he, hkind, hsource, htarget⟩

end FlowGraph

/-- Nothing that happens from `d` to `e` enters the node or belongs to its lines. -/
def Draft.Untouched (v : Nat) (d e : Draft) : Prop :=
  ∃ new, e.trace = d.trace ++ new ∧ ∀ x ∈ new, x.entered? ≠ some v ∧ x.origin? ≠ some v

namespace Draft.Untouched

variable {v : Nat} {d e f : Draft}

/-- Nothing happens. -/
theorem of_trace (h : e.trace = d.trace) : Untouched v d e :=
  ⟨[], h.trans (List.append_nil _).symm, by simp⟩

/-- Work after work. -/
theorem trans (h : Untouched v d e) (h' : Untouched v e f) : Untouched v d f := by
  obtain ⟨new, htrace, hnew⟩ := h
  obtain ⟨new', htrace', hnew'⟩ := h'
  refine ⟨new ++ new', by rw [htrace', htrace, List.append_assoc], fun x hx => ?_⟩
  exact (List.mem_append.mp hx).elim (hnew x) (hnew' x)

/-- Entering another node. -/
theorem enter {u : Nat} (hne : u ≠ v) (d : Draft) : Untouched v d (d.enter u) :=
  ⟨_, rfl, by simpa [Event.entered?, Event.origin?] using hne⟩

/-- A line of another node. -/
theorem write {u : Nat} (hne : u ≠ v) (d : Draft) (text : String) :
    Untouched v d (d.write (some u) text) :=
  ⟨_, rfl, by simpa [Event.entered?, Event.origin?] using hne⟩

end Draft.Untouched

namespace Job

variable {job : Job} {d e : Draft} {b : Block} {c v : Nat}

/-- The flow can come to a node on a way out of another, through nodes that have not been entered and
are not behind a barrier. -/
def Comes (job : Job) (d : Draft) (c : Nat) (lane : Lane) (v : Nat) : Prop :=
  ∃ w, job.graph.LeadsBy c lane w ∧ ¬ d.Meets w ∧
    ReflTransGen (fun a b => job.graph.Leads a b ∧ ¬ d.Meets b) w v

/-- The flow region of the targets of a way out is what the flow can come to on it. -/
theorem mem_flowRegion_iff_comes (hg : job.graph.WellFormed) {lane : Lane} {targets : List Nat}
    (htargets : ∀ w, w ∈ targets ↔ job.graph.LeadsBy c lane w) :
    v ∈ job.flowRegion d targets ↔ job.Comes d c lane v := by
  have hadmits (w : Nat) :
      (!d.entered.contains w && !d.barriers.contains w) = true ↔ ¬ d.Meets w := by
    simp [Draft.Meets]
  rw [mem_flowRegion hg fun w hw => (hg.leads_lt ((htargets w).mp hw).leads).2]
  simp only [Reachable, Comes, htargets, hadmits, FlowGraph.mem_successors]

/-- What the flow can come to on two ways out of a conditional is shared by the regions of its
block. -/
theorem shared_of_comes (hg : job.graph.WellFormed) (hparted : job.graph.Parted c) {n : Node}
    {s : Draft} (hblock : job.conditionalBlock? s c n = some (b, e)) {lane lane' : Lane}
    (hne : lane ≠ lane') (hv : job.Comes d c lane v) (hv' : job.Comes d c lane' v) :
    shared (job.regions d b) v = true := by
  obtain ⟨-, -, -, ⟨harms, hrest⟩, -⟩ := conditionalBlock?_eq_some hblock
  have hyes (w : Nat) := @FlowGraph.mem_yesTargets job.graph c w
  have hno (w : Nat) := @FlowGraph.Parted.mem_noTargets job.graph c w hparted
  have hafter (w : Nat) : w ∈ b.rest ↔ job.graph.LeadsBy c .after w := by
    rw [hrest, mem_unclaimed, List.mem_append, hyes, hno, FlowGraph.mem_successors]
    constructor
    · intro hw
      obtain ⟨lane, hlane⟩ := FlowGraph.exists_lane hw.1
      cases lane with
      | yes => exact absurd (.inl hlane) hw.2
      | no => exact absurd (.inr hlane) hw.2
      | after => exact hlane
    · intro hw
      refine ⟨hw.leads, ?_⟩
      rintro (hother | hother)
      · exact Lane.noConfusion (hparted _ _ w hother hw)
      · exact Lane.noConfusion (hparted _ _ w hother hw)
  generalize job.graph.branchTargets c thenLabels = yes at harms hyes hno
  generalize (job.graph.branchTargets c elseLabels).filter _ = no at harms hno
  -- the region of each way out
  have hregion {lane : Lane} {targets : List Nat}
      (htargets : ∀ w, w ∈ targets ↔ job.graph.LeadsBy c lane w) (hv : job.Comes d c lane v) :
      v ∈ job.flowRegion d targets :=
    (mem_flowRegion_iff_comes hg htargets).mpr hv
  have hregions : job.regions d b = (job.flowRegion d yes ::
      if no.isEmpty then [] else [job.flowRegion d no]) ++ [job.flowRegion d b.rest] := by
    rw [regions, harms]
    split <;> rfl
  have hnonempty (hv : job.Comes d c .no v) : no.isEmpty = false := by
    obtain ⟨w, hw, -⟩ := hv
    simpa using List.ne_nil_of_mem ((hno w).mpr hw)
  have hyesNo (hv : job.Comes d c .yes v) (hv' : job.Comes d c .no v) :
      shared (job.regions d b) v = true := by
    rw [hregions, hnonempty hv']
    exact shared_iff.mpr ⟨_, _, by simp, hregion hyes hv, hregion hno hv'⟩
  have hyesAfter (hv : job.Comes d c .yes v) (hv' : job.Comes d c .after v) :
      shared (job.regions d b) v = true := by
    rw [hregions]
    exact shared_iff.mpr ⟨_, _, by simp, hregion hyes hv, hregion hafter hv'⟩
  have hnoAfter (hv : job.Comes d c .no v) (hv' : job.Comes d c .after v) :
      shared (job.regions d b) v = true := by
    rw [hregions, hnonempty hv]
    exact shared_iff.mpr ⟨_, _, by simp, hregion hno hv, hregion hafter hv'⟩
  cases lane with
  | yes =>
    cases lane' with
    | yes => exact absurd rfl hne
    | no => exact hyesNo hv hv'
    | after => exact hyesAfter hv hv'
  | no =>
    cases lane' with
    | yes => exact hyesNo hv' hv
    | no => exact absurd rfl hne
    | after => exact hnoAfter hv hv'
  | after =>
    cases lane' with
    | yes => exact hyesAfter hv' hv
    | no => exact hnoAfter hv' hv
    | after => exact absurd rfl hne

end Job

/-- A node that entering values still has to enter. -/
def Task.Awaited (job : Job) (d : Draft) (u : Nat) : Task → Prop
  | .value v => v ∉ d.entered ∧ job.Awaits d v u
  | .values vs => ∃ v ∈ vs, v ∉ d.entered ∧ job.Awaits d v u
  | _ => True

/-- A node is entered after the block of a conditional: when it is, the first arm has been closed and
no arm of the conditional is opened or closed any more, and before that nothing is entered or written
for the node. -/
def EnteredAfter (c v : Nat) (trace : List Event) : Prop :=
  ∃ before after, trace = before ++ after ∧ .closed c .thenArm ∈ before ∧
    (∀ x ∈ before, x.entered? ≠ some v ∧ x.origin? ≠ some v) ∧
    .enter v ∈ after ∧ ∀ x ∈ after, x.owner? ≠ some c

namespace Job

variable {job : Job} {d e f : Draft} {b : Block} {c v : Nat}

/-- Entering values enters only what they still have to enter. -/
theorem Emits.awaited {t : Task} (h : Emits job t d e) :
    ∀ u ∈ e.entered, u ∈ d.entered ∨ t.Awaited job d u := by
  induction h with
  | value_skip | values_nil => exact fun u hu => .inl hu
  | @value_enter v d e hnew hdeps ih =>
    intro u hu
    rw [writeAlone_entered] at hu
    rcases ih u hu with hin | ⟨w, hw, hwnew, hawaits⟩
    · rcases Draft.mem_enter.mp hin with hin | rfl
      · exact .inl hin
      · exact .inr ⟨hnew, .refl⟩
    · have hsame : job.Awaits d w u := hawaits.mono (List.subset_append_left _ _)
      have hfirst : w ∉ d.entered := fun hin => hwnew (Draft.mem_enter.mpr (.inl hin))
      exact .inr ⟨hnew, hsame.head ⟨FlowGraph.mem_dependencies.mp hw, hfirst⟩⟩
  | @values_cons v vs d e f hfirst hrest ih ih' =>
    intro u hu
    rcases ih' u hu with hin | ⟨w, hw, hnew, hawaits⟩
    · exact (ih u hin).imp_right fun hawaited => ⟨v, List.mem_cons_self, hawaited⟩
    · exact .inr ⟨w, List.mem_cons_of_mem _ hw, fun hin => hnew (hfirst.extends.subset hin),
        hawaits.mono hfirst.extends.subset⟩
  | _ => exact fun u _ => .inr trivial

/-- What is computed ahead of a block takes no part in the flow of execution. -/
theorem Emits.hoists_dataOnly (hg : job.graph.WellFormed) {owner : Nat} {needs : List (List Nat)}
    {order : List Nat} (h : Emits job (.hoists owner needs order) d e)
    (hneeds : ∀ r ∈ needs, ∀ v ∈ r, job.graph.isDataOnly v = true) :
    ∀ u ∈ e.entered, u ∈ d.entered ∨ job.graph.isDataOnly u = true := by
  induction order generalizing d with
  | nil =>
    cases h
    exact fun u hu => .inl hu
  | cons w order ih =>
    cases h with
    | hoists_leave _ hrest => exact ih hrest
    | hoists_take hshared hhoistable hfirst hrest =>
      intro u hu
      rcases ih hrest u hu with hin | hdata
      · refine (hfirst.awaited u hin).imp_right fun hawaited => ?_
        cases hawaited.2 with
        | refl =>
          obtain ⟨r, hr, hw⟩ := exists_of_shared hshared
          exact hneeds r hr w hw
        | tail hbefore hlast =>
          exact (reads_of_hoistable hg hhoistable hbefore u hlast.1).2.resolve_left hlast.2
      · exact .inr hdata

/-- Work that does not enter a node, and is not for it, leaves it untouched. -/
theorem Emits.untouched {t : Task} (h : Emits job t d e) (hv : v ∉ e.entered)
    (ht : ∀ b, t ≠ .block v b) : Draft.Untouched v d e := by
  obtain ⟨new, htrace⟩ := h.extends.trace
  have htreats := (h.treats (S := fun _ => True) (v := v) fun _ _ => trivial).treats ht
  refine ⟨new, htrace.symm, fun x hx => ⟨fun hentered => ?_, fun horigin => ?_⟩⟩
  · obtain ⟨added, hadded, -, -, hentries⟩ := h.extends.entered
    rw [← htrace, entries, List.filterMap_append] at hentries
    have hin : v ∈ added := by
      rw [← List.append_cancel_left hentries]
      exact List.mem_filterMap.mpr ⟨x, hx, hentered⟩
    exact hv (hadded ▸ List.mem_append_right _ hin)
  · cases htreats with
    | rests _ hlines =>
      rw [← htrace, ownLines, List.filter_append] at hlines
      have hnone := List.append_right_eq_self.mp hlines
      exact List.filter_eq_nil_iff.mp hnone x hx (by simpa using horigin)
    | writes _ hin => exact hv hin

/-- The arms of a block are closed. -/
theorem Emits.closed {owner : Nat} {arms : List (Arm × List Nat)}
    (h : Emits job (.arms owner arms) d e) :
    ∃ new, e.trace = d.trace ++ new ∧ ∀ x ∈ arms, .closed owner x.1 ∈ new := by
  induction arms generalizing d with
  | nil =>
    cases h
    exact ⟨[], (List.append_nil _).symm, by simp⟩
  | cons x rest ih =>
    cases h with
    | @arms_cons _ arm _ _ _ s _ harm hrest =>
      obtain ⟨filled, hfilled⟩ := harm.extends.trace
      obtain ⟨pass, hended, -⟩ := Draft.endArm_trace owner arm (d.openArm owner arm) s
      obtain ⟨more, hmore, hclosed⟩ := ih hrest
      rw [Draft.nextArm_trace, hended, ← hfilled] at hmore
      refine ⟨_, hmore.trans (by simp only [Draft.openArm, List.append_assoc]; rfl), ?_⟩
      intro y hy
      rcases List.mem_cons.mp hy with rfl | hy
      · simp
      · simp [hclosed y hy]

/-- A node that a block holds back has not been entered. -/
theorem held_new : ∀ v ∈ job.held d b, v ∉ d.entered := by
  intro v hv
  obtain ⟨r, hr, hvr⟩ := exists_of_mem_joins (List.mem_filter.mp hv).1
  rcases mem_regions.mp hr with rfl | ⟨x, -, rfl⟩
  · exact (flowRegion_free hvr).1
  · exact (flowRegion_free hvr).1

/-- The nodes of the arms of a block that the block does not hold back. -/
def InArms (job : Job) (d : Draft) (b : Block) (m : Nat) : Prop :=
  (∃ x ∈ b.arms, m ∈ job.flowRegion d x.2) ∧ m ∉ job.held d b

/-- The arms of a block do not enter a node that is held back, unless one of their nodes reads it. -/
theorem Emits.arms_not_mem (hg : job.graph.WellFormed)
    (htargets : ∀ x ∈ b.arms, ∀ w ∈ x.2, w < job.graph.size)
    (h : Emits job (.arms c b.arms) e f) (hentered : d.entered ⊆ e.entered)
    (hbarriers : e.barriers = d.barriers ++ job.held d b) (hnew : v ∉ e.entered)
    (hheld : v ∈ job.held d b) (hunread : ∀ m, job.InArms d b m → ¬ TransGen job.graph.Feeds v m) :
    v ∉ f.entered := by
  intro hin
  have hmeets {w : Nat} (hfree : ¬ e.Meets w) : ¬ d.Meets w ∧ w ∉ job.held d b := by
    simp only [Draft.Meets, hbarriers, List.mem_append, not_or] at hfree
    exact ⟨not_or.mpr ⟨fun hin => hfree.1 (hentered hin), hfree.2.1⟩, hfree.2.2⟩
  -- the arms come only to their own nodes, and read only for them
  have hspread : Spread job (e.entered ++ e.barriers)
      (fun u => ∃ m, job.InArms d b m ∧ TransGen job.graph.Feeds u m)
      (fun w => job.InArms d b w ∨ e.Meets w) := by
    have hold {w : Nat} (hw : w ∉ e.entered ++ e.barriers) : ¬ e.Meets w :=
      fun hmet => hw (List.mem_append.mpr hmet)
    refine ⟨?_, ?_, ?_⟩
    · rintro u ⟨m, hm, hfeeds⟩ w hw
      exact ⟨m, hm, hfeeds.head (FlowGraph.mem_dependencies.mp hw)⟩
    · intro w hw hwnew u hu
      exact ⟨w, hw.resolve_right (hold hwnew), .single (FlowGraph.mem_dependencies.mp hu)⟩
    · intro u hu hunew w hw
      obtain ⟨⟨x, hx, hux⟩, -⟩ := hu.resolve_right (hold hunew)
      refine or_iff_not_imp_right.mpr fun hfree => ?_
      obtain ⟨hd, hwheld⟩ := hmeets hfree
      exact ⟨⟨x, hx, mem_flowRegion_of_leads hg (htargets x hx) hux
        (FlowGraph.mem_successors.mp hw) hd⟩, hwheld⟩
  have htask : (Task.arms c b.arms).Of (fun u => ∃ m, job.InArms d b m ∧
      TransGen job.graph.Feeds u m) (fun w => job.InArms d b w ∨ e.Meets w) := by
    intro x hx w hw
    refine or_iff_not_imp_right.mpr fun hfree => ?_
    obtain ⟨hd, hwheld⟩ := hmeets hfree
    exact ⟨⟨x, hx, mem_flowRegion_of_target hg (htargets x hx) hw hd⟩, hwheld⟩
  rcases h.enters_free hspread (fun u hu => List.mem_append.mp hu) htask v hin with
    hin | ⟨m, hm, hfeeds⟩ | ⟨-, hfree⟩
  · exact hnew hin
  · exact hunread m hm hfeeds
  · exact hfree (hbarriers ▸ List.mem_append_right _ hheld)

/-- A node of the flow that a block holds back is entered after the block, unless a node of the arms
reads it. -/
theorem Emits.enteredAfter (hg : job.graph.WellFormed)
    (htargets : ∀ x ∈ b.arms, ∀ w ∈ x.2, w < job.graph.size) (h : Emits job (.block c b) d e)
    (hc : c ∈ d.entered) (hthen : ∃ targets, (.thenArm, targets) ∈ b.arms)
    (hports : job.graph.isDataOnly v = false) (hheld : v ∈ job.held d b)
    (hunread : ∀ m, job.InArms d b m → ¬ TransGen job.graph.Feeds v m) {start : Draft}
    (hstart : Draft.Untouched v start d) :
    ∃ new, e.trace = start.trace ++ new ∧ EnteredAfter c v new := by
  cases h with
  | @block _ _ _ s f g _ hhoists harms hrest hlast =>
    have hnew : v ∉ d.entered := held_new v hheld
    have hne : c ≠ v := fun heq => hnew (heq ▸ hc)
    have hs : v ∉ s.entered := by
      intro hin
      rcases hhoists.hoists_dataOnly hg regionNeeds_isDataOnly v hin with hin | hdata
      · exact hnew hin
      · simp [hports] at hdata
    have hf : v ∉ f.entered :=
      harms.arms_not_mem hg htargets hhoists.extends.subset
        (congrArg (· ++ _) hhoists.extends.barriers) hs hheld hunread
    have hcs : c ∈ s.entered := hhoists.extends.subset hc
    have hcf : c ∈ f.entered := harms.extends.subset hcs
    have huntouched : Draft.Untouched v start f :=
      (((hstart.trans (hhoists.untouched hs fun _ => Task.noConfusion)).trans
        (.of_trace rfl)).trans (.write hne (s.hold (job.held d b)) b.header)).trans
        (harms.untouched hf fun _ => Task.noConfusion)
    obtain ⟨before, hbefore, hsilent⟩ := huntouched
    obtain ⟨after, hafter, hquiet⟩ := (hrest.quiet (v := c) hcf id).trans
      (hlast.quiet (hrest.extends.subset hcf) id)
    have hlastExt := hrest.extends.trans hlast.extends
    refine ⟨before ++ after, ?_, before, after, rfl, ?_, hsilent, ?_, hquiet⟩
    · rw [hafter, ← List.append_assoc, ← hbefore]
      rfl
    · -- the first arm is closed in the part of the trace that the arms write
      obtain ⟨targets, hin⟩ := hthen
      obtain ⟨inside, hinside, hclosed⟩ := harms.closed
      obtain ⟨earlier, hearlier⟩ := hstart
      obtain ⟨hoisted, hhoisted⟩ := hhoists.extends.trace
      have hsplit : start.trace ++ before = start.trace ++ (earlier ++ (hoisted ++
          (.line (some c) s.level b.header :: inside))) := by
        rw [← hbefore, hinside]
        simp [Draft.write, Draft.hold, ← hhoisted, hearlier.1]
      simp [List.append_cancel_left hsplit, hclosed _ hin]
    · refine hlastExt.enter_mem hafter ?_ hf
      have hbarriers : g.barriers = d.barriers := by
        have hfree : ∀ u ∈ job.held d b, u ∉ s.barriers := hhoists.extends.barriers ▸ held_free
        have hletGo := Draft.letGo_extends hfree
          ((Draft.write_extends _ _ _).trans harms.extends)
        exact (hrest.extends.barriers.trans hletGo.barriers).trans hhoists.extends.barriers
      exact hlast.flows_mem v hheld (hbarriers ▸ held_free v hheld)

/-- What the flow can come to has not been entered and is not behind a barrier. -/
theorem Comes.free {lane : Lane} (h : job.Comes d c lane v) : ¬ d.Meets v := by
  obtain ⟨w, -, hfree, hpath⟩ := h
  cases hpath with
  | refl => exact hfree
  | tail _ hlast => exact hlast.2

/-- What the flow can come to is a node of the graph. -/
theorem Comes.lt (hg : job.graph.WellFormed) {lane : Lane} (h : job.Comes d c lane v) :
    v < job.graph.size := by
  obtain ⟨w, hw, -, hpath⟩ := h
  cases hpath with
  | refl => exact (hg.leads_lt hw.leads).2
  | tail _ hlast => exact (hg.leads_lt hlast.1).2

/-- What the flow can come to depends only on what has been entered and what is held back. -/
theorem Comes.congr {s : Draft} (halike : Draft.Alike d s) {lane : Lane} :
    job.Comes s c lane v ↔ job.Comes d c lane v := by
  simp only [Comes, Draft.Meets, halike.entered, halike.barriers]

section Conditional

variable {n : Node} {s : Draft} (hjob : job.WellFormed) (hparted : job.graph.Parted c)
  (hblock : job.conditionalBlock? s c n = some (b, e))
include hjob hparted hblock

/-- The block of a conditional holds back what the flow can come to on two ways out. -/
theorem mem_held_of_comes {lane lane' : Lane} (hne : lane ≠ lane') (hv : job.Comes d c lane v)
    (hv' : job.Comes d c lane' v) : v ∈ job.held d b := by
  refine List.mem_filter.mpr ⟨List.mem_filter.mpr ⟨?_, ?_⟩, ?_⟩
  · exact hjob.mem_order.mpr (hv.lt hjob.graph)
  · exact shared_of_comes hjob.graph hparted hblock hne hv hv'
  · simpa using (not_or.mp hv.free).2

/-- The flow comes to the nodes of an arm on the way out that the arm stands for. -/
theorem exists_lane_of_inArms {m : Nat} (hm : job.InArms d b m) :
    ∃ lane, lane ≠ .after ∧ job.Comes d c lane m ∧ ∀ lane', job.Comes d c lane' m → lane' = lane := by
  obtain ⟨⟨x, hx, hmx⟩, hheld⟩ := hm
  obtain ⟨-, -, -, ⟨harms, -⟩, -⟩ := conditionalBlock?_eq_some hblock
  have hlane : ∃ lane : Lane, lane ≠ .after ∧ ∀ w, w ∈ x.2 ↔ job.graph.LeadsBy c lane w := by
    rw [harms, List.mem_cons] at hx
    rcases hx with rfl | hx
    · exact ⟨.yes, Lane.noConfusion, fun w => FlowGraph.mem_yesTargets⟩
    · split at hx
      · cases hx
      · obtain rfl := List.mem_singleton.mp hx
        exact ⟨.no, Lane.noConfusion, fun w => hparted.mem_noTargets⟩
  obtain ⟨lane, hafter, htargets⟩ := hlane
  have hcomes := (mem_flowRegion_iff_comes hjob.graph htargets).mp hmx
  refine ⟨lane, hafter, hcomes, fun lane' hcomes' => ?_⟩
  by_contra hne
  exact hheld (mem_held_of_comes hjob hparted hblock hne hcomes' hcomes)

end Conditional

end Job

namespace Generator

variable {σ : Type}

/-- Let a conditional with an input be entered in whatever draft, and let no two of its ways out have
a target in common. If the flow can then come to a node of the flow of execution on two of these ways,
and what reads the node, directly or through other nodes, is not in one branch alone, then the node is
entered after the block of the conditional has been closed. -/
theorem joins_are_entered_after_the_block (ask : PatternSource σ) (s : σ) (doc : Document)
    (settings : Settings) (conversions : Conversions) (known : List (String × Option Pattern))
    (d : Draft) (c v : Nat) (n : Node) (lane lane' : Lane)
    (hnode : (FlowGraph.ofDocument doc).node? c = some n) (hkind : n.kind = .conditional)
    (hinputs : n.inputs ≠ []) (hfree : ¬ d.Meets c)
    (hparted : (FlowGraph.ofDocument doc).Parted c)
    (hports : (FlowGraph.ofDocument doc).hasExecutionPorts v = true) (hne : lane ≠ lane') :
    let gen : Generator := ⟨.ofDocument doc, settings, conversions, known⟩
    let job := gen.fittedJob ask s
    job.Comes (job.enter c d) c lane v → job.Comes (job.enter c d) c lane' v →
    (∀ m l, l ≠ .after → job.Comes (job.enter c d) c l m → TransGen job.graph.Feeds v m →
      ∃ l', l' ≠ l ∧ job.Comes (job.enter c d) c l' m) →
    ∃ new, (job.walk (.flow c) d).trace = d.trace ++ new ∧ EnteredAfter c v new := by
  intro gen job hv hv' hunread
  have hg : gen.graph.WellFormed := FlowGraph.ofDocument_wellFormed doc
  have hjob : job.WellFormed := fittedJob_wellFormed ask hg s
  have hclt : c < job.graph.size := (List.getElem?_eq_some_iff.mp hnode).1
  obtain ⟨hnew, hbarrier⟩ := not_or.mp hfree
  have hflow : Job.Emits job (.flow c) d (job.walk (.flow c) d) :=
    (@Job.walks_iff job d _ hjob (.flow c) hclt).mpr rfl
  obtain ⟨b, r, hblock?, hblock⟩ := @Job.exists_conditionalBlock job c n hnode hkind hinputs (job.enter c d)
  have halike := Job.block?_alike hblock?
  obtain ⟨-, -, -, ⟨harms, -⟩, -⟩ := Job.conditionalBlock?_eq_some hblock
  generalize job.walk (.flow c) d = f at hflow ⊢
  cases hflow with
  | flow_skip hskip => exact absurd hskip (not_or.mpr ⟨hbarrier, hnew⟩)
  | flow_plain _ _ hdeps hnone | flow_scope _ _ hdeps hnone =>
    rw [hdeps.unique (Job.enter_emits hg c d)] at hnone
    cases hnone.symm.trans hblock?
  | flow_block _ _ hdeps hsome hemits =>
    obtain rfl := hdeps.unique (Job.enter_emits hg c d)
    obtain ⟨rfl, rfl⟩ := Prod.mk.inj (Option.some.inj (hsome.symm.trans hblock?))
    have hdepsSub := hdeps.extends.subset
    have hc : c ∈ (job.enter c d).entered := hdepsSub (Draft.mem_enter.mpr (.inr rfl))
    have hvnew : v ∉ (job.enter c d).entered := (not_or.mp hv.free).1
    have hcv : c ≠ v := fun heq => hvnew (heq ▸ hc)
    -- until the block is written, only the conditional and what it reads are entered
    have hstart : Draft.Untouched v d _ :=
      ((Draft.Untouched.enter hcv d).trans
        (hdeps.untouched hvnew fun _ => Task.noConfusion)).trans (.of_trace halike.trace)
    refine hemits.enteredAfter hg (fun x hx w hw => ?_) (halike.entered ▸ hc)
      ⟨_, harms ▸ List.mem_cons_self⟩ (FlowGraph.isDataOnly_of_ports hports) ?_ (fun m hm hreads => ?_)
      hstart
    · have hw := (Job.block?_targets hsome w).mpr (.inr ⟨x, hx, hw⟩)
      exact (hg.leads_lt (FlowGraph.mem_successors.mp hw)).2
    · exact Job.mem_held_of_comes hjob hparted hblock hne ((Job.Comes.congr halike).mpr hv)
        ((Job.Comes.congr halike).mpr hv')
    · obtain ⟨l, hafter, hcomes, honly⟩ := Job.exists_lane_of_inArms hjob hparted hblock hm
      obtain ⟨l', hother, hcomes'⟩ :=
        hunread m l hafter ((Job.Comes.congr halike).mp hcomes) hreads
      exact hother (honly l' ((Job.Comes.congr halike).mpr hcomes'))

/-- What both branches of the outer conditional come to is entered after its block, also though one
way to it leads through the block inside the first branch. -/
theorem nestedMeeting_entered_after :
    let g := FlowGraph.ofDocument nestedMeeting
    let job := (Generator.new g .standard).fittedJob unanswered ()
    (g.Parted 1 ∧ job.Comes (job.enter 1 (.start [])) 1 .yes 7 ∧
      job.Comes (job.enter 1 (.start [])) 1 .no 7) ∧
    ∃ new, (job.walk (.flow 1) (.start [])).trace = (Draft.start []).trace ++ new ∧
      EnteredAfter 1 7 new := by
  intro g job
  have hparted : g.Parted 1 := FlowGraph.parted_of_edges (by decide)
  have hentered : (job.enter 1 (.start [])).entered = [1, 0] := by decide +kernel
  have hbarriers : (job.enter 1 (.start [])).barriers = [] := by decide +kernel
  have hfree {w : Nat} (hw : w ∉ [1, 0]) : ¬ (job.enter 1 (.start [])).Meets w := by
    simpa [Draft.Meets, hentered, hbarriers] using hw
  have hyes : job.Comes (job.enter 1 (.start [])) 1 .yes 7 := by
    refine ⟨2, ⟨⟨"e1", 1, 2, .execution, "", "", some "then"⟩, by decide, rfl, rfl, rfl, by decide⟩,
      hfree (by decide), ?_⟩
    refine .head ⟨⟨⟨"e3", 2, 3, .execution, "", "", some "then"⟩, by decide, rfl, rfl, rfl⟩,
      hfree (by decide)⟩ ?_
    refine .head ⟨⟨⟨"e5", 3, 5, .execution, "", "", none⟩, by decide, rfl, rfl, rfl⟩,
      hfree (by decide)⟩ ?_
    exact .single ⟨⟨⟨"e7", 5, 7, .execution, "", "", none⟩, by decide, rfl, rfl, rfl⟩,
      hfree (by decide)⟩
  have hno : job.Comes (job.enter 1 (.start [])) 1 .no 7 := by
    refine ⟨6, ⟨⟨"e2", 1, 6, .execution, "", "", some "else"⟩, by decide, rfl, rfl, rfl, by decide⟩,
      hfree (by decide), ?_⟩
    exact .single ⟨⟨⟨"e8", 6, 7, .execution, "", "", none⟩, by decide, rfl, rfl, rfl⟩,
      hfree (by decide)⟩
  refine ⟨⟨hparted, hyes, hno⟩, joins_are_entered_after_the_block unanswered () nestedMeeting
    .standard (.standard .standard) [] (.start []) 1 7 _ .yes .no rfl rfl (List.cons_ne_nil _ _)
    (by simp [Draft.Meets, Draft.start]) hparted (by decide) Lane.noConfusion hyes hno ?_⟩
  intro m l _ _ hreads
  have hunread : ∀ e ∈ g.edges, e.kind = .data → e.source ≠ 7 := by decide
  obtain ⟨u, ⟨e, he, hkind, hsource, -⟩, -⟩ := TransGen.head'_iff.mp hreads
  exact absurd hsource (hunread e he hkind)

/-- A conditional both branches of which lead to the same node, besides one of their own. -/
def parallelJoin : Document where
  nodes :=
    [⟨"choice", "choice", none, some .conditional, [⟨"cond", "cond", "bool", false, none⟩], [],
        some true, [], [], none, none⟩,
      ⟨"left", "left", none, some .plain, [], [], some true, [], [], none, none⟩,
      ⟨"right", "right", none, some .plain, [], [], some true, [], [], none, none⟩,
      ⟨"done", "done", none, some .plain, [], [], some true, [], [], none, none⟩]
  edges :=
    [⟨"e1", "choice", "left", none, none, some ⟨some .execution, some "then"⟩⟩,
      ⟨"e2", "choice", "done", none, none, some ⟨some .execution, some "then"⟩⟩,
      ⟨"e3", "choice", "right", none, none, some ⟨some .execution, some "else"⟩⟩,
      ⟨"e4", "choice", "done", none, none, some ⟨some .execution, some "else"⟩⟩]

/-- A node that both branches lead to directly is entered inside the first of them. -/
theorem parallelJoin_entered_inside :
    let g := FlowGraph.ofDocument parallelJoin
    (g.LeadsBy 0 .yes 3 ∧ g.LeadsBy 0 .no 3) ∧
    ∃ d, (Generator.new g .standard).rendering unanswered () = .ok d ∧
      EnteredInside 0 .thenArm 3 d.trace := by
  intro g
  obtain ⟨d, hrendering, htrace⟩ : ∃ d, (Generator.new g .standard).rendering unanswered () = .ok d ∧
      d.trace = [.enter 0, .line (some 0) 0 "if False:", .opened 0 .thenArm, .enter 1, .enter 3,
        .line none 1 "pass", .closed 0 .thenArm, .line none 0 "else:", .opened 0 .elseArm, .enter 2,
        .line none 1 "pass", .closed 0 .elseArm] :=
    exists_rendering (by decide +kernel)
  refine ⟨⟨?_, ?_⟩, d, hrendering, [.enter 0], .line (some 0) 0 "if False:",
    [.enter 1, .enter 3, .line none 1 "pass"], _, htrace, ⟨0, "False", rfl⟩, by simp, by simp⟩
  · exact ⟨⟨"e2", 0, 3, .execution, "", "", some "then"⟩, by decide, rfl, rfl, rfl, by decide⟩
  · exact ⟨⟨"e4", 0, 3, .execution, "", "", some "else"⟩, by decide, rfl, rfl, rfl, by decide⟩

end Generator

end FlowScript
