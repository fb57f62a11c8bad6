import FlowScript.Proofs.Headers
import FlowScript.Proofs.Places
import FlowScript.Proofs.Reading
import FlowScript.Proofs.Sequence

/-!
# Values are computed around the nodes that read them

A value that is computed inside an arm is there only if the arm is run. A block computes ahead what
two of its arms read, or an arm and what runs after the block; so a value that is computed inside an
arm is read by that arm only. Where all that runs after a block has one beginning, this covers all
that is still to come, and a value is computed in an arm only if all its readers are inside the arm.
-/

namespace FlowScript

open Relation (ReflTransGen TransGen)

namespace Job

variable {job : Job} {trace : List Event} {d e f s : Draft} {b : Block} {t : Task}
  {c m u v w : Nat} {ws : List Nat}

/-- The values that a node needs and that have been computed were computed in arms that are open. -/
def InView (job : Job) (trace : List Event) (d : Draft) (m : Nat) : Prop :=
  ∀ u, TransGen job.graph.Feeds u m → u ∈ d.entered → armsAt trace u <+: openArms d.trace

/-- What is still to come behind a node has its values in view. -/
def Sees (job : Job) (trace : List Event) (d : Draft) (w : Nat) : Prop :=
  ∀ m, ReflTransGen job.graph.Leads w m → ¬ d.Meets m → job.InView trace d m

/-- Something that is still to come behind some nodes needs a value. -/
def Wants (job : Job) (d : Draft) (ws : List Nat) (u : Nat) : Prop :=
  ∃ w ∈ ws, ∃ m, ReflTransGen job.graph.Leads w m ∧ ¬ d.Meets m ∧ TransGen job.graph.Feeds u m

/-- No two arms need the same value that has not been computed. -/
def Apart (job : Job) (d : Draft) (xs : List (Arm × List Nat)) : Prop :=
  xs.Pairwise fun x y => ∀ u ∉ d.entered, job.Wants d x.2 u → ¬ job.Wants d y.2 u

/-- What a piece of work is for has its values in view. -/
def Views (job : Job) (trace : List Event) (d : Draft) : Task → Prop
  | .value v => job.InView trace d v
  | .values vs => ∀ v ∈ vs, job.InView trace d v
  | .hoists _ needs _ => ∀ r ∈ needs, ∀ v ∈ r, job.InView trace d v
  | .flow w => job.Sees trace d w
  | .flows ws => ∀ w ∈ ws, job.Sees trace d w
  | .arms _ xs => (∀ x ∈ xs, ∀ w ∈ x.2, job.graph.hasExecutionPorts w = true ∧ job.Sees trace d w) ∧
      job.Apart d xs
  | .block c _ => job.Sees trace d c

/-- The nodes that are entered from one draft to the next are inside of the arms in which what they
read is computed. -/
def Enclosed (job : Job) (trace : List Event) (d e : Draft) : Prop :=
  ∀ n ∈ e.entered, n ∉ d.entered → ∀ u, job.graph.Feeds u n → armsAt trace u <+: armsAt trace n

/-- Nothing is entered. -/
theorem Enclosed.of_entered (h : e.entered = d.entered) : job.Enclosed trace d e :=
  fun _ hn hnew => absurd (h ▸ hn) hnew

/-- Work after work. -/
theorem Enclosed.trans (h : job.Enclosed trace d e) (h' : job.Enclosed trace e f) :
    job.Enclosed trace d f := by
  intro n hn hnew
  by_cases hin : n ∈ e.entered
  · exact h n hin hnew
  · exact h' n hn hin

namespace InView

/-- What a node reads has in view what the node has. -/
theorem of_feeds (h : job.InView trace d m) (hfeeds : TransGen job.graph.Feeds v m) :
    job.InView trace d v :=
  fun u hu => h u (hu.trans hfeeds)

/-- More arms are open. -/
theorem congr (h : job.InView trace d m) (hentered : e.entered = d.entered)
    (harms : openArms d.trace <+: openArms e.trace) : job.InView trace e m :=
  fun u hu hin => (h u hu (hentered ▸ hin)).trans harms

/-- Values that are computed now are in view. -/
theorem values (h : job.InView trace d m) (hemits : Emits job t d e) (ht : t.OnValues)
    (hd : d.Recorded) (htrace : e.trace <+: trace) : job.InView trace e m := by
  intro u hu hin
  rw [hemits.openArms_eq]
  by_cases hold : u ∈ d.entered
  · exact h u hu hold
  · exact ((hemits.armsAt_new hd htrace u hin hold).2 ht) ▸ List.prefix_refl _

/-- A node that is entered now is in view. -/
theorem enter (h : job.InView trace d m) (hd : d.Recorded) (hnew : v ∉ d.entered)
    (htrace : (d.enter v).trace <+: trace) : job.InView trace (d.enter v) m := by
  intro u hu hin
  rw [Draft.openArms_enter]
  rcases Draft.mem_enter.mp hin with hin | rfl
  · exact h u hu hin
  · exact hd.armsAt_enter hnew htrace ▸ List.prefix_refl _

/-- A node and what it reads are in view when they have been entered. -/
theorem read (h : job.InView trace d m) (hd : d.Recorded) (hnew : v ∉ d.entered)
    (hdeps : Emits job (.values (job.graph.dependencies v)) (d.enter v) e)
    (htrace : e.trace <+: trace) : job.InView trace e m :=
  (h.enter hd hnew (hdeps.extends.trace.trans htrace)).values hdeps trivial
    (hd.extends (Draft.enter_extends hnew)) htrace

end InView

/-- Work that makes nothing less met and leaves values in view leaves what is to come in view. -/
theorem Sees.mono (h : job.Sees trace d v) (hpath : ReflTransGen job.graph.Leads v w)
    (hmeets : ∀ m, d.Meets m → e.Meets m) (hview : ∀ m, job.InView trace d m → job.InView trace e m) :
    job.Sees trace e w :=
  fun m hm hunmet => hview m (h m (hpath.trans hm) fun hmet => hunmet (hmeets m hmet))

/-- A node is entered, and then what it reads, in arms in which what they need is in view. -/
theorem enclosed_read (hview : job.InView trace d v) (hd : d.Recorded) (hnew : v ∉ d.entered)
    (hdeps : Emits job (.values (job.graph.dependencies v)) (d.enter v) e)
    (htrace : e.trace <+: trace) (hrest : job.Enclosed trace (d.enter v) e) :
    job.Enclosed trace d e := by
  refine Enclosed.trans (fun n hn hfresh u hfeeds => ?_) hrest
  obtain rfl := (Draft.mem_enter.mp hn).resolve_left hfresh
  have hplace := hd.armsAt_enter hnew (hdeps.extends.trace.trans htrace)
  have hin := hdeps.values_mem u (FlowGraph.mem_dependencies.mpr hfeeds)
  have hsees := hview.read hd hnew hdeps htrace u (.single hfeeds) hin
  rwa [hdeps.openArms_eq, Draft.openArms_enter, ← hplace] at hsees

/-- Only what has been entered, what is held back and the open arms count. -/
theorem Sees.congr (h : job.Sees trace d w) (hentered : e.entered = d.entered)
    (hbarriers : e.barriers = d.barriers) (harms : openArms d.trace <+: openArms e.trace) :
    job.Sees trace e w := by
  refine h.mono .refl (fun m hmet => ?_) fun m hm => hm.congr hentered harms
  rwa [Draft.Meets, hentered, hbarriers]

/-- What a node reads has its values in view when the node has been entered. -/
theorem views_dependencies (hview : job.InView trace d v) (hd : d.Recorded) (hnew : v ∉ d.entered)
    (htrace : (d.enter v).trace <+: trace) :
    job.Views trace (d.enter v) (.values (job.graph.dependencies v)) :=
  fun _ hu => (hview.enter hd hnew htrace).of_feeds (.single (FlowGraph.mem_dependencies.mp hu))

/-- Values are computed in the arms in which what they read is. -/
theorem Emits.values_enclosed (h : Emits job t d e) (ht : t.OnValues) (hd : d.Recorded)
    (htrace : e.trace <+: trace) (hview : job.Views trace d t) : job.Enclosed trace d e := by
  induction h with
  | value_skip | values_nil | hoists_nil => exact .of_entered rfl
  | @value_enter v d e hnew hdeps ih =>
    have hbefore := (writeAlone_extends job v e).trace.trans htrace
    have hinside := ih trivial (hd.extends (Draft.enter_extends hnew)) hbefore
      (views_dependencies hview hd hnew (hdeps.extends.trace.trans hbefore))
    exact (enclosed_read hview hd hnew hdeps hbefore hinside).trans
      (.of_entered (writeAlone_entered job v e))
  | @values_cons v vs d e f hfirst hrest ih ih' =>
    have hbefore := hrest.extends.trace.trans htrace
    refine (ih trivial hd hbefore (hview v List.mem_cons_self)).trans
      (ih' trivial (hd.extends hfirst.extends) htrace fun u hu => ?_)
    exact (hview u (List.mem_cons_of_mem _ hu)).values hfirst trivial hd hbefore
  | @hoists_take owner needs v vs d e f hshared _ hfirst hrest ih ih' =>
    have hbefore := hrest.extends.trace.trans htrace
    obtain ⟨r, hr, hv⟩ := exists_of_shared hshared
    refine (ih trivial hd hbefore (hview r hr v hv)).trans
      (ih' trivial (hd.extends hfirst.extends) htrace fun r hr u hu => ?_)
    exact (hview r hr u hu).values hfirst trivial hd hbefore
  | hoists_leave _ _ ih => exact ih trivial hd htrace hview
  | flow_skip | flow_plain | flow_scope | flow_block | block | flows_nil | flows_cons | arms_nil
  | arms_cons => exact ht.elim

/-- A node that the flow comes to is entered, and then what it reads. -/
theorem Sees.enclosed (h : job.Sees trace d v) (hd : d.Recorded) (hfree : v ∉ d.barriers)
    (hnew : v ∉ d.entered)
    (hdeps : Emits job (.values (job.graph.dependencies v)) (d.enter v) e)
    (htrace : e.trace <+: trace) : job.Enclosed trace d e := by
  have hview : job.InView trace d v := h v .refl (not_or.mpr ⟨hnew, hfree⟩)
  refine enclosed_read hview hd hnew hdeps htrace (hdeps.values_enclosed trivial
    (hd.extends (Draft.enter_extends hnew)) htrace ?_)
  exact views_dependencies hview hd hnew (hdeps.extends.trace.trans htrace)

/-- When a node and what it reads have been entered, what is to come behind the node has its values
in view. -/
theorem Sees.read (h : job.Sees trace d v) (hd : d.Recorded) (hnew : v ∉ d.entered)
    (hdeps : Emits job (.values (job.graph.dependencies v)) (d.enter v) e)
    (htrace : e.trace <+: trace) (hpath : ReflTransGen job.graph.Leads v w) :
    job.Sees trace e w :=
  h.mono hpath (fun _ hmet => (hmet.mono (Draft.enter_extends hnew)).mono hdeps.extends)
    fun _ hm => hm.read hd hnew hdeps htrace

/-- The values that following the flow enters are needed by something behind the nodes that it starts
from. -/
theorem Emits.enters_wanted (h : Emits job t d e) (ht : t.Of (fun _ => False) fun _ => True) :
    ∀ u ∈ e.entered, u ∈ d.entered ∨
      (∃ w, t.Starts w ∧ ∃ m, ReflTransGen job.graph.Leads w m ∧ ¬ d.Meets m ∧
        TransGen job.graph.Feeds u m) ∨ ∃ w, t.Starts w ∧ ReflTransGen job.graph.Leads w u := by
  have hspread : Spread job (d.entered ++ d.barriers)
      (fun u => ∃ w, t.Starts w ∧ ∃ m, ReflTransGen job.graph.Leads w m ∧ ¬ d.Meets m ∧
        TransGen job.graph.Feeds u m)
      (fun v => ∃ w, t.Starts w ∧ ReflTransGen job.graph.Leads w v) := by
    constructor
    · rintro v ⟨w, hw, m, hpath, hunmet, hfeeds⟩ u hu
      exact ⟨w, hw, m, hpath, hunmet, .head (FlowGraph.mem_dependencies.mp hu) hfeeds⟩
    · rintro v ⟨w, hw, hpath⟩ hold u hu
      refine ⟨w, hw, v, hpath, fun hmet => hold (List.mem_append.mpr hmet), ?_⟩
      exact .single (FlowGraph.mem_dependencies.mp hu)
    · rintro v ⟨w, hw, hpath⟩ - x hx
      exact ⟨w, hw, hpath.tail (FlowGraph.mem_successors.mp hx)⟩
  have hof : t.Of (fun u => ∃ w, t.Starts w ∧ ∃ m, ReflTransGen job.graph.Leads w m ∧
      ¬ d.Meets m ∧ TransGen job.graph.Feeds u m)
      (fun v => ∃ w, t.Starts w ∧ ReflTransGen job.graph.Leads w v) := by
    cases t with
    | value => exact ht.elim
    | values => exact fun v hv => (ht v hv).elim
    | hoists => exact fun r hr v hv => (ht r hr v hv).elim
    | flow v => exact ⟨v, rfl, .refl⟩
    | flows vs => exact fun v hv => ⟨v, hv, .refl⟩
    | arms owner xs => exact fun x hx v hv => ⟨v, ⟨x, hx, hv⟩, .refl⟩
    | block owner b => exact fun v hv => ⟨v, hv, .refl⟩
  intro u hu
  exact (h.enters_free hspread (fun v hv => List.mem_append.mp hv) hof u hu).imp_right
    (Or.imp_right And.left)

/-- A node that is read lies behind no node of the flow of execution. -/
theorem not_behind_of_feeds (hsep : job.graph.Separated) (hfeeds : TransGen job.graph.Feeds u m)
    (hw : job.graph.hasExecutionPorts w = true) : ¬ ReflTransGen job.graph.Leads w u := by
  intro hpath
  obtain ⟨x, hx, -⟩ := TransGen.head'_iff.mp hfeeds
  have hnone := hsep.sources u x hx
  rcases ReflTransGen.cases_tail hpath with rfl | ⟨y, -, hlast⟩
  · exact Bool.false_ne_true (hnone.symm.trans hw)
  · exact Bool.false_ne_true (hnone.symm.trans (hsep.ends y u hlast).2)

/-- A node that is read takes no part in the flow of execution. -/
theorem isDataOnly_of_feeds (hjob : job.Sequential) (hfeeds : job.graph.Feeds u v) :
    job.graph.isDataOnly u = true := by
  obtain ⟨n, hn⟩ := FlowGraph.exists_node (hjob.wellFormed.graph.feeds_lt hfeeds).1
  have hports := hjob.separated.sources u v hfeeds
  rw [FlowGraph.hasExecutionPorts, hn] at hports
  rw [FlowGraph.isDataOnly, hn]
  simpa using hports

/-- Where data and execution are kept apart, every value can be computed ahead of a block. -/
theorem Sequential.hoistable (hjob : job.Sequential) (hc : job.graph.hasExecutionPorts c = true)
    (d : Draft) (v : Nat) : job.hoistable d c v = true := by
  refine List.all_eq_true.mpr fun u _ => List.all_eq_true.mpr fun w hw => ?_
  have hfeeds := FlowGraph.mem_dependencies.mp hw
  have hne : w ≠ c := by
    rintro rfl
    exact Bool.false_ne_true ((hjob.separated.sources w u hfeeds).symm.trans hc)
  simp [hne, isDataOnly_of_feeds hjob hfeeds]

/-- A block computes ahead what its regions share. -/
theorem Emits.hoists_mem {needs : List (List Nat)} {order : List Nat}
    (h : Emits job (.hoists c needs order) d e) (hhoistable : ∀ d, job.hoistable d c v = true)
    (hshared : shared needs v = true) (hv : v ∈ order) : v ∈ e.entered := by
  induction order generalizing d with
  | nil => cases hv
  | cons w order ih =>
    cases h with
    | hoists_take _ _ hfirst hrest =>
      rcases List.mem_cons.mp hv with rfl | hv
      · exact hrest.extends.subset (Emits.values_mem (.values_cons hfirst .values_nil) v (by simp))
      · exact ih hrest hv
    | hoists_leave hleave hrest =>
      rcases List.mem_cons.mp hv with rfl | hv
      · exact absurd (by simp [hshared, hhoistable]) hleave
      · exact ih hrest hv

/-- A region needs all values that its nodes read, directly or through values that have not been
computed. -/
theorem Sequential.mem_dataNeeds (hjob : job.Sequential) (hread : ∀ u, job.ReadFirst u d)
    {region : List Nat} (hports : ∀ m ∈ region, job.graph.hasExecutionPorts m = true)
    (hm : m ∈ region) (hfeeds : TransGen job.graph.Feeds u m) (hnew : u ∉ d.entered) :
    u ∈ job.dataNeeds d region := by
  have hg := hjob.wellFormed.graph
  have hlt (v : Nat) : ∀ w ∈ job.graph.dependencies v, w < job.graph.size := fun w hw =>
    (hg.feeds_lt (FlowGraph.mem_dependencies.mp hw)).1
  have hadmits {u v : Nat} (hfeeds : job.graph.Feeds u v) (hnew : u ∉ d.entered) :
      (!d.entered.contains u && !region.contains u && job.graph.isDataOnly u) = true := by
    have hout : u ∉ region := fun hin =>
      Bool.false_ne_true ((hjob.separated.sources u v hfeeds).symm.trans (hports u hin))
    simp [hnew, hout, isDataOnly_of_feeds hjob hfeeds]
  refine (mem_reach (fun v _ => hlt v) (fun w hw => ?_) u).mpr ?_
  · obtain ⟨v, -, hv⟩ := List.mem_flatMap.mp hw
    exact hlt v w hv
  · -- along the values between the two, from the node of the region back
    induction hfeeds using TransGen.head_induction_on with
    | single hfeeds =>
      exact ⟨_, List.mem_flatMap.mpr ⟨m, hm, FlowGraph.mem_dependencies.mpr hfeeds⟩,
        hadmits hfeeds hnew, .refl⟩
    | @head u x hfeeds _ ih =>
      have hx : x ∉ d.entered := fun hin => hnew (hread u x hin hfeeds)
      exact (ih hx).tail (FlowGraph.mem_dependencies.mpr hfeeds) (hadmits hfeeds hnew)

namespace Divided

section Phases

variable (hjob : job.Sequential) (h : job.Divided d c b) (hd : job.Sorted d)
  (hread : ∀ u, job.ReadFirst u d)
  (hhoists : Emits job (.hoists c (job.regionNeeds d b) job.order) d s)
include hjob h

omit hjob in
/-- The regions of a block hold what lies behind its node and is not met. -/
theorem regions_behind : ∀ r ∈ job.regions d b, ∀ m ∈ r,
    TransGen job.graph.Leads c m ∧ ¬ d.Meets m := by
  have hregion (ws : List Nat) (hws : ∀ w ∈ ws, job.graph.Leads c w) :
      ∀ m ∈ job.flowRegion d ws, TransGen job.graph.Leads c m ∧ ¬ d.Meets m := by
    intro m hm
    refine ⟨?_, not_or.mpr (flowRegion_free hm)⟩
    refine flowRegion_induction (P := fun m => TransGen job.graph.Leads c m)
      (fun w hw _ _ => .single (hws w hw)) (fun x hx w hw _ _ => ?_) m hm
    exact hx.tail (FlowGraph.mem_successors.mp hw)
  intro r hr
  rcases mem_regions.mp hr with rfl | ⟨x, hx, rfl⟩
  · exact hregion _ fun w hw => (h.divides.leads w).mpr (.inl hw)
  · exact hregion _ fun w hw => (h.divides.leads w).mpr (.inr ⟨x, hx, hw⟩)

omit hjob in
/-- What a block may compute ahead has its values in view. -/
theorem views_hoists (hview : job.Sees trace d c) :
    job.Views trace d (.hoists c (job.regionNeeds d b) job.order) := by
  intro r hr v hv
  obtain ⟨m, hpath, hunmet, hfeeds⟩ := regionNeeds_induction (P := fun v =>
    ∃ m, TransGen job.graph.Leads c m ∧ ¬ d.Meets m ∧ TransGen job.graph.Feeds v m)
    (fun r hr m hm u hu _ => by
      obtain ⟨hpath, hunmet⟩ := h.regions_behind r hr m hm
      exact ⟨m, hpath, hunmet, .single (FlowGraph.mem_dependencies.mp hu)⟩)
    (fun v hv u hu _ => by
      obtain ⟨m, hpath, hunmet, hfeeds⟩ := hv
      exact ⟨m, hpath, hunmet, .head (FlowGraph.mem_dependencies.mp hu) hfeeds⟩) r hr v hv
  exact (hview m hpath.to_reflTransGen hunmet).of_feeds hfeeds

include hread hhoists

/-- What two of the walked parts of a block need has been computed when its header is written. -/
theorem mem_of_shared {r r' : List Nat} (hpair : [r, r'].Sublist
      (walked ((b.arms.map Prod.snd).map (job.flowRegion d)) (job.flowRegion d b.rest)
        (job.joins d b)))
    {m' : Nat} (hm : m ∈ r) (hm' : m' ∈ r') (hu : TransGen job.graph.Feeds u m)
    (hu' : TransGen job.graph.Feeds u m') : u ∈ s.entered := by
  by_cases hnew : u ∈ d.entered
  · exact hhoists.extends.subset hnew
  have hports {r : List Nat} (hr : r ∈ walked ((b.arms.map Prod.snd).map (job.flowRegion d))
      (job.flowRegion d b.rest) (job.joins d b)) :
      ∀ m ∈ r, job.graph.hasExecutionPorts m = true := by
    intro m hm
    obtain ⟨q, hq, hin⟩ := exists_of_mem_walked hr hm
    exact (hjob.separated.ports_of_path (h.regions_behind q hq m hin).1).2
  have hr := hpair.subset List.mem_cons_self
  have hr' := hpair.subset (List.mem_cons_of_mem _ List.mem_cons_self)
  have hc : job.graph.hasExecutionPorts c = true := by
    obtain ⟨q, hq, hin⟩ := exists_of_mem_walked hr hm
    exact (hjob.separated.ports_of_path (h.regions_behind q hq m hin).1).1
  have hlt : u < job.graph.size := by
    obtain ⟨x, hfirst, -⟩ := TransGen.head'_iff.mp hu
    exact (hjob.wellFormed.graph.feeds_lt hfirst).1
  refine hhoists.hoists_mem (fun d => hjob.hoistable hc d u) ?_ (hjob.wellFormed.mem_order.mpr hlt)
  exact shared_iff.mpr ⟨_, _, hpair.map (job.dataNeeds d),
    hjob.mem_dataNeeds hread (hports hr) hm hu hnew, hjob.mem_dataNeeds hread (hports hr') hm' hu' hnew⟩

include hd

omit hread in
/-- What is still to come behind an arm when the others are held back is walked for the arm. -/
theorem mem_walked_arm {x : Arm × List Nat} (hx : x ∈ b.arms) (hw : w ∈ x.2)
    (hpath : ReflTransGen job.graph.Leads w m)
    (hunmet : ¬ ((s.hold (job.held d b)).write (some c) b.header).Meets m) :
    m ∈ (job.flowRegion d x.2).filter fun v => !(job.joins d b).contains v := by
  have hlead {w : Nat} (hw : w ∈ x.2) : job.graph.Leads c w :=
    (h.divides.leads w).mpr (.inr ⟨x, hx, hw⟩)
  have hbarriers : ((s.hold (job.held d b)).write (some c) b.header).barriers =
      d.barriers ++ job.held d b := congrArg (· ++ _) hhoists.extends.barriers
  rw [Draft.Meets, hbarriers, List.mem_append, not_or, not_or] at hunmet
  obtain ⟨-, hfree, hheld⟩ := hunmet
  refine List.mem_filter.mpr ⟨?_, ?_⟩
  · refine (hd.mem_flowRegion_iff hjob.wellFormed.graph fun w hw => ?_).mpr ⟨hfree, w, hw, hpath⟩
    exact ⟨h.reached.step (hlead hw), h.fresh w (.single (hlead hw))⟩
  · have hjoin : m ∉ job.joins d b := fun hin =>
      hheld (List.mem_filter.mpr ⟨hin, by simpa using hfree⟩)
    simpa using hjoin

omit hread hhoists in
/-- What runs after the block and is not met is walked for what runs after the block. -/
theorem mem_walked_rest (hafter : job.graph.After c m) (hunmet : ¬ d.Meets m) :
    m ∈ job.flowRegion d b.rest ++ job.joins d b := by
  have hfree : m ∉ d.barriers := fun hin => hunmet (.inr hin)
  rcases hafter with hforks | ⟨w, hcontinues, hpath⟩
  · have hheld := (h.mem_held_iff hjob.wellFormed hd).mpr ⟨hfree, hforks⟩
    exact List.mem_append_right _ (List.mem_filter.mp hheld).1
  · have hlead {w : Nat} (hw : w ∈ b.rest) : job.graph.Leads c w :=
      (h.divides.leads w).mpr (.inl hw)
    refine List.mem_append_left _ ((hd.mem_flowRegion_iff hjob.wellFormed.graph fun w hw => ?_).mpr
      ⟨hfree, w, (h.divides.rest w).mpr hcontinues, hpath⟩)
    exact ⟨h.reached.step (hlead hw), h.fresh w (.single (hlead hw))⟩

/-- When the header is written, no two arms need the same value that has not been computed. -/
theorem apart : job.Apart ((s.hold (job.held d b)).write (some c) b.header) b.arms := by
  refine List.pairwise_iff_forall_sublist.mpr fun {x y} hpair u hnew hx hy => ?_
  obtain ⟨w, hw, m, hpath, hunmet, hfeeds⟩ := hx
  obtain ⟨w', hw', m', hpath', hunmet', hfeeds'⟩ := hy
  have hm := h.mem_walked_arm hjob hd hhoists (hpair.subset List.mem_cons_self) hw hpath hunmet
  have hm' := h.mem_walked_arm hjob hd hhoists
    (hpair.subset (List.mem_cons_of_mem _ List.mem_cons_self)) hw' hpath' hunmet'
  have hmapped := hpair.map fun x =>
    (job.flowRegion d x.2).filter fun v => !(job.joins d b).contains v
  have hin : u ∈ s.entered := by
    refine h.mem_of_shared hjob hread hhoists ?_ hm hm' hfeeds hfeeds'
    simpa [walked, Function.comp_def] using hmapped.trans (List.sublist_append_left _ _)
  exact hnew hin

/-- When the header is written, no arm needs a value that has not been computed and that something
after the block needs. -/
theorem apart_rest {x : Arm × List Nat} (hx : x ∈ b.arms)
    (hwants : job.Wants ((s.hold (job.held d b)).write (some c) b.header) x.2 u)
    (hafter : job.graph.After c m) (hunmet : ¬ d.Meets m) (hfeeds : TransGen job.graph.Feeds u m) :
    u ∈ s.entered := by
  obtain ⟨w, hw, m', hpath, hunmet', hfeeds'⟩ := hwants
  have hm' := h.mem_walked_arm hjob hd hhoists hx hw hpath hunmet'
  have hm := h.mem_walked_rest hjob hd hafter hunmet
  refine h.mem_of_shared hjob hread hhoists ?_ hm' hm hfeeds' hfeeds
  have hpair : [x].Sublist b.arms := List.singleton_sublist.mpr hx
  have hmapped := (hpair.map fun x =>
    (job.flowRegion d x.2).filter fun v => !(job.joins d b).contains v).append
      (List.Sublist.refl [job.flowRegion d b.rest ++ job.joins d b])
  simpa [walked, Function.comp_def] using hmapped

variable (hrecorded : d.Recorded) (hview : job.Sees trace d c)
include hrecorded hview

/-- When the header is written, the arms have their values in view. -/
theorem views_arms (htrace : s.trace <+: trace) :
    job.Views trace ((s.hold (job.held d b)).write (some c) b.header) (.arms c b.arms) := by
  refine ⟨fun x hx w hw => ?_, h.apart hjob hd hread hhoists⟩
  have hlead : job.graph.Leads c w := (h.divides.leads w).mpr (.inr ⟨x, hx, hw⟩)
  refine ⟨(hjob.separated.ends c w hlead).2, hview.mono (.single hlead) (fun m hmet => ?_) ?_⟩
  · exact (hmet.mono hhoists.extends).imp_right (List.mem_append_left _)
  · intro m hm
    refine (hm.values hhoists trivial hrecorded htrace).congr rfl ?_
    rw [Draft.openArms_write]
    exact List.prefix_refl _

/-- When the block is closed, what runs after it has its values in view. -/
theorem sees_after {q : Nat} (harms : Emits job (.arms c b.arms)
      ((s.hold (job.held d b)).write (some c) b.header) f) (htrace : f.trace <+: trace)
    (hq : TransGen job.graph.Leads c q)
    (hafter : ∀ m, ReflTransGen job.graph.Leads q m → job.graph.After c m) :
    job.Sees trace (f.letGo (job.held d b)) q := by
  intro m hm hmet u hfeeds hin
  have hunmet : ¬ d.Meets m := by
    rw [Draft.Meets, letGo_barriers hhoists harms] at hmet
    refine fun hold => hmet (hold.imp_left fun hin => ?_)
    exact harms.extends.subset (hhoists.extends.subset hin)
  have hstack : openArms f.trace = openArms s.trace := by
    rw [harms.openArms_eq, Draft.openArms_write]
    rfl
  have hinside := (List.prefix_append _ _).trans (harms.extends.trace.trans htrace)
  have hin' : u ∈ s.entered := by
    rcases harms.enters_wanted (fun _ _ _ _ => trivial) u hin with hin | hwants | hbehind
    · exact hin
    · obtain ⟨w, ⟨x, hx, hw⟩, hwants⟩ := hwants
      exact h.apart_rest hjob hd hread hhoists hx ⟨w, hw, hwants⟩ (hafter m hm) hunmet hfeeds
    · obtain ⟨w, ⟨x, hx, hw⟩, hpath⟩ := hbehind
      have hlead : job.graph.Leads c w := (h.divides.leads w).mpr (.inr ⟨x, hx, hw⟩)
      exact absurd hpath
        (not_behind_of_feeds hjob.separated hfeeds (hjob.separated.ends c w hlead).2)
  have hsees := (hview m (hq.to_reflTransGen.trans hm) hunmet).values hhoists trivial hrecorded
    hinside u hfeeds hin'
  exact hstack ▸ hsees

end Phases

end Divided

/-- What an arm has entered is not what the arms after it need. -/
theorem Apart.sees_next (hsep : job.graph.Separated) {x y : Arm × List Nat}
    {rest : List (Arm × List Nat)} (h : job.Apart d (x :: rest)) (hy : y ∈ rest) (hw : w ∈ y.2)
    (hports : ∀ w ∈ x.2, job.graph.hasExecutionPorts w = true)
    (harm : Emits job (.flows x.2) (d.openArm c x.1) e) (hview : job.Sees trace d w)
    (hentered : f.entered = e.entered) (hbarriers : f.barriers = d.barriers)
    (harms : openArms f.trace = openArms d.trace) : job.Sees trace f w := by
  have hsubset : d.entered ⊆ f.entered := hentered ▸ harm.extends.subset
  intro m hm hmet u hfeeds hin
  have hunmet : ¬ d.Meets m := by
    rw [Draft.Meets, hbarriers] at hmet
    exact fun hold => hmet (hold.imp_left (hsubset ·))
  rw [harms]
  refine hview m hm hunmet u hfeeds ?_
  by_contra hnew
  rcases harm.enters_wanted (fun _ _ => trivial) u (hentered ▸ hin) with hold | hwants | hbehind
  · exact hnew hold
  · exact (List.pairwise_cons.mp h).1 y hy u hnew hwants ⟨w, hw, m, hm, hunmet, hfeeds⟩
  · obtain ⟨w', hw', hpath⟩ := hbehind
    exact not_behind_of_feeds hsep hfeeds (hports w' hw') hpath

/-- Arms stay apart while work is done. -/
theorem Apart.mono {xs : List (Arm × List Nat)} (h : job.Apart d xs)
    (hentered : d.entered ⊆ e.entered) (hbarriers : e.barriers = d.barriers) : job.Apart e xs := by
  have hwants {ws : List Nat} {u : Nat} : job.Wants e ws u → job.Wants d ws u := by
    rintro ⟨w, hw, m, hpath, hunmet, hfeeds⟩
    refine ⟨w, hw, m, hpath, fun hmet => hunmet ?_, hfeeds⟩
    exact hmet.imp (hentered ·) (hbarriers ▸ ·)
  exact h.imp fun hxy u hnew hx hy =>
    hxy u (fun hin => hnew (hentered hin)) (hwants hx) (hwants hy)

/-- What holds of a draft whenever the flow goes on: the nodes are in order, what the nodes read has
been entered, and the trace has all of them. -/
structure Course (job : Job) (d : Draft) : Prop where
  sorted : job.Sorted d
  read : ∀ u, job.ReadFirst u d
  recorded : d.Recorded

namespace Sequential

variable (hjob : job.Sequential)
include hjob

/-- Work that is due stays on course. -/
theorem course (h : Emits job t d e) (ht : job.Due d t) (hd : job.Course d) : job.Course e :=
  ⟨hjob.sorted h ht hd.sorted, fun u => (hd.read u).emits h, hd.recorded.extends h.extends⟩

/-- The flow comes to a node: the node is entered, then what it reads, and its lines may be written. -/
theorem visit (hd : job.Course d) (hv : job.Due d (.flow v)) (hview : job.Sees trace d v)
    (hfree : v ∉ d.barriers) (hnew : v ∉ d.entered)
    (hdeps : Emits job (.values (job.graph.dependencies v)) (d.enter v) e) (hext : Draft.Extends e s)
    (hentered : s.entered = e.entered) (harms : openArms s.trace = openArms e.trace)
    (htrace : s.trace <+: trace) :
    job.Enclosed trace d s ∧ job.Course s ∧
      ∀ w, ReflTransGen job.graph.Leads v w → job.Sees trace s w := by
  have hbefore := hext.trace.trans htrace
  have hread := hd.sorted.read hjob.separated hfree hnew hv.2 hdeps
  have hrecorded := (hd.recorded.extends (Draft.enter_extends hnew)).extends hdeps.extends
  refine ⟨?_, ⟨?_, ?_, hrecorded.extends hext⟩, fun w hpath => ?_⟩
  · exact (hview.enclosed hd.recorded hfree hnew hdeps hbefore).trans (.of_entered hentered)
  · exact hread.congr hentered hext.barriers
  · exact fun u => ((hd.read u).read hdeps).congr hentered
  · exact (hview.read hd.recorded hnew hdeps hbefore hpath).congr hentered hext.barriers
      (harms ▸ List.prefix_refl _)

/-- Nodes are entered inside of the arms in which what they read is computed. -/
theorem enclosed (h : Emits job t d e) (ht : job.Due d t) (hd : job.Course d)
    (htrace : e.trace <+: trace) (hview : job.Views trace d t) : job.Enclosed trace d e := by
  have hsep := hjob.separated
  induction h with
  | value_skip | values_nil | hoists_nil | flow_skip | flows_nil | arms_nil => exact .of_entered rfl
  | value_enter hnew hdeps =>
    exact (Emits.value_enter hnew hdeps).values_enclosed trivial hd.recorded htrace hview
  | values_cons hfirst hrest =>
    exact (Emits.values_cons hfirst hrest).values_enclosed trivial hd.recorded htrace hview
  | hoists_take hshared hhoistable hfirst hrest =>
    exact (Emits.hoists_take hshared hhoistable hfirst hrest).values_enclosed trivial hd.recorded
      htrace hview
  | hoists_leave hleave hrest =>
    exact (Emits.hoists_leave hleave hrest).values_enclosed trivial hd.recorded htrace hview
  | @flow_plain v d e f hfree hnew hdeps hnone _ hnext _ ih =>
    have hwrites := writeGuarded_writes job e v
    obtain ⟨hfirst, hcourse, hsees⟩ := hjob.visit hd ht hview hfree hnew hdeps hwrites.extends
      hwrites.entered hwrites.openArms_eq (hnext.extends.trace.trans htrace)
    refine hfirst.trans (ih (hjob.lone ht hdeps hnone).leading hcourse htrace fun w hw => ?_)
    exact hsees w (.single (FlowGraph.mem_successors.mp hw))
  | @flow_scope v d e f hfree hnew hdeps hnone _ hnext _ ih =>
    have hwrites := writeGuarded_writes job e v
    obtain ⟨hfirst, hcourse, hsees⟩ := hjob.visit hd ht hview hfree hnew hdeps hwrites.extends
      hwrites.entered hwrites.openArms_eq (hnext.extends.trace.trans htrace)
    refine hfirst.trans (ih (fun x hx => ?_) hcourse htrace
      ⟨fun x hx w hw => ?_, List.pairwise_singleton _ _⟩)
    · exact List.mem_singleton.mp hx ▸ hjob.lone ht hdeps hnone
    · obtain rfl := List.mem_singleton.mp hx
      have hlead := FlowGraph.mem_successors.mp hw
      exact ⟨(hsep.ends v w hlead).2, hsees w (.single hlead)⟩
  | @flow_block v d e b s f hfree hnew hdeps hblock hnext _ ih =>
    have halike := block?_alike hblock
    obtain ⟨hfirst, hcourse, hsees⟩ := hjob.visit hd ht hview hfree hnew hdeps halike.extends
      halike.entered (congrArg openArms halike.trace) (hnext.extends.trace.trans htrace)
    exact hfirst.trans (ih (hjob.divided hd.sorted ht hnew hdeps hblock) hcourse htrace
      (hsees v .refl))
  | @block c b d s f g i hhoists harms hrest hheld _ ihArms ihRest ihHeld =>
    have ht : job.Divided d c b := ht
    have hview : job.Sees trace d c := hview
    have hafter := hheld.extends.trace.trans htrace
    have hduring : f.trace <+: trace := hrest.extends.trace.trans hafter
    have hbefore : s.trace <+: trace :=
      (List.prefix_append _ _).trans (harms.extends.trace.trans hduring)
    have hopen : job.Course ((s.hold (job.held d b)).write (some c) b.header) := by
      have hs : s.Recorded := hd.recorded.extends hhoists.extends
      have hhold : (s.hold (job.held d b)).Recorded := hs
      exact ⟨ht.sorted_hold hjob hd.sorted hhoists, fun u => ((hd.read u).emits hhoists).congr rfl,
        hhold.extends (Draft.write_extends _ _ _)⟩
    have hlone := ht.lone_arms hjob hd.sorted hhoists
    have hf : job.Course f := hjob.course harms hlone hopen
    have hclosed : job.Course (f.letGo (job.held d b)) :=
      ⟨Divided.sorted_letGo hd.sorted hhoists harms hf.sorted, fun u => (hf.read u).congr rfl,
        hf.recorded⟩
    have hopening : job.Enclosed trace d s :=
      hhoists.values_enclosed trivial hd.recorded hbefore (ht.views_hoists hview)
    have harmed : job.Enclosed trace s f := ihArms hlone hopen hduring
      (ht.views_arms hjob hd.sorted hd.read hhoists hd.recorded hview hbefore)
    have hsees {q : Nat} (hq : TransGen job.graph.Leads c q)
        (hall : ∀ m, ReflTransGen job.graph.Leads q m → job.graph.After c m) :=
      ht.sees_after hjob hd.sorted hd.read hhoists hd.recorded hview harms hduring hq hall
    have hrested : job.Enclosed trace f g := by
      refine ihRest (ht.leading_rest hjob hd.sorted hhoists harms) hclosed hafter fun w hw => ?_
      have hcontinues := (ht.divides.rest w).mp hw
      exact hsees (.single hcontinues.1) fun m hm => .inr ⟨w, hcontinues, hm⟩
    refine (hopening.trans harmed).trans (hrested.trans ?_)
    cases hsplit : b.rest with
    | nil =>
      rw [hsplit] at hrest
      cases hrest
      refine ihHeld (ht.leading_held hjob hd.sorted hhoists harms hsplit) hclosed htrace
        fun w hw => ?_
      have hforks := ((ht.mem_held_iff hjob.wellFormed hd.sorted).mp hw).2
      exact hsees hforks.leads fun m hm => .inl (hforks.trans hm)
    | cons w rest =>
      -- the continuation leads to all that was held back
      have hmet := ht.held_met hjob hd.sorted hhoists harms hf.sorted
        (hsplit ▸ List.mem_cons_self) hrest
      obtain rfl := hheld.flows_met hmet
      exact .of_entered rfl
  | @flows_cons w ws d e f hfirst hrest ih _ =>
    obtain ⟨hreached, hready, -⟩ := ht w ws rfl
    obtain rfl := hrest.flows_met (Leading.met hsep hd.sorted ht hfirst)
    exact ih ⟨hreached, hready⟩ hd htrace (hview w List.mem_cons_self)
  | @arms_cons c arm targets rest d e f harm hrest ihArm ihRest =>
    obtain ⟨hsees, hapart⟩ := hview
    have hclosed := (Draft.endArm_extends harm.extends).trans
      (Draft.nextArm_extends ((d.openArm c arm).endArm c arm e) rest)
    have hinside := (Draft.trace_nextArm_endArm c arm rest (d.openArm c arm) e).trans
      (hrest.extends.trace.trans htrace)
    have hlone := (ht _ List.mem_cons_self).leading
    have hopen : job.Course (d.openArm c arm) :=
      ⟨hd.sorted.congr rfl rfl, fun u => (hd.read u).congr rfl, hd.recorded.openArm c arm⟩
    have he : job.Course e := hjob.course harm hlone hopen
    have harmed : job.Enclosed trace d e := by
      refine ihArm hlone hopen hinside fun w hw => ?_
      refine (hsees _ List.mem_cons_self w hw).2.congr rfl rfl ?_
      rw [Draft.openArms_openArm]
      exact prefix_nest_opened _ _ _
    have hentered : (((d.openArm c arm).endArm c arm e).nextArm rest).entered = e.entered := by simp
    have hnext : job.Course (((d.openArm c arm).endArm c arm e).nextArm rest) :=
      ⟨he.sorted.congr hentered (by simp), fun u => (he.read u).congr hentered,
        hd.recorded.extends hclosed⟩
    refine harmed.trans ((Enclosed.of_entered hentered).trans (ihRest (fun x hx => ?_) hnext htrace
      ⟨fun x hx w hw => ⟨(hsees x (List.mem_cons_of_mem _ hx) w hw).1, ?_⟩, ?_⟩))
    · refine (ht x (List.mem_cons_of_mem _ hx)).mono hclosed.subset ?_
      exact hclosed.barriers ▸ List.Subset.refl _
    · refine hapart.sees_next hsep hx hw (fun w hw => (hsees _ List.mem_cons_self w hw).1) harm
        (hsees x (List.mem_cons_of_mem _ hx) w hw).2 hentered hclosed.barriers ?_
      rw [Draft.openArms_nextArm, Draft.openArms_endArm harm.openArms_eq]
    · exact Apart.mono (List.pairwise_cons.mp hapart).2 hclosed.subset hclosed.barriers

/-- The work for the one entry point of a graph enters nodes inside of the arms in which what they read
is computed, and enters all that they read. -/
theorem enclosed_entry {entry : Nat} (hentry : job.graph.entryPoints = [entry])
    (h : Performs job (job.entryTasks entry) d e) (hentered : d.entered = [])
    (hbarriers : d.barriers = []) (hd : d.Recorded) (htrace : e.trace <+: trace) :
    job.Enclosed trace d e ∧ ∀ u, job.ReadFirst u e := by
  have hview (m : Nat) : job.InView trace d m := fun u _ hin => by simp [hentered] at hin
  have hread (u : Nat) : job.ReadFirst u d := fun m hm => by simp [hentered] at hm
  cases h with
  | cons hvalues hrest =>
    cases hrest with
    | cons hflow hnil =>
      cases hnil
      have hbefore := hflow.extends.trace.trans htrace
      have hreadInputs (u : Nat) := (hread u).emits hvalues
      refine ⟨(hvalues.values_enclosed trivial hd hbefore fun v _ => hview v).trans ?_,
        fun u => (hreadInputs u).emits hflow⟩
      have hcourse := Course.mk (hjob.sorted_inputs hentered hbarriers hvalues) hreadInputs
        (hd.extends hvalues.extends)
      refine hjob.enclosed hflow (due_entry hentry _) hcourse htrace fun m _ _ => ?_
      exact (hview m).values hvalues trivial hd hbefore

end Sequential

/-- What a node that has been entered needs has been entered. -/
theorem mem_of_needed (hread : ∀ u, job.ReadFirst u d) (hfeeds : ReflTransGen job.graph.Feeds u m)
    (hm : m ∈ d.entered) : u ∈ d.entered := by
  induction hfeeds using ReflTransGen.head_induction_on with
  | refl => exact hm
  | @head u x hfeeds _ ih => exact hread u x ih hfeeds

end Job

namespace Generator

variable {σ : Type}

/-- Let a graph have one entry point, let data and execution be kept apart in it, let its conditionals
and loops have an input and at most one target for each branch, and let what runs after each block
have one beginning. Then a node that the flow comes to, or that is needed there, is entered and
written inside of all arms of conditionals and loops in which a value that it reads is. -/
theorem values_are_computed_around_readers (ask : PatternSource σ) (s : σ) (doc : Document)
    (settings : Settings) (conversions : Conversions) (known : List (String × Option Pattern))
    (entry x n m : Nat) (hmode : mode (.ofDocument doc) = .execution)
    (hentry : (FlowGraph.ofDocument doc).entryPoints = [entry])
    (hseparated : (FlowGraph.ofDocument doc).Separated)
    (hinputs : ∀ c n, (FlowGraph.ofDocument doc).node? c = some n → n.kind.isControl = true →
      n.inputs ≠ [])
    (hnarrow : ∀ c, (FlowGraph.ofDocument doc).Narrow c)
    (hresumes : ∀ c, (FlowGraph.ofDocument doc).Resumes c)
    (hreached : ReflTransGen (FlowGraph.ofDocument doc).Leads entry m)
    (hneeded : ReflTransGen (FlowGraph.ofDocument doc).Feeds n m)
    (hfeeds : (FlowGraph.ofDocument doc).Feeds x n) :
    let gen : Generator := ⟨.ofDocument doc, settings, conversions, known⟩
    ∃ d, gen.rendering ask s = .ok d ∧ ∃ outer inner,
      Stands d.trace x outer ∧ Stands d.trace n inner ∧ outer <+: inner := by
  intro gen
  have hg : gen.graph.WellFormed := FlowGraph.ofDocument_wellFormed doc
  have hjob : (gen.fittedJob ask s).Sequential :=
    ⟨fittedJob_wellFormed ask hg s, hseparated, hseparated.order_forward hg, hinputs, hnarrow,
      hresumes⟩
  have hexecution : (gen.fittedJob ask s).mode = .execution := hmode
  have hentries : (gen.fittedJob ask s).graph.entryPoints = [entry] := hentry
  obtain ⟨e, hperforms, hrendering⟩ := rendering_performs ask hg s
  rw [Job.closing, hexecution] at hrendering
  have hstart : (gen.startDraft ask s).Recorded := rfl
  have hrecorded : e.Recorded := hstart.extends hperforms.extends
  have haligned : Draft.Aligned e.trace (gen.startDraft ask s) e := by
    refine hperforms.aligned hstart (List.prefix_refl _) fun t ht c b heq => ?_
    rcases Job.eq_of_mem_bodyTasks ht with ⟨_, rfl⟩ | ⟨_, rfl⟩ | ⟨_, rfl⟩ <;> cases heq
  have hnodup : (entries e.trace).Nodup := by
    obtain ⟨new, hentered, hnew, -⟩ := hperforms.extends.entered
    rw [show entries e.trace = e.entered from hrecorded, hentered]
    exact hnew
  rw [Job.bodyTasks, hexecution] at hperforms
  obtain ⟨f, hfirst, hlast⟩ := hperforms.split
  rw [hentries, List.flatMap_singleton] at hfirst
  obtain ⟨henclosed, hread⟩ :=
    hjob.enclosed_entry hentries hfirst rfl rfl hstart hlast.extends.trace
  obtain ⟨-, hall⟩ := hjob.sorted_entry hentries hfirst rfl rfl
  have hm : m ∈ f.entered := hall m ⟨entry, by simp [hentries], hreached⟩
  have hn : n ∈ f.entered := Job.mem_of_needed hread hneeded hm
  have hx : x ∈ f.entered := hread x n hn hfeeds
  have hstands {v : Nat} (hv : v ∈ f.entered) : Stands e.trace v (armsAt e.trace v) := by
    refine haligned.stands rfl hnodup ?_
    rw [show entries e.trace = e.entered from hrecorded]
    exact hlast.extends.subset hv
  exact ⟨e, hrendering, _, _, hstands hx, hstands hn, henclosed n hn List.not_mem_nil x hfeeds⟩

/-- The value that both branches read is computed around each of them. -/
theorem sharedReading_computed_around :
    let g := FlowGraph.ofDocument sharedReading
    (g.entryPoints = [2] ∧ g.Separated ∧ (∀ c, g.Narrow c) ∧ (∀ c, g.Resumes c) ∧ g.Leads 2 4 ∧
      g.Feeds 1 4) ∧
    ∃ d, (Generator.new g .standard).rendering doubling () = .ok d ∧ ∃ outer inner,
      Stands d.trace 1 outer ∧ Stands d.trace 4 inner ∧ outer <+: inner := by
  intro g
  have hg : g.WellFormed := FlowGraph.ofDocument_wellFormed sharedReading
  have hentry : g.entryPoints = [2] := by decide
  have hseparated : g.Separated := FlowGraph.separated_of_edges (by decide) (by decide)
  have hcontrol : ∀ n ∈ g.nodes, n.kind.isControl = true → n.inputs ≠ [] := by decide
  have hnarrow := hg.narrow_of_search (by decide +kernel)
  have hresumes := hg.resumes_of_search (by decide +kernel)
  have hedge : g.Leads 2 4 := FlowGraph.mem_successors.mp (by decide +kernel)
  have hfeeds : g.Feeds 1 4 := FlowGraph.mem_dependencies.mp (by decide +kernel)
  exact ⟨⟨hentry, hseparated, hnarrow, hresumes, hedge, hfeeds⟩,
    values_are_computed_around_readers doubling () sharedReading .standard (.standard .standard) []
      2 1 4 4 (by decide) hentry hseparated (fun c n hn => hcontrol n (List.mem_of_getElem? hn))
      hnarrow hresumes (.single hedge) .refl hfeeds⟩

/-- A conditional whose branches meet apart from what runs after it, and a value that is read where
they meet and in a branch of what runs after it. -/
def lateCheck : Document where
  nodes :=
    [⟨"choice", "choice", none, some .conditional, [⟨"cond", "cond", "bool", false, none⟩], [],
        some true, [], [], none, none⟩,
      ⟨"left", "left", none, some .plain, [], [], some true, [], [], none, none⟩,
      ⟨"right", "right", none, some .plain, [], [], some true, [], [], none, none⟩,
      ⟨"check", "check", none, some .conditional, [⟨"cond", "cond", "bool", false, none⟩], [],
        some true, [], [], none, none⟩,
      ⟨"inside", "inside", none, some .plain, [⟨"in", "in", "int", false, none⟩], [], some true, [],
        [], some "double", none⟩,
      ⟨"meet", "meet", none, some .plain, [⟨"in", "in", "int", false, none⟩], [], some true, [], [],
        some "double", none⟩,
      ⟨"twice", "twice", none, some .plain, [⟨"in", "in", "int", false, none⟩],
        [⟨"out", "out", "int", false, none⟩], none, [], [], some "double", none⟩,
      ⟨"seed", "seed", none, some .input, [], [⟨"out", "out", "int", false, none⟩], none, [], [],
        none, none⟩]
  edges :=
    [⟨"e1", "choice", "left", none, none, some ⟨some .execution, some "then"⟩⟩,
      ⟨"e2", "choice", "right", none, none, some ⟨some .execution, some "else"⟩⟩,
      ⟨"e3", "choice", "check", none, none, some ⟨some .execution, none⟩⟩,
      ⟨"e4", "left", "meet", none, none, some ⟨some .execution, none⟩⟩,
      ⟨"e5", "right", "meet", none, none, some ⟨some .execution, none⟩⟩,
      ⟨"e6", "check", "inside", none, none, some ⟨some .execution, some "then"⟩⟩,
      ⟨"d1", "seed", "twice", some "out", some "in", none⟩,
      ⟨"d2", "twice", "inside", some "out", some "in", none⟩,
      ⟨"d3", "twice", "meet", some "out", some "in", none⟩]

/-- Without one beginning of what runs after a block, a value can be computed inside of an arm and be
read outside. -/
theorem lateCheck_computed_inside :
    let g := FlowGraph.ofDocument lateCheck
    (mode g = .execution ∧ g.entryPoints = [0] ∧ g.schedule.cycles = [] ∧ g.Separated ∧
      (∀ n ∈ g.nodes, n.kind.isControl = true → n.inputs ≠ []) ∧ (∀ c, g.Narrow c) ∧
      ReflTransGen g.Leads 0 5 ∧ g.Feeds 6 5) ∧
    ∃ d before after before' after', (Generator.new g .standard).rendering doubling () = .ok d ∧
      d.trace = before ++ .line (some 6) 1 "twice_twice = seed_seed * 2" :: after ∧
      d.trace = before' ++ .line (some 5) 0 "meet_meet = twice_twice * 2" :: after' ∧
      ¬ openArms before <+: openArms before' := by
  intro g
  have hg : g.WellFormed := FlowGraph.ofDocument_wellFormed lateCheck
  let front : List Event :=
    [.enter 7, .line (some 7) 0 "seed_seed = 0", .enter 0, .line (some 0) 0 "if False:",
      .opened 0 .thenArm, .enter 1, .line none 1 "pass", .closed 0 .thenArm, .line none 0 "else:",
      .opened 0 .elseArm, .enter 2, .line none 1 "pass", .closed 0 .elseArm, .enter 3,
      .line (some 3) 0 "if False:", .opened 3 .thenArm, .enter 4, .enter 6]
  let middle : List Event :=
    [.line (some 6) 1 "twice_twice = seed_seed * 2",
      .line (some 4) 1 "inside_inside = twice_twice * 2", .closed 3 .thenArm, .enter 5]
  obtain ⟨d, hrendering, htrace⟩ : ∃ d, (Generator.new g .standard).rendering doubling () = .ok d ∧
      d.trace = front ++ middle ++ [.line (some 5) 0 "meet_meet = twice_twice * 2"] :=
    exists_rendering (by decide +kernel)
  refine ⟨⟨by decide, by decide, by decide +kernel, ?_, by decide, ?_, ?_, ?_⟩, d, front, _,
    front ++ middle, [], hrendering, htrace, htrace, by decide⟩
  · exact FlowGraph.separated_of_edges (by decide) (by decide)
  · exact hg.narrow_of_search (by decide +kernel)
  · exact (hg.mem_behind (by decide)).mp (by decide +kernel)
  · exact FlowGraph.mem_dependencies.mp (by decide +kernel)

end Generator

end FlowScript
