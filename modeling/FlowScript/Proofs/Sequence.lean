import FlowScript.Proofs.Continuation
import FlowScript.Proofs.Control

/-!
# The order of execution

Where all that runs after a block has one beginning, a program has its nodes in the order of the
execution edges. A node is entered only after the nodes that lead to it: what lies behind a node that
the flow comes to has been entered only as far as everything before it, and a block holds back what
its arms and its continuation have in common until all of its arms are closed. Then the continuation
starts at the one node that leads to the rest.
-/

namespace FlowScript

open Relation (ReflTransGen TransGen)

namespace Job

variable {job : Job} {d e f s : Draft} {b : Block} {t : Task} {a c u v w : Nat} {ws : List Nat}

/-- A job whose graph is written the way structured programs are: data and execution are kept apart,
conditionals and loops have an input, every branch has at most one target, and what runs after a
block has one beginning. -/
structure Sequential (job : Job) : Prop where
  wellFormed : job.WellFormed
  separated : job.graph.Separated
  order : job.order.Pairwise fun a b => ¬ TransGen job.graph.Leads b a
  inputs : ∀ c n, job.graph.node? c = some n → n.kind.isControl = true → n.inputs ≠ []
  narrow : ∀ c, job.graph.Narrow c
  resumes : ∀ c, job.graph.Resumes c

/-- The nodes have been entered along the execution edges, and what is held back has not been entered
and leads only to what is held back. -/
structure Sorted (job : Job) (d : Draft) : Prop where
  edges : ∀ a v, job.graph.Reached a → job.graph.Leads a v → v ∈ d.entered →
    [a, v].Sublist d.entered
  barriers : ∀ v ∈ d.barriers, v ∉ d.entered ∧ job.graph.Reached v ∧
    job.graph.hasExecutionPorts v = true ∧ ∀ w, job.graph.Leads v w → w ∈ d.barriers

/-- What lies behind a node and is not met is led to from there or by nodes that have been entered. -/
def Ready (job : Job) (d : Draft) (w : Nat) : Prop :=
  ∀ v, ¬ d.Meets v → ReflTransGen job.graph.Leads w v →
    ∀ a, job.graph.Reached a → job.graph.Leads a v →
      a ∈ d.entered ∨ ReflTransGen job.graph.Leads w a

/-- Work that makes nothing less met leaves a node ready. -/
theorem Ready.mono (h : job.Ready d w) (hentered : d.entered ⊆ e.entered)
    (hbarriers : d.barriers ⊆ e.barriers) : job.Ready e w := by
  intro v hv hpath a ha hlead
  have hv' : ¬ d.Meets v := fun hmet => hv (hmet.imp (hentered ·) (hbarriers ·))
  exact (h v hv' hpath a ha hlead).imp_left (hentered ·)

namespace Sorted

/-- Only what has been entered and what is held back counts. -/
theorem congr (h : job.Sorted d) (hentered : e.entered = d.entered)
    (hbarriers : e.barriers = d.barriers) : job.Sorted e where
  edges := hentered ▸ h.edges
  barriers := hentered ▸ hbarriers ▸ h.barriers

/-- What lies behind a node that has not been entered has not been entered. -/
theorem new_of_leads (h : job.Sorted d) (hu : job.graph.Reached u) (hnew : u ∉ d.entered)
    (hpath : ReflTransGen job.graph.Leads u w) : w ∉ d.entered := by
  have hall : job.graph.Reached w ∧ w ∉ d.entered := by
    induction hpath with
    | refl => exact ⟨hu, hnew⟩
    | @tail x y _ hlast ih =>
      refine ⟨ih.1.step hlast, fun hin => ih.2 ?_⟩
      exact (h.edges x y ih.1 hlast hin).subset List.mem_cons_self
  exact hall.2

/-- What leads to a node that is not held back is not held back. -/
theorem free_of_leads (h : job.Sorted d) (hpath : ReflTransGen job.graph.Leads u w)
    (hfree : w ∉ d.barriers) : u ∉ d.barriers := by
  induction hpath with
  | refl => exact hfree
  | tail _ hlast ih => exact ih fun hin => hfree ((h.barriers _ hin).2.2.2 _ hlast)

/-- The flow region of nodes that have not been entered is all that lies behind them and is not held
back. -/
theorem mem_flowRegion_iff (hg : job.graph.WellFormed) (h : job.Sorted d)
    (hws : ∀ w ∈ ws, job.graph.Reached w ∧ w ∉ d.entered) :
    v ∈ job.flowRegion d ws ↔ v ∉ d.barriers ∧ ∃ w ∈ ws, ReflTransGen job.graph.Leads w v := by
  constructor
  · intro hv
    refine ⟨(flowRegion_free hv).2, ?_⟩
    refine flowRegion_induction (P := fun v => ∃ w ∈ ws, ReflTransGen job.graph.Leads w v)
      (fun w hw _ _ => ⟨w, hw, .refl⟩) (fun u hu w hw _ _ => ?_) v hv
    obtain ⟨x, hx, hpath⟩ := hu
    exact ⟨x, hx, hpath.tail (FlowGraph.mem_successors.mp hw)⟩
  · rintro ⟨hfree, w, hw, hpath⟩
    have hlt : ∀ w ∈ ws, w < job.graph.size := fun w hw => (hws w hw).1.lt hg
    obtain ⟨hreached, hnew⟩ := hws w hw
    induction hpath with
    | refl => exact mem_flowRegion_of_target hg hlt hw (not_or.mpr ⟨hnew, hfree⟩)
    | @tail x y hpath hlast ih =>
      have hx := ih (h.free_of_leads (.single hlast) hfree)
      exact mem_flowRegion_of_leads hg hlt hx hlast
        (not_or.mpr ⟨h.new_of_leads hreached hnew (hpath.tail hlast), hfree⟩)

/-- Entering values keeps the order of the flow. -/
theorem values (hsep : job.graph.Separated) (h : job.Sorted d) (hemits : Emits job t d e)
    (ht : t.Of job.DataOnly fun _ => False) : job.Sorted e where
  edges a v ha hlead hv := by
    rcases hemits.enters_dataOnly hsep ht v hv with hin | hdata
    · obtain ⟨new, hentered, -⟩ := hemits.extends.entered
      rw [hentered]
      exact (h.edges a v ha hlead hin).trans (List.sublist_append_left _ _)
    · exact absurd (.single hlead) (hdata.not_behind hsep)
  barriers v hv := by
    rw [hemits.extends.barriers] at hv ⊢
    obtain ⟨hnew, hreached, hports, hclosed⟩ := h.barriers v hv
    refine ⟨fun hin => ?_, hreached, hports, hclosed⟩
    rcases hemits.enters_dataOnly hsep ht v hin with hin | hdata
    · exact hnew hin
    · rw [DataOnly, hports] at hdata
      cases hdata

/-- Entering a node that all nodes before it lead to keeps the order of the flow. -/
theorem enter (hsep : job.graph.Separated) (h : job.Sorted d) (hfree : v ∉ d.barriers)
    (hnew : v ∉ d.entered) (hready : job.Ready d v) : job.Sorted (d.enter v) where
  edges a u ha hlead hu := by
    rcases Draft.mem_enter.mp hu with hin | rfl
    · exact (h.edges a u ha hlead hin).trans (List.sublist_append_left _ _)
    · rcases hready u (not_or.mpr ⟨hnew, hfree⟩) .refl a ha hlead with hin | hback
      · exact (List.singleton_sublist.mpr hin).append (List.Sublist.refl [u])
      · exact absurd (.tail' hback hlead) (hsep.acyclic u)
  barriers u hu := by
    obtain ⟨hother, hrest⟩ := h.barriers u hu
    refine ⟨fun hin => ?_, hrest⟩
    rcases Draft.mem_enter.mp hin with hin | rfl
    · exact hother hin
    · exact hfree hu

/-- Entering a node and what it reads keeps the order of the flow. -/
theorem read (hsep : job.graph.Separated) (h : job.Sorted d) (hfree : v ∉ d.barriers)
    (hnew : v ∉ d.entered) (hready : job.Ready d v)
    (hdeps : Emits job (.values (job.graph.dependencies v)) (d.enter v) e) : job.Sorted e :=
  (h.enter hsep hfree hnew hready).values hsep hdeps (dependencies_dataOnly hsep)

/-- When a node and what it reads have been entered, nothing behind it has been. -/
theorem fresh (hsep : job.graph.Separated) (h : job.Sorted d) (hc : job.graph.Reached c)
    (hnew : c ∉ d.entered)
    (hdeps : Emits job (.values (job.graph.dependencies c)) (d.enter c) e) :
    ∀ v, TransGen job.graph.Leads c v → v ∉ e.entered := by
  intro v hpath hin
  rcases hdeps.enters_read hsep v hin with hin | rfl | hdata
  · exact h.new_of_leads hc hnew hpath.to_reflTransGen hin
  · exact hsep.acyclic v hpath
  · exact absurd hpath (hdata.not_behind hsep)

/-- Following the flow from a node enters all that lies behind the node and is not held back. -/
theorem covers (hsep : job.graph.Separated) (h : job.Sorted d) (hemits : Emits job t d e)
    (ht : t.Of job.DataOnly fun _ => True) (hstart : t.Starts w) (hw : job.graph.Reached w)
    (hnew : w ∉ d.entered) (hpath : ReflTransGen job.graph.Leads w v) (hfree : v ∉ d.barriers) :
    v ∈ e.entered := by
  have hcloses := hemits.closes hsep ht
  have hmeets {u : Nat} (hu : u ∉ d.barriers) (hmet : e.Meets u) : u ∈ e.entered :=
    hmet.resolve_right (hemits.extends.barriers ▸ hu)
  induction hpath with
  | refl => exact hmeets hfree (hcloses.starts w hstart)
  | @tail x y hpath hlast ih =>
    have hx := ih (h.free_of_leads (.single hlast) hfree)
    exact hmeets hfree (hcloses.since x hx (h.new_of_leads hw hnew hpath) y hlast)

end Sorted

/-- Work enters only values and what lies behind the nodes that it starts from. -/
theorem Emits.enters_behind (hsep : job.graph.Separated) (h : Emits job t d e)
    (ht : t.Of job.DataOnly fun _ => True) : ∀ v ∈ e.entered, v ∈ d.entered ∨ job.DataOnly v ∨
      (∃ w, t.Starts w ∧ ReflTransGen job.graph.Leads w v) ∧ v ∉ d.barriers := by
  have hspread := spread_dataOnly hsep
    (fun v => ∃ w, t.Starts w ∧ ReflTransGen job.graph.Leads w v) fun v hv w hw => by
      obtain ⟨x, hx, hpath⟩ := hv
      exact ⟨x, hx, hpath.tail (FlowGraph.mem_successors.mp hw)⟩
  refine h.enters_free hspread (by simp) ?_
  cases t with
  | value | values | hoists => exact ht
  | flow v => exact ⟨v, rfl, .refl⟩
  | flows vs => exact fun v hv => ⟨v, hv, .refl⟩
  | arms owner xs => exact fun x hx v hv => ⟨v, ⟨x, hx, hv⟩, .refl⟩
  | block owner b => exact fun v hv => ⟨v, hv, .refl⟩

/-- Following the flow to nodes that are all met does nothing. -/
theorem Emits.flows_met (h : Emits job (.flows ws) d e) (hws : ∀ w ∈ ws, d.Meets w) : e = d := by
  induction ws with
  | nil =>
    cases h
    rfl
  | cons w ws ih =>
    cases h with
    | flows_cons hfirst hrest =>
      obtain rfl := hfirst.unique (.flow_skip (hws w List.mem_cons_self).symm)
      exact ih hrest fun u hu => hws u (List.mem_cons_of_mem _ hu)

/-- At most one node to follow the flow to. -/
def Lone (job : Job) (d : Draft) (ws : List Nat) : Prop :=
  ∀ w ∈ ws, job.graph.Reached w ∧ job.Ready d w ∧ ∀ w' ∈ ws, w' = w

/-- Nodes to follow the flow to, all of them behind the first. -/
def Leading (job : Job) (d : Draft) (ws : List Nat) : Prop :=
  ∀ w rest, ws = w :: rest → job.graph.Reached w ∧ job.Ready d w ∧
    ∀ v ∈ rest, v = w ∨ w ∉ d.entered ∧ ReflTransGen job.graph.Leads w v

/-- A single node leads. -/
theorem Lone.leading (h : job.Lone d ws) : job.Leading d ws := by
  rintro w rest rfl
  obtain ⟨hreached, hready, honly⟩ := h w List.mem_cons_self
  exact ⟨hreached, hready, fun v hv => .inl (honly v (List.mem_cons_of_mem _ hv))⟩

/-- Work that makes nothing less met leaves a single node ready. -/
theorem Lone.mono (h : job.Lone d ws) (hentered : d.entered ⊆ e.entered)
    (hbarriers : d.barriers ⊆ e.barriers) : job.Lone e ws :=
  fun w hw => ⟨(h w hw).1, (h w hw).2.1.mono hentered hbarriers, (h w hw).2.2⟩

/-- When the flow has been followed to the first of some nodes, the others are met. -/
theorem Leading.met (hsep : job.graph.Separated) (hs : job.Sorted d) (h : job.Leading d (w :: ws))
    (hemits : Emits job (.flow w) d e) : ∀ v ∈ ws, e.Meets v := by
  obtain ⟨hreached, -, hbehind⟩ := h w ws rfl
  intro v hv
  rcases hbehind v hv with rfl | ⟨hnew, hpath⟩
  · exact (hemits.closes hsep trivial).starts v rfl
  · by_cases hfree : v ∈ d.barriers
    · exact .inr (hemits.extends.barriers ▸ hfree)
    · exact .inl (hs.covers hsep hemits trivial rfl hreached hnew hpath hfree)

/-- The single successor of a node that is no block. -/
theorem lone_successors (hc : job.graph.Reached c) (hentered : c ∈ d.entered)
    (hready : job.Ready d c)
    (hone : ∀ w w', job.graph.Leads c w → job.graph.Leads c w' → w = w') :
    job.Lone d (job.graph.successors c) := by
  intro w hw
  rw [FlowGraph.mem_successors] at hw
  refine ⟨hc.step hw, fun v hv hpath a ha hlead => ?_, fun w' hw' => ?_⟩
  · rcases hready v hv (.head hw hpath) a ha hlead with hin | hback
    · exact .inl hin
    · rcases ReflTransGen.cases_head hback with rfl | ⟨w', hw', hback⟩
      · exact .inl hentered
      · exact .inr (hone w' w hw' hw ▸ hback)
  · exact hone w' w (FlowGraph.mem_successors.mp hw') hw

/-- A node of a structured graph that becomes no block has one successor. -/
theorem Sequential.eq_of_plain (hjob : job.Sequential) (hnone : job.block? d c = none) (w w' : Nat)
    (hw : job.graph.Leads c w) (hw' : job.graph.Leads c w') : w = w' := by
  have hclaims (u : Nat) : ¬ job.graph.Claims c u := by
    rintro ⟨n, labels, hn, hlabels, -⟩
    cases hkind : n.kind with
    | conditional =>
      obtain ⟨b, s, hblock, -⟩ := exists_conditionalBlock hn hkind
        (hjob.inputs c n hn (by simp [hkind, Kind.isControl])) d
      cases hnone.symm.trans hblock
    | loop =>
      obtain ⟨b, s, hblock, -⟩ := exists_loopBlock hn hkind
        (hjob.inputs c n hn (by simp [hkind, Kind.isControl])) d
      cases hnone.symm.trans hblock
    | plain | input | output | start | finish => simp [hkind, Kind.branchLabels] at hlabels
  exact (hjob.narrow c).rest w w' ⟨hw, hclaims w⟩ ⟨hw', hclaims w'⟩

/-- A node that has been entered and is about to write a block, before anything behind it has been
entered. -/
structure Divided (job : Job) (d : Draft) (c : Nat) (b : Block) : Prop where
  reached : job.graph.Reached c
  entered : c ∈ d.entered
  fresh : ∀ v, TransGen job.graph.Leads c v → v ∉ d.entered
  ready : job.Ready d c
  divides : b.Divides job.graph c

namespace Divided

/-- A block holds back what two different successors of its node lead to. -/
theorem mem_held_iff (hjob : job.WellFormed) (h : job.Divided d c b) (hs : job.Sorted d) :
    v ∈ job.held d b ↔ v ∉ d.barriers ∧ job.graph.Forks c v := by
  have hleads {ws : List Nat} (hws : ws ∈ b.targets) {w : Nat} (hw : w ∈ ws) :
      job.graph.Leads c w := by
    refine (h.divides.leads w).mpr ?_
    rcases mem_targets.mp hws with rfl | ⟨x, hx, rfl⟩
    · exact .inl hw
    · exact .inr ⟨x, hx, hw⟩
  have hregion {ws : List Nat} (hws : ws ∈ b.targets) : v ∈ job.flowRegion d ws ↔
      v ∉ d.barriers ∧ ∃ w ∈ ws, ReflTransGen job.graph.Leads w v := by
    refine hs.mem_flowRegion_iff hjob.graph fun w hw => ?_
    exact ⟨h.reached.step (hleads hws hw), h.fresh w (.single (hleads hws hw))⟩
  rw [held, joins, List.mem_filter, List.mem_filter, shared_regions_iff]
  constructor
  · rintro ⟨⟨-, ws, ws', hpair, hv, hv'⟩, -⟩
    have hws : ws ∈ b.targets := hpair.subset List.mem_cons_self
    have hws' : ws' ∈ b.targets := hpair.subset (List.mem_cons_of_mem _ List.mem_cons_self)
    obtain ⟨hfree, w, hw, hpath⟩ := (hregion hws).mp hv
    obtain ⟨-, w', hw', hpath'⟩ := (hregion hws').mp hv'
    have hdisjoint : ws.Disjoint ws' := List.pairwise_pair.mp (h.divides.disjoint.sublist hpair)
    refine ⟨hfree, w, w', fun heq => ?_, hleads hws hw, hleads hws' hw', hpath, hpath'⟩
    exact hdisjoint hw (heq ▸ hw')
  · rintro ⟨hfree, w, w', hne, hw, hw', hpath, hpath'⟩
    have hlt : v < job.graph.size := ((h.reached.step hw).trans hpath).lt hjob.graph
    have hmem {x : Nat} (hx : job.graph.Leads c x) : ∃ ws ∈ b.targets, x ∈ ws := by
      rcases (h.divides.leads x).mp hx with hx | ⟨y, hy, hx⟩
      · exact ⟨_, mem_targets.mpr (.inl rfl), hx⟩
      · exact ⟨_, mem_targets.mpr (.inr ⟨y, hy, rfl⟩), hx⟩
    obtain ⟨ws, hws, hin⟩ := hmem hw
    obtain ⟨ws', hws', hin'⟩ := hmem hw'
    have hlists : ws ≠ ws' := by
      rintro rfl
      exact hne (h.divides.single ws hws w hin w' hin')
    have hv := (hregion hws).mpr ⟨hfree, w, hin, hpath⟩
    have hv' := (hregion hws').mpr ⟨hfree, w', hin', hpath'⟩
    refine ⟨⟨hjob.mem_order.mpr hlt, ?_⟩, by simpa using hfree⟩
    rcases pair_sublist hws hws' hlists with hpair | hpair
    · exact ⟨ws, ws', hpair, hv, hv'⟩
    · exact ⟨ws', ws, hpair, hv', hv⟩

section Phases

variable (hjob : job.Sequential) (h : job.Divided d c b) (hd : job.Sorted d)
  (hhoists : Emits job (.hoists c (job.regionNeeds d b) job.order) d s)
include hjob h hhoists

/-- Computing values ahead of the block enters nothing behind its node. -/
theorem fresh_hoists : ∀ v, TransGen job.graph.Leads c v → v ∉ s.entered := by
  intro v hpath hin
  have hneeds := regionNeeds_dataOnly (d := d) (b := b) hjob.separated
  rcases hhoists.enters_dataOnly hjob.separated hneeds v hin with hin | hdata
  · exact h.fresh v hpath hin
  · exact absurd hpath (hdata.not_behind hjob.separated)

include hd

/-- When the header is written and nodes are held back, the order of the flow is kept. -/
theorem sorted_hold : job.Sorted ((s.hold (job.held d b)).write (some c) b.header) := by
  have hs : job.Sorted s :=
    hd.values hjob.separated hhoists (regionNeeds_dataOnly hjob.separated)
  refine ⟨hs.edges, fun v hv => ?_⟩
  rcases List.mem_append.mp hv with hv | hv
  · obtain ⟨hnew, hreached, hports, hclosed⟩ := hs.barriers v hv
    exact ⟨hnew, hreached, hports, fun w hw => List.mem_append_left _ (hclosed w hw)⟩
  · obtain ⟨hfree, hforks⟩ := (h.mem_held_iff hjob.wellFormed hd).mp hv
    have hpath := hforks.leads
    refine ⟨h.fresh_hoists hjob hhoists v hpath, h.reached.trans hpath.to_reflTransGen,
      (hjob.separated.ports_of_path hpath).2, fun w hw => ?_⟩
    by_cases hbarrier : w ∈ d.barriers
    · exact List.mem_append_left _ (hhoists.extends.barriers ▸ hbarrier)
    · exact List.mem_append_right _
        ((h.mem_held_iff hjob.wellFormed hd).mpr ⟨hbarrier, hforks.trans (.single hw)⟩)

/-- Each arm starts at one node, which is ready when the others are held back. -/
theorem lone_arms : ∀ x ∈ b.arms,
    job.Lone ((s.hold (job.held d b)).write (some c) b.header) x.2 := by
  intro x hx w hw
  have hlead : job.graph.Leads c w := (h.divides.leads w).mpr (.inr ⟨x, hx, hw⟩)
  have hsingle := h.divides.single x.2 (mem_targets.mpr (.inr ⟨x, hx, rfl⟩))
  have hbarriers : ((s.hold (job.held d b)).write (some c) b.header).barriers =
      d.barriers ++ job.held d b := congrArg (· ++ _) hhoists.extends.barriers
  refine ⟨h.reached.step hlead, fun v hv hpath a ha hav => ?_, fun w' hw' => hsingle w' hw' w hw⟩
  rw [Draft.Meets, hbarriers, List.mem_append, not_or, not_or] at hv
  obtain ⟨hnew, hfree, hheld⟩ := hv
  have hunmet : ¬ d.Meets v := not_or.mpr ⟨fun hin => hnew (hhoists.extends.subset hin), hfree⟩
  rcases h.ready v hunmet (.head hlead hpath) a ha hav with hin | hback
  · exact .inl (hhoists.extends.subset hin)
  · rcases ReflTransGen.cases_head hback with rfl | ⟨w', hlead', hback⟩
    · exact .inl (hhoists.extends.subset h.entered)
    · -- another successor that leads to the node would have it held back
      by_cases hne : w = w'
      · exact .inr (hne ▸ hback)
      · refine absurd ((h.mem_held_iff hjob.wellFormed hd).mpr ⟨hfree, w, w', hne, ?_⟩) hheld
        exact ⟨hlead, hlead', hpath, hback.tail hav⟩

variable (harms : Emits job (.arms c b.arms)
  ((s.hold (job.held d b)).write (some c) b.header) f)
include harms

/-- The arms enter all that lies behind them and is not held back. -/
theorem arms_cover {x : Arm × List Nat} (hx : x ∈ b.arms) (hw : w ∈ x.2)
    (hpath : ReflTransGen job.graph.Leads w v) (hfree : v ∉ d.barriers)
    (hforks : ¬ job.graph.Forks c v) : v ∈ f.entered := by
  have hlead : job.graph.Leads c w := (h.divides.leads w).mpr (.inr ⟨x, hx, hw⟩)
  refine (h.sorted_hold hjob hd hhoists).covers hjob.separated harms (fun _ _ _ _ => trivial)
    ⟨x, hx, hw⟩ (h.reached.step hlead) (h.fresh_hoists hjob hhoists w (.single hlead)) hpath ?_
  intro hin
  rcases List.mem_append.mp hin with hin | hin
  · exact hfree (hhoists.extends.barriers ▸ hin)
  · exact hforks ((h.mem_held_iff hjob.wellFormed hd).mp hin).2

/-- The arms enter nothing behind the node that is held back or that only what runs after the block
leads to. -/
theorem arms_only (hpath : TransGen job.graph.Leads c v) (hv : v ∈ f.entered) :
    (∃ x ∈ b.arms, ∃ w ∈ x.2, ReflTransGen job.graph.Leads w v) ∧ ¬ job.graph.Forks c v := by
  rcases harms.enters_behind hjob.separated (fun _ _ _ _ => trivial) v hv with hin | hdata | hbehind
  · exact absurd hin (h.fresh_hoists hjob hhoists v hpath)
  · exact absurd hpath (hdata.not_behind hjob.separated)
  · obtain ⟨⟨w, ⟨x, hx, hw⟩, hback⟩, hfree⟩ := hbehind
    refine ⟨⟨x, hx, w, hw, hback⟩, fun hforks => hfree ?_⟩
    by_cases hbarrier : v ∈ d.barriers
    · exact List.mem_append_left _ (hhoists.extends.barriers ▸ hbarrier)
    · exact List.mem_append_right _ ((h.mem_held_iff hjob.wellFormed hd).mpr ⟨hbarrier, hforks⟩)

omit hjob h hd in
/-- When the block is closed, what is held back is what was held back before it. -/
theorem letGo_barriers : (f.letGo (job.held d b)).barriers = d.barriers := by
  have hfree : ∀ v ∈ job.held d b, v ∉ s.barriers := hhoists.extends.barriers ▸ held_free
  exact (Draft.letGo_extends hfree
    ((Draft.write_extends _ _ _).trans harms.extends)).barriers.trans hhoists.extends.barriers

omit hjob h in
/-- When the block is closed, the order of the flow is kept. -/
theorem sorted_letGo (hf : job.Sorted f) : job.Sorted (f.letGo (job.held d b)) := by
  refine ⟨hf.edges, fun v hv => ?_⟩
  rw [letGo_barriers hhoists harms] at hv ⊢
  obtain ⟨-, hreached, hports, hclosed⟩ := hd.barriers v hv
  have hbarrier : v ∈ f.barriers := by
    rw [harms.extends.barriers]
    exact List.mem_append_left _ (hhoists.extends.barriers ▸ hv)
  exact ⟨(hf.barriers v hbarrier).1, hreached, hports, hclosed⟩

/-- A node behind which all that runs after the block lies is ready when the block is closed. -/
theorem ready_after (hq : TransGen job.graph.Leads c w)
    (hall : ∀ u, job.graph.After c u → ReflTransGen job.graph.Leads w u) :
    job.Ready (f.letGo (job.held d b)) w := by
  intro v hv hpath a ha hav
  have hsubset : d.entered ⊆ f.entered :=
    fun u hu => harms.extends.subset (hhoists.extends.subset hu)
  rw [Draft.Meets, letGo_barriers hhoists harms, not_or] at hv
  obtain ⟨hnew, hfree⟩ := hv
  have hunmet : ¬ d.Meets v := not_or.mpr ⟨fun hin => hnew (hsubset hin), hfree⟩
  rcases h.ready v hunmet (hq.to_reflTransGen.trans hpath) a ha hav with hin | hback
  · exact .inl (hsubset hin)
  · rcases ReflTransGen.cases_head hback with rfl | ⟨w', hlead, hback⟩
    · exact .inl (hsubset h.entered)
    · rcases (h.divides.leads w').mp hlead with hrest | ⟨x, hx, hw'⟩
      · exact .inr (hall a (.inr ⟨w', (h.divides.rest w').mp hrest, hback⟩))
      · -- an arm has entered the node, unless it is held back
        by_cases hforks : job.graph.Forks c a
        · exact .inr (hall a (.inl hforks))
        · have hin : a ∈ f.entered := h.arms_cover hjob hd hhoists harms hx hw' hback
            (hd.free_of_leads (.single hav) hfree) hforks
          exact .inl hin

/-- What runs after the block starts at one node. -/
theorem leading_rest : job.Leading (f.letGo (job.held d b)) b.rest := by
  intro w rest hsplit
  have hw : w ∈ b.rest := hsplit ▸ List.mem_cons_self
  have hcontinues := (h.divides.rest w).mp hw
  obtain ⟨p, -, hall, honly⟩ := hjob.resumes c w (.inr ⟨w, hcontinues, .refl⟩)
  obtain rfl := honly w hcontinues
  refine ⟨h.reached.step hcontinues.1,
    h.ready_after hjob hd hhoists harms (.single hcontinues.1) hall, fun v hv => .inl ?_⟩
  exact h.divides.single b.rest (mem_targets.mpr (.inl rfl)) v (hsplit ▸ List.mem_cons_of_mem _ hv) w hw

/-- What was held back has been met when what runs after the block has been entered. -/
theorem held_met (hf : job.Sorted f) (hw : w ∈ b.rest)
    (hrest : Emits job (.flows b.rest) (f.letGo (job.held d b)) e) :
    ∀ v ∈ job.held d b, e.Meets v := by
  intro v hv
  obtain ⟨hfree, hforks⟩ := (h.mem_held_iff hjob.wellFormed hd).mp hv
  have hcontinues := (h.divides.rest w).mp hw
  obtain ⟨p, -, hall, honly⟩ := hjob.resumes c v (.inl hforks)
  obtain rfl := honly w hcontinues
  have hnew : w ∉ f.entered := by
    intro hin
    obtain ⟨⟨x, hx, w', hw', hback⟩, hnone⟩ :=
      h.arms_only hjob hd hhoists harms (.single hcontinues.1) hin
    refine hnone ⟨w, w', fun heq => ?_, hcontinues.1,
      (h.divides.leads w').mpr (.inr ⟨x, hx, hw'⟩), .refl, hback⟩
    obtain ⟨-, -, hdisjoint⟩ := List.pairwise_append.mp h.divides.disjoint
    exact hdisjoint x.2 (List.mem_map_of_mem hx) b.rest List.mem_cons_self (heq ▸ hw') hw
  refine .inl ((sorted_letGo hd hhoists harms hf).covers hjob.separated hrest
    (fun _ _ => trivial) hw (h.reached.step hcontinues.1) hnew (hall v (.inl hforks)) ?_)
  rwa [letGo_barriers hhoists harms]

/-- Without anything else that runs after the block, what was held back lies behind its first
node. -/
theorem leading_held (hnone : b.rest = []) :
    job.Leading (f.letGo (job.held d b)) (job.held d b) := by
  intro w rest hsplit
  have hmem (v : Nat) := h.mem_held_iff (v := v) hjob.wellFormed hd
  have hw : w ∈ job.held d b := hsplit ▸ List.mem_cons_self
  obtain ⟨hfree, hforks⟩ := (hmem w).mp hw
  obtain ⟨p, hafter, hall, -⟩ := hjob.resumes c w (.inl hforks)
  have hpForks : job.graph.Forks c p := by
    refine hafter.resolve_right ?_
    rintro ⟨x, hx, -⟩
    have hin := (h.divides.rest x).mpr hx
    rw [hnone] at hin
    cases hin
  have hp : p ∈ w :: rest :=
    hsplit ▸ (hmem p).mpr ⟨hd.free_of_leads (hall w (.inl hforks)) hfree, hpForks⟩
  have hpairwise : (w :: rest).Pairwise fun a b => ¬ TransGen job.graph.Leads b a :=
    hsplit ▸ (hjob.order.filter _).filter _
  -- the first node in order is the one that leads to all others
  obtain rfl : p = w := by
    by_contra hne
    have hin : p ∈ rest := (List.mem_cons.mp hp).resolve_left hne
    have hpath : TransGen job.graph.Leads p w :=
      (Relation.reflTransGen_iff_eq_or_transGen.mp (hall w (.inl hforks))).resolve_left (Ne.symm hne)
    exact (List.pairwise_cons.mp hpairwise).1 p hin hpath
  refine ⟨h.reached.trans hforks.leads.to_reflTransGen,
    h.ready_after hjob hd hhoists harms hforks.leads hall, fun v hv => .inr ⟨?_, ?_⟩⟩
  · exact fun hin => (h.arms_only hjob hd hhoists harms hforks.leads hin).2 hforks
  · exact hall v (.inl ((hmem v).mp (hsplit ▸ List.mem_cons_of_mem _ hv)).2)

end Phases

end Divided

/-- Work that keeps the order of the flow. -/
def Due (job : Job) (d : Draft) : Task → Prop
  | .flow w => job.graph.Reached w ∧ job.Ready d w
  | .flows ws => job.Leading d ws
  | .arms _ xs => ∀ x ∈ xs, job.Lone d x.2
  | .block c b => job.Divided d c b
  | t => t.Of job.DataOnly fun _ => False

namespace Sequential

variable (hjob : job.Sequential)
include hjob

/-- A node that the flow comes to, when it and what it reads have been entered, and writes a block. -/
theorem divided (hd : job.Sorted d) (hv : job.Due d (.flow v)) (hnew : v ∉ d.entered)
    (hdeps : Emits job (.values (job.graph.dependencies v)) (d.enter v) e)
    (hblock : job.block? e v = some (b, s)) : job.Divided s v b := by
  have halike := block?_alike hblock
  have hsubset : d.entered ⊆ s.entered := by
    rw [halike.entered]
    exact fun u hu => hdeps.extends.subset (Draft.mem_enter.mpr (.inl hu))
  have hbarriers : s.barriers = d.barriers := halike.barriers.trans hdeps.extends.barriers
  refine ⟨hv.1, ?_, ?_, hv.2.mono hsubset (hbarriers ▸ List.Subset.refl _),
    divides_of_narrow (hjob.narrow v) hblock⟩
  · exact halike.entered ▸ hdeps.extends.subset (Draft.mem_enter.mpr (.inr rfl))
  · exact halike.entered ▸ hd.fresh hjob.separated hv.1 hnew hdeps

/-- A node that the flow comes to, when it and what it reads have been entered and it writes no
block, has one successor. -/
theorem lone (hv : job.Due d (.flow v))
    (hdeps : Emits job (.values (job.graph.dependencies v)) (d.enter v) e)
    (hnone : job.block? e v = none) :
    job.Lone (job.writeGuarded e v) (job.graph.successors v) := by
  have hwrites := writeGuarded_writes job e v
  refine lone_successors hv.1 ?_ (hv.2.mono ?_ ?_) (hjob.eq_of_plain hnone)
  · exact hwrites.entered ▸ hdeps.extends.subset (Draft.mem_enter.mpr (.inr rfl))
  · rw [hwrites.entered]
    exact fun u hu => hdeps.extends.subset (Draft.mem_enter.mpr (.inl hu))
  · rw [hwrites.barriers, hdeps.extends.barriers]
    exact List.Subset.refl _

/-- Work that is due keeps the order of the flow. -/
theorem sorted (h : Emits job t d e) (ht : job.Due d t) (hd : job.Sorted d) : job.Sorted e := by
  have hsep := hjob.separated
  induction h with
  | value_skip | values_nil | hoists_nil | flow_skip | flows_nil | arms_nil => exact hd
  | value_enter hnew hdeps => exact hd.values hsep (.value_enter hnew hdeps) ht
  | values_cons hfirst hrest => exact hd.values hsep (.values_cons hfirst hrest) ht
  | hoists_take hshared hhoistable hfirst hrest =>
    exact hd.values hsep (.hoists_take hshared hhoistable hfirst hrest) ht
  | hoists_leave hleave hrest => exact hd.values hsep (.hoists_leave hleave hrest) ht
  | @flow_plain v d e f hfree hnew hdeps hnone _ _ _ ih =>
    have hwrites := writeGuarded_writes job e v
    have hread := hd.read hsep hfree hnew ht.2 hdeps
    exact ih (hjob.lone ht hdeps hnone).leading (hread.congr hwrites.entered hwrites.barriers)
  | @flow_scope v d e f hfree hnew hdeps hnone _ _ _ ih =>
    have hwrites := writeGuarded_writes job e v
    have hread := hd.read hsep hfree hnew ht.2 hdeps
    refine ih (fun x hx => ?_) (hread.congr hwrites.entered hwrites.barriers)
    exact List.mem_singleton.mp hx ▸ hjob.lone ht hdeps hnone
  | @flow_block v d e b s f hfree hnew hdeps hblock _ _ ih =>
    have halike := block?_alike hblock
    have hread := hd.read hsep hfree hnew ht.2 hdeps
    exact ih (hjob.divided hd ht hnew hdeps hblock) (hread.congr halike.entered halike.barriers)
  | @block c b d e f g i hhoists harms hrest hheld _ ihArms ihRest ihHeld =>
    have ht : job.Divided d c b := ht
    have hf := ihArms (ht.lone_arms hjob hd hhoists) (ht.sorted_hold hjob hd hhoists)
    have hletGo := Divided.sorted_letGo hd hhoists harms hf
    have hg := ihRest (ht.leading_rest hjob hd hhoists harms) hletGo
    cases hsplit : b.rest with
    | nil =>
      rw [hsplit] at hrest
      cases hrest
      exact ihHeld (ht.leading_held hjob hd hhoists harms hsplit) hg
    | cons w rest =>
      have hmet := ht.held_met hjob hd hhoists harms hf (hsplit ▸ List.mem_cons_self) hrest
      obtain rfl := hheld.flows_met hmet
      exact hg
  | @flows_cons w ws d e f hfirst hrest ih _ =>
    obtain ⟨hreached, hready, -⟩ := ht w ws rfl
    obtain rfl := hrest.flows_met (Leading.met hsep hd ht hfirst)
    exact ih ⟨hreached, hready⟩ hd
  | @arms_cons c arm targets rest d e f harm hrest ihArm ihRest =>
    have he := ihArm (ht _ List.mem_cons_self).leading (hd.congr rfl rfl)
    refine ihRest (fun x hx => ?_) (he.congr (by simp) (by simp))
    refine (ht x (List.mem_cons_of_mem _ hx)).mono ?_ ?_
    · rw [Draft.nextArm_entered, Draft.endArm_entered]
      exact harm.extends.subset
    · rw [Draft.nextArm_barriers, Draft.endArm_barriers, harm.extends.barriers]
      exact List.Subset.refl _

omit hjob in
/-- With one entry point, the flow may start there. -/
theorem due_entry {entry : Nat} (hentry : job.graph.entryPoints = [entry]) (d : Draft) :
    job.Due d (.flow entry) := by
  refine ⟨⟨entry, by simp [hentry], .refl⟩, fun v _ _ a ha _ => .inr ?_⟩
  obtain ⟨x, hx, hpath⟩ := ha
  rw [hentry, List.mem_singleton] at hx
  exact hx ▸ hpath

/-- The inputs of an entry point come before the flow. -/
theorem sorted_inputs {entry : Nat} (hentered : d.entered = []) (hbarriers : d.barriers = [])
    (h : Emits job (.values ((job.entryMembers entry).filter job.isPlainInput)) d e) :
    job.Sorted e := by
  have hstart : job.Sorted d := by
    constructor <;> simp [hentered, hbarriers]
  exact hstart.values hjob.separated h
    fun v hv => dataOnly_of_isPlainInput (List.mem_filter.mp hv).2

/-- The work for the one entry point of a graph enters all that the flow comes to, in order. -/
theorem sorted_entry {entry : Nat} (hentry : job.graph.entryPoints = [entry])
    (h : Performs job (job.entryTasks entry) d e) (hentered : d.entered = [])
    (hbarriers : d.barriers = []) :
    job.Sorted e ∧ ∀ v, job.graph.Reached v → v ∈ e.entered := by
  cases h with
  | cons hvalues hrest =>
    cases hrest with
    | cons hflow hnil =>
      cases hnil
      refine ⟨hjob.sorted hflow (due_entry hentry _)
        (hjob.sorted_inputs hentered hbarriers hvalues), fun v hv => ?_⟩
      refine Performs.reached_mem hjob.separated (d := d) ?_ hbarriers hentered hv
      rw [hentry]
      exact .cons hvalues (.cons hflow .nil)

end Sequential

end Job

namespace Generator

variable {σ : Type}

/-- Let a graph have one entry point, let data and execution be kept apart in it, let its conditionals
and loops have an input and at most one target for each branch, and let what runs after each block
have one beginning. Then rendering enters the ends of every execution edge that the flow comes to in
the order of the edge. -/
theorem execution_edges_are_respected (ask : PatternSource σ) (s : σ) (doc : Document)
    (settings : Settings) (conversions : Conversions) (known : List (String × Option Pattern))
    (entry a b : Nat) (hmode : mode (.ofDocument doc) = .execution)
    (hentry : (FlowGraph.ofDocument doc).entryPoints = [entry])
    (hseparated : (FlowGraph.ofDocument doc).Separated)
    (hinputs : ∀ c n, (FlowGraph.ofDocument doc).node? c = some n → n.kind.isControl = true →
      n.inputs ≠ [])
    (hnarrow : ∀ c, (FlowGraph.ofDocument doc).Narrow c)
    (hresumes : ∀ c, (FlowGraph.ofDocument doc).Resumes c)
    (hreached : ReflTransGen (FlowGraph.ofDocument doc).Leads entry a)
    (hedge : (FlowGraph.ofDocument doc).Leads a b) :
    let gen : Generator := ⟨.ofDocument doc, settings, conversions, known⟩
    ∃ d, gen.rendering ask s = .ok d ∧ [a, b].Sublist (entries d.trace) := by
  intro gen
  have hg : gen.graph.WellFormed := FlowGraph.ofDocument_wellFormed doc
  have hjob : (gen.fittedJob ask s).Sequential :=
    ⟨fittedJob_wellFormed ask hg s, hseparated, hseparated.order_forward hg, hinputs, hnarrow,
      hresumes⟩
  obtain ⟨e, hperforms, hrendering⟩ := rendering_performs ask hg s
  refine ⟨_, hrendering, ?_⟩
  obtain ⟨new, hentered, -, -, hentries⟩ :=
    (hperforms.extends.trans (Job.closing_extends (gen.fittedJob ask s) e)).entered
  have hentries : entries ((gen.fittedJob ask s).closing e).trace = e.entered := by
    rw [hentries.trans hentered.symm, Job.closing_entered]
  rw [hentries]
  rw [Job.bodyTasks, show (gen.fittedJob ask s).mode = .execution from hmode] at hperforms
  obtain ⟨f, hfirst, hlast⟩ := hperforms.split
  rw [show (gen.fittedJob ask s).graph.entryPoints = [entry] from hentry, List.flatMap_singleton]
    at hfirst
  obtain ⟨hsorted, hall⟩ := hjob.sorted_entry hentry hfirst rfl rfl
  have ha : (gen.fittedJob ask s).graph.Reached a :=
    ⟨entry, by rw [show (gen.fittedJob ask s).graph.entryPoints = [entry] from hentry]; simp, hreached⟩
  obtain ⟨more, hmore, -⟩ := hlast.extends.entered
  rw [hmore]
  exact (hsorted.edges a b ha hedge (hall b (ha.step hedge))).trans (List.sublist_append_left _ _)

/-- The nodes where branches meet are entered in the order of the edge between them, also though one
block is inside the other. -/
theorem nestedMeeting_respected :
    let g := FlowGraph.ofDocument nestedMeeting
    (g.entryPoints = [1] ∧ g.Separated ∧ (∀ c, g.Narrow c) ∧ (∀ c, g.Resumes c) ∧ g.Leads 5 7) ∧
    ∃ d, (Generator.new g .standard).rendering unanswered () = .ok d ∧
      [5, 7].Sublist (entries d.trace) := by
  intro g
  have hg : g.WellFormed := FlowGraph.ofDocument_wellFormed nestedMeeting
  have hentry : g.entryPoints = [1] := by decide
  have hseparated : g.Separated := FlowGraph.separated_of_edges (by decide) (by decide)
  have hcontrol : ∀ n ∈ g.nodes, n.kind.isControl = true → n.inputs ≠ [] := by decide
  have hnarrow := hg.narrow_of_search (by decide +kernel)
  have hresumes := hg.resumes_of_search (by decide +kernel)
  have hreached : ReflTransGen g.Leads 1 5 := (hg.mem_behind (by decide)).mp (by decide +kernel)
  have hedge : g.Leads 5 7 := FlowGraph.mem_successors.mp (by decide +kernel)
  exact ⟨⟨hentry, hseparated, hnarrow, hresumes, hedge⟩,
    execution_edges_are_respected unanswered () nestedMeeting .standard (.standard .standard) []
      1 5 7 (by decide) hentry hseparated (fun c n hn => hcontrol n (List.mem_of_getElem? hn))
      hnarrow hresumes hreached hedge⟩

/-- A conditional whose branches meet before they meet what runs after it. -/
def earlyMeeting : Document where
  nodes :=
    [⟨"choice", "choice", none, some .conditional, [⟨"cond", "cond", "bool", false, none⟩], [],
        some true, [], [], none, none⟩,
      ⟨"left", "left", none, some .plain, [], [], some true, [], [], none, none⟩,
      ⟨"right", "right", none, some .plain, [], [], some true, [], [], none, none⟩,
      ⟨"rest", "rest", none, some .plain, [], [], some true, [], [], none, none⟩,
      ⟨"first", "first", none, some .plain, [], [], some true, [], [], none, none⟩,
      ⟨"second", "second", none, some .plain, [], [], some true, [], [], none, none⟩]
  edges :=
    [⟨"e1", "choice", "left", none, none, some ⟨some .execution, some "then"⟩⟩,
      ⟨"e2", "choice", "right", none, none, some ⟨some .execution, some "else"⟩⟩,
      ⟨"e3", "choice", "rest", none, none, some ⟨some .execution, none⟩⟩,
      ⟨"e4", "left", "first", none, none, some ⟨some .execution, none⟩⟩,
      ⟨"e5", "right", "first", none, none, some ⟨some .execution, none⟩⟩,
      ⟨"e6", "first", "second", none, none, some ⟨some .execution, none⟩⟩,
      ⟨"e7", "rest", "second", none, none, some ⟨some .execution, none⟩⟩]

/-- Without one beginning of what runs after a block, a node can be entered before another that leads
to it. -/
theorem earlyMeeting_disordered :
    let g := FlowGraph.ofDocument earlyMeeting
    (mode g = .execution ∧ g.entryPoints = [0] ∧ g.schedule.cycles = [] ∧ g.Separated ∧
      (∀ n ∈ g.nodes, n.kind.isControl = true → n.inputs ≠ []) ∧ (∀ c, g.Narrow c) ∧
      ReflTransGen g.Leads 0 4 ∧ g.Leads 4 5) ∧
    ∃ d, (Generator.new g .standard).rendering unanswered () = .ok d ∧
      [5, 4].Sublist (entries d.trace) ∧ ¬ [4, 5].Sublist (entries d.trace) := by
  intro g
  have hg : g.WellFormed := FlowGraph.ofDocument_wellFormed earlyMeeting
  obtain ⟨d, hrendering, htrace⟩ : ∃ d, (Generator.new g .standard).rendering unanswered () = .ok d ∧
      d.trace = [.enter 0, .line (some 0) 0 "if False:", .opened 0 .thenArm, .enter 1,
        .line none 1 "pass", .closed 0 .thenArm, .line none 0 "else:", .opened 0 .elseArm, .enter 2,
        .line none 1 "pass", .closed 0 .elseArm, .enter 3, .enter 5, .enter 4] :=
    exists_rendering (by decide +kernel)
  refine ⟨⟨by decide, by decide, by decide +kernel, ?_, by decide, ?_, ?_, ?_⟩, d, hrendering, ?_⟩
  · exact FlowGraph.separated_of_edges (by decide) (by decide)
  · exact hg.narrow_of_search (by decide +kernel)
  · exact (hg.mem_behind (by decide)).mp (by decide +kernel)
  · exact FlowGraph.mem_successors.mp (by decide +kernel)
  · rw [htrace]
    decide

end Generator

end FlowScript
