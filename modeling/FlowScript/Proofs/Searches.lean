import FlowScript.Proofs.Regions
import FlowScript.Proofs.Sources
import Mathlib.Data.Finset.Card
import Mathlib.Data.List.Perm.Basic

/-!
# Searches in any order

A search may take its pending nodes in any order: what it has found in the end is what can be reached.
A question about all that a node leads to may be answered by a recursion that takes every node it has
seen for good, since what it once began with it either goes through or fails on. The regions of the
flow, the values they need and the values that can be hoisted are such searches, on any graph.
-/

namespace FlowScript

open Relation (ReflTransGen)

variable {size : Nat} {step : Nat → List Nat} {R R' : Nat → Nat → Prop} {P P' : Nat → Prop}

/-- A walk from one node to another through nodes of some sort, both ends included. -/
def Passes (R : Nat → Nat → Prop) (P : Nat → Prop) (s v : Nat) : Prop :=
  P s ∧ ReflTransGen (fun a b => R a b ∧ P b) s v

theorem Passes.tail {s v w : Nat} (h : Passes R P s v) (hstep : R v w) (hw : P w) : Passes R P s w :=
  ⟨h.1, h.2.tail ⟨hstep, hw⟩⟩

/-- Every step of a walk may be read in another way. -/
theorem Passes.imp {s v : Nat} (h : Passes R P s v) (hs : P s → P' s)
    (hstep : ∀ a b, R a b → P b → R' a b ∧ P' b) : Passes R' P' s v :=
  ⟨hs h.1, ReflTransGen.mono (fun a b hab => hstep a b hab.1 hab.2) _ _ h.2⟩

/-- The number of nodes that have not been seen. -/
def unseen (size : Nat) (seen : List Nat) : Nat :=
  (Finset.range size \ seen.toFinset).card

theorem unseen_mono {seen seen' : List Nat} (h : seen ⊆ seen') : unseen size seen' ≤ unseen size seen := by
  refine Finset.card_le_card (Finset.sdiff_subset_sdiff (Finset.Subset.refl _) fun v hv => ?_)
  exact List.mem_toFinset.mpr (h (List.mem_toFinset.mp hv))

theorem unseen_cons_lt {seen : List Nat} {v : Nat} (hv : v < size) (hnew : v ∉ seen) :
    unseen size (v :: seen) < unseen size seen := by
  refine Finset.card_lt_card (Finset.ssubset_iff_of_subset ?_ |>.mpr ⟨v, ?_, ?_⟩)
  · exact Finset.sdiff_subset_sdiff (Finset.Subset.refl _) (by simp)
  · simp [hv, hnew]
  · simp

/-! ### Searches with pending nodes -/

/-- A search under way. -/
structure Search where
  pending : List Nat
  found : List Nat

namespace Search

/-- One step of a search through nodes of some sort. Any pending node is taken: if it is of the sort and
new, it is found, and the nodes it leads to are put among the pending ones, at any place. -/
inductive Step (step : Nat → List Nat) (P : Nat → Prop) : Search → Search → Prop
  | skip {before after found : List Nat} {v : Nat} : ¬ P v ∨ v ∈ found →
      Step step P ⟨before ++ v :: after, found⟩ ⟨before ++ after, found⟩
  | find {before after found pending : List Nat} {v : Nat} : P v → v ∉ found →
      pending.Perm (step v ++ (before ++ after)) →
      Step step P ⟨before ++ v :: after, found⟩ ⟨pending, v :: found⟩

/-- Whatever a search takes next, it comes to an end, and then it has found the nodes of a list. -/
def Finds (step : Nat → List Nat) (P : Nat → Prop) (starts found : List Nat) : Prop :=
  Acc (fun t s => Step step P s t) ⟨starts, []⟩ ∧
    ∀ s, ReflTransGen (Step step P) ⟨starts, []⟩ s → s.pending = [] → ∀ v, v ∈ s.found ↔ v ∈ found

/-- A search holds nodes that can be reached, and of the nodes to be found none is lost. -/
structure Covers (step : Nat → List Nat) (P : Nat → Prop) (starts : List Nat) (s : Search) : Prop where
  found : ∀ v ∈ s.found, ∃ u ∈ starts, Passes (fun a b => b ∈ step a) P u v
  pending : ∀ v ∈ s.pending, P v → ∃ u ∈ starts, Passes (fun a b => b ∈ step a) P u v
  starts : ∀ v ∈ starts, P v → v ∈ s.found ∨ v ∈ s.pending
  closed : ∀ v ∈ s.found, ∀ w ∈ step v, P w → w ∈ s.found ∨ w ∈ s.pending

variable {s t : Search} {starts : List Nat}

/-- The pending nodes beside the one that is taken are pending. -/
theorem mem_beside {before after : List Nat} {v w : Nat} (h : w ∈ before ++ after) :
    w ∈ before ++ v :: after := by
  rcases List.mem_append.mp h with h | h
  · exact List.mem_append_left _ h
  · exact List.mem_append_right _ (List.mem_cons_of_mem _ h)

/-- A node that is to be found stays found or pending. -/
theorem Step.keeps (h : Step step P s t) {w : Nat} (hw : P w) (hin : w ∈ s.found ∨ w ∈ s.pending) :
    w ∈ t.found ∨ w ∈ t.pending := by
  cases h with
  | skip hskip => grind
  | find hv hnew hpending =>
    have hmem := @List.Perm.mem_iff _ w _ _ hpending
    grind

theorem Step.covers (h : Step step P s t) (hs : Covers step P starts s) : Covers step P starts t := by
  have hkeeps (w : Nat) : P w → w ∈ s.found ∨ w ∈ s.pending → w ∈ t.found ∨ w ∈ t.pending :=
    h.keeps
  have hstarts : ∀ v ∈ starts, P v → v ∈ t.found ∨ v ∈ t.pending :=
    fun v hv hPv => hkeeps v hPv (hs.starts v hv hPv)
  cases h with
  | @skip before after found v hskip =>
    refine ⟨hs.found, fun w hw => hs.pending w (mem_beside hw), hstarts, fun u hu w hw hPw => ?_⟩
    exact hkeeps w hPw (hs.closed u hu w hw hPw)
  | @find before after found pending v hPv hnew hpending =>
    have hv := hs.pending v (List.mem_append_right _ List.mem_cons_self) hPv
    refine ⟨fun w hw => ?_, fun w hw hPw => ?_, hstarts, fun u hu w hw hPw => ?_⟩
    · rcases List.mem_cons.mp hw with rfl | hw
      · exact hv
      · exact hs.found w hw
    · rcases List.mem_append.mp (hpending.mem_iff.mp hw) with hw | hw
      · obtain ⟨u, hu, hwalk⟩ := hv
        exact ⟨u, hu, hwalk.tail hw hPw⟩
      · exact hs.pending w (mem_beside hw) hPw
    · rcases List.mem_cons.mp hu with rfl | hu
      · exact Or.inr (hpending.mem_iff.mpr (List.mem_append_left _ hw))
      · exact hkeeps w hPw (hs.closed u hu w hw hPw)

/-- A search that has come to its end has found what can be reached. -/
theorem mem_found_iff (h : ReflTransGen (Step step P) ⟨starts, []⟩ s) (hend : s.pending = []) {v : Nat} :
    v ∈ s.found ↔ ∃ u ∈ starts, Passes (fun a b => b ∈ step a) P u v := by
  have hcovers : Covers step P starts s := by
    clear hend
    induction h with
    | refl => exact ⟨by simp, fun v hv hPv => ⟨v, hv, hPv, .refl⟩, fun v hv _ => .inr hv, by simp⟩
    | tail _ hlast ih => exact hlast.covers ih
  have hfound {w : Nat} (hw : w ∈ s.found ∨ w ∈ s.pending) : w ∈ s.found := by simpa [hend] using hw
  refine ⟨hcovers.found v, ?_⟩
  rintro ⟨u, hu, hPu, hwalk⟩
  induction hwalk with
  | refl => exact hfound (hcovers.starts u hu hPu)
  | tail _ hlast ih => exact hfound (hcovers.closed _ ih _ hlast.1 hlast.2)

/-- A search finds a new node or has one pending node less, so it comes to an end. -/
theorem acc_step (hstep : ∀ v, ∀ w ∈ step v, w < size) (hpending : ∀ v ∈ s.pending, v < size) :
    Acc (fun t s => Step step P s t) s := by
  obtain ⟨pending, found⟩ := s
  -- outside on the nodes that have not been found, inside on the pending nodes
  induction hn : unseen size found using Nat.strongRecOn generalizing pending found with
  | ind n ihFound =>
    induction hk : pending.length generalizing pending with
    | zero =>
      obtain rfl := List.length_eq_zero_iff.mp hk
      refine Acc.intro _ fun t ht => ?_
      generalize hs : (⟨[], found⟩ : Search) = s at ht
      cases ht <;> simp at hs
    | succ k ihPending =>
      refine Acc.intro _ fun t ht => ?_
      generalize hs : (⟨pending, found⟩ : Search) = s at ht
      cases ht with
      | @skip before after found' v hskip =>
        obtain ⟨rfl, rfl⟩ := Search.mk.inj hs
        refine ihPending (before ++ after) (fun w hw => hpending w (mem_beside hw)) ?_
        rw [List.length_append, List.length_cons] at hk
        rw [List.length_append]
        omega
      | @find before after found' pending' v hPv hnew hperm =>
        obtain ⟨rfl, rfl⟩ := Search.mk.inj hs
        have hv : v < size := hpending v (List.mem_append_right _ List.mem_cons_self)
        refine ihFound _ (hn ▸ unseen_cons_lt hv hnew) pending' _ (fun w hw => ?_) rfl
        rcases List.mem_append.mp (hperm.mem_iff.mp hw) with hw | hw
        · exact hstep v w hw
        · exact hpending w (mem_beside hw)

/-- A search finds the nodes of a list if these are the nodes that can be reached. -/
theorem finds_of_mem_iff (hstep : ∀ v, ∀ w ∈ step v, w < size) (hstarts : ∀ v ∈ starts, v < size)
    {found : List Nat}
    (hfound : ∀ v, v ∈ found ↔ ∃ u ∈ starts, Passes (fun a b => b ∈ step a) P u v) :
    Finds step P starts found :=
  ⟨acc_step hstep hstarts, fun _ hrun hend v => (mem_found_iff hrun hend).trans (hfound v).symm⟩

end Search

/-! ### Recursion with a list of seen nodes -/

/-- Asking of some nodes and of all that the open ones among them lead to whether none is bad. The answer
comes with the nodes seen by then: an open node that has been seen is taken for good, any other is
seen now and asked for what it leads to, in any order, and the first bad node ends the recursion. -/
inductive Probe (step : Nat → List Nat) (opens bad : Nat → Prop) :
    List Nat → List Nat → Bool → List Nat → Prop
  | nil {seen : List Nat} : Probe step opens bad [] seen true seen
  | bad {w : Nat} {ws seen : List Nat} : bad w → Probe step opens bad (w :: ws) seen false seen
  | pass {w : Nat} {ws seen seen' : List Nat} {b : Bool} : ¬ bad w → ¬ opens w ∨ w ∈ seen →
      Probe step opens bad ws seen b seen' → Probe step opens bad (w :: ws) seen b seen'
  | fail {w : Nat} {ws vs seen seen' : List Nat} : ¬ bad w → opens w → w ∉ seen → vs.Perm (step w) →
      Probe step opens bad vs (w :: seen) false seen' →
      Probe step opens bad (w :: ws) seen false seen'
  | enter {w : Nat} {ws vs seen middle seen' : List Nat} {b : Bool} : ¬ bad w → opens w → w ∉ seen →
      vs.Perm (step w) → Probe step opens bad vs (w :: seen) true middle →
      Probe step opens bad ws middle b seen' → Probe step opens bad (w :: ws) seen b seen'

/-- The answer for a node with nothing seen before. -/
def Answers (step : Nat → List Nat) (opens bad : Nat → Prop) (v : Nat) (b : Bool) : Prop :=
  ∃ vs seen, vs.Perm (step v) ∧ Probe step opens bad vs [v] b seen

/-- A node leads to a bad one through open nodes that are not bad. -/
def LeadsToBad (step : Nat → List Nat) (opens bad : Nat → Prop) (v : Nat) : Prop :=
  ∃ u w, ReflTransGen (fun a b => b ∈ step a ∧ opens b ∧ ¬ bad b) v u ∧ w ∈ step u ∧ bad w

namespace Probe

variable {opens bad : Nat → Prop} {ws seen seen' : List Nat}

/-- A recursion fails only if there is a bad node. -/
theorem exists_bad (h : Probe step opens bad ws seen false seen') :
    ∃ w ∈ ws, bad w ∨ opens w ∧ ¬ bad w ∧ LeadsToBad step opens bad w := by
  generalize hb : false = b at h
  induction h with
  | nil => cases hb
  | bad hbad => exact ⟨_, List.mem_cons_self, Or.inl hbad⟩
  | pass _ _ _ ih =>
    obtain ⟨w, hw, hleads⟩ := ih hb
    exact ⟨w, List.mem_cons_of_mem _ hw, hleads⟩
  | @fail w _ _ _ _ hgood hopen _ hperm _ ih =>
    obtain ⟨x, hx, hleads⟩ := ih hb
    have hstep := hperm.mem_iff.mp hx
    refine ⟨w, List.mem_cons_self, Or.inr ⟨hopen, hgood, ?_⟩⟩
    rcases hleads with hbad | ⟨hopen, hgood, u, y, hwalk, hy, hbad⟩
    · exact ⟨w, x, .refl, hstep, hbad⟩
    · exact ⟨u, y, .head ⟨hstep, hopen, hgood⟩ hwalk, hy, hbad⟩
  | enter _ _ _ _ _ _ _ ih =>
    obtain ⟨w, hw, hleads⟩ := ih hb
    exact ⟨w, List.mem_cons_of_mem _ hw, hleads⟩

/-- A recursion that does not fail has gone through what it was asked for, and through everything that
it has seen on the way. -/
theorem all_good (h : Probe step opens bad ws seen true seen') : seen ⊆ seen' ∧
    (∀ w ∈ ws, ¬ bad w ∧ (opens w → w ∈ seen')) ∧
    ∀ x ∈ seen', x ∉ seen → ∀ w ∈ step x, ¬ bad w ∧ (opens w → w ∈ seen') := by
  generalize hb : true = b at h
  induction h with
  | nil => exact ⟨List.Subset.refl _, by simp, fun x hx hnew => absurd hx hnew⟩
  | bad => cases hb
  | fail => cases hb
  | pass hgood hseen _ ih =>
    obtain ⟨hsubset, hall, hclosed⟩ := ih hb
    refine ⟨hsubset, fun x hx => ?_, hclosed⟩
    rcases List.mem_cons.mp hx with rfl | hx
    · exact ⟨hgood, fun hopen => hsubset (hseen.resolve_left (not_not_intro hopen))⟩
    · exact hall x hx
  | @enter w ws vs seen middle seen' b hgood _ _ hperm _ _ ihFirst ihRest =>
    obtain ⟨hsubset, hall, hclosed⟩ := ihFirst rfl
    obtain ⟨hsubset', hall', hclosed'⟩ := ihRest hb
    refine ⟨fun x hx => hsubset' (hsubset (List.mem_cons_of_mem _ hx)), fun x hx => ?_,
      fun x hx hnew y hy => ?_⟩
    · rcases List.mem_cons.mp hx with rfl | hx
      · exact ⟨hgood, fun _ => hsubset' (hsubset List.mem_cons_self)⟩
      · exact hall' x hx
    · -- a node seen by now was seen in the first part of the recursion or in the rest of it
      by_cases hmiddle : x ∈ middle
      · have hy : ¬ bad y ∧ (opens y → y ∈ middle) := by
          by_cases hxw : x = w
          · exact hall y (hperm.mem_iff.mpr (hxw ▸ hy))
          · exact hclosed x hmiddle (by simp [hxw, hnew]) y hy
        exact ⟨hy.1, fun hopen => hsubset' (hy.2 hopen)⟩
      · exact hclosed' x hx hmiddle y hy

/-- A recursion comes to an answer, since every node is entered once at most. -/
theorem exists_answer (hstep : ∀ v, ∀ w ∈ step v, w < size) (hws : ∀ w ∈ ws, w < size) :
    ∃ b seen', Probe step opens bad ws seen b seen' := by
  induction hn : unseen size seen using Nat.strongRecOn generalizing ws seen with
  | ind n ihSeen =>
    induction ws with
    | nil => exact ⟨true, seen, .nil⟩
    | cons w ws ih =>
      have hrest := ih fun x hx => hws x (List.mem_cons_of_mem _ hx)
      by_cases hbad : bad w
      · exact ⟨false, seen, .bad hbad⟩
      by_cases hpass : ¬ opens w ∨ w ∈ seen
      · obtain ⟨b, seen', hprobe⟩ := hrest
        exact ⟨b, seen', .pass hbad hpass hprobe⟩
      obtain ⟨hopen, hnew⟩ : opens w ∧ w ∉ seen := by simpa [not_or] using hpass
      have hless : unseen size (w :: seen) < n := hn ▸ unseen_cons_lt (hws w List.mem_cons_self) hnew
      obtain ⟨b, middle, hfirst⟩ := ihSeen _ hless (hstep w) rfl
      -- the rest has fewer unseen nodes as well, since what the first part saw stays seen
      cases b with
      | false => exact ⟨false, middle, .fail hbad hopen hnew (.refl _) hfirst⟩
      | true =>
        have hfewer := @unseen_mono size _ _ hfirst.all_good.1
        obtain ⟨b, seen', hprobe⟩ := ihSeen _ (Nat.lt_of_le_of_lt hfewer hless)
          (fun x hx => hws x (List.mem_cons_of_mem _ hx)) rfl
        exact ⟨b, seen', .enter hbad hopen hnew (.refl _) hfirst hprobe⟩

end Probe

/-- Taking seen nodes for good hides no bad node: the answer is no exactly if the node leads to one. -/
theorem Answers.eq_true_iff {opens bad : Nat → Prop} {v : Nat} {b : Bool}
    (h : Answers step opens bad v b) : b = true ↔ ¬ LeadsToBad step opens bad v := by
  obtain ⟨vs, seen, hperm, hprobe⟩ := h
  cases b with
  | false =>
    refine iff_of_false (by simp) (not_not_intro ?_)
    obtain ⟨w, hw, hleads⟩ := hprobe.exists_bad
    have hstep := hperm.mem_iff.mp hw
    rcases hleads with hbad | ⟨hopen, hgood, u, x, hwalk, hx, hbad⟩
    · exact ⟨v, w, .refl, hstep, hbad⟩
    · exact ⟨u, x, .head ⟨hstep, hopen, hgood⟩ hwalk, hx, hbad⟩
  | true =>
    refine iff_of_true rfl ?_
    rintro ⟨u, w, hwalk, hw, hbad⟩
    obtain ⟨hsubset, hall, hclosed⟩ := hprobe.all_good
    -- nothing was seen at the start, so everything taken for good has been gone through
    have hgood : ∀ x ∈ seen, ∀ y ∈ step x, ¬ bad y ∧ (opens y → y ∈ seen) := by
      intro x hx y hy
      by_cases hxv : x = v
      · exact hall y (hperm.mem_iff.mpr (hxv ▸ hy))
      · exact hclosed x hx (by simpa using hxv) y hy
    have hseen : u ∈ seen := by
      clear hw
      induction hwalk with
      | refl => exact hsubset List.mem_cons_self
      | tail _ hlast ih => exact (hgood _ ih _ hlast.1).2 hlast.2.1
    exact (hgood u hseen w hw).1 hbad

/-! ### The walks of an emission -/

/-- The rounds of a search find what can be reached, too. -/
theorem mem_reach_iff_passes {admits : Nat → Bool} {starts : List Nat}
    (hstep : ∀ v, ∀ w ∈ step v, w < size) (hstarts : ∀ v ∈ starts, v < size)
    (hadmits : ∀ v < size, admits v = true ↔ P v) (v : Nat) :
    v ∈ reach size step admits starts ↔ ∃ u ∈ starts, Passes (fun a b => b ∈ step a) P u v := by
  rw [mem_reach (fun v _ => hstep v) hstarts]
  change (∃ u ∈ starts, Passes (fun a b => b ∈ step a) (admits · = true) u v) ↔ _
  refine exists_congr fun u => and_congr_right fun hu => ⟨fun h => ?_, fun h => ?_⟩
  · exact h.imp (hadmits u (hstarts u hu)).mp
      fun a b hb hPb => ⟨hb, (hadmits b (hstep a b hb)).mp hPb⟩
  · exact h.imp (hadmits u (hstarts u hu)).mpr
      fun a b hb hPb => ⟨hb, (hadmits b (hstep a b hb)).mpr hPb⟩

/-- A node is outside the flow of execution unless it takes part in it. -/
theorem FlowGraph.isDataOnly_iff {g : FlowGraph} {v : Nat} (hv : v < g.size) :
    g.isDataOnly v = true ↔ g.hasExecutionPorts v = false := by
  obtain ⟨n, hn⟩ := exists_node hv
  simp [isDataOnly, hasExecutionPorts, hn]

namespace Job

variable {job : Job} {d : Draft} {owner u v w : Nat}

/-- A value outside a region and outside the flow of execution that has not been entered. -/
def IsNeed (job : Job) (d : Draft) (region : List Nat) (u : Nat) : Prop :=
  u ∉ d.entered ∧ u ∉ region ∧ job.graph.hasExecutionPorts u = false

/-- A node that nothing computed ahead of a block may read: the owner of the block, and what takes part
in the flow of execution and has not been entered. -/
def Blocks (job : Job) (d : Draft) (owner w : Nat) : Prop :=
  w = owner ∨ w ∉ d.entered ∧ job.graph.hasExecutionPorts w = true

section WellFormed

variable (hg : job.graph.WellFormed)
include hg

theorem successors_lt (v : Nat) : ∀ w ∈ job.graph.successors v, w < job.graph.size :=
  fun _ hw => (hg.leads_lt (FlowGraph.mem_successors.mp hw)).2

theorem dependencies_lt (v : Nat) : ∀ w ∈ job.graph.dependencies v, w < job.graph.size :=
  fun _ hw => (hg.feeds_lt (FlowGraph.mem_dependencies.mp hw)).1

/-- The flow region of some targets is what can be reached from them. -/
theorem mem_flowRegion_iff_passes {targets : List Nat} (htargets : ∀ w ∈ targets, w < job.graph.size) :
    v ∈ job.flowRegion d targets ↔ ∃ s ∈ targets, Passes (fun a b => b ∈ job.graph.successors a)
      (fun u => u ∉ d.entered ∧ u ∉ d.barriers) s v :=
  mem_reach_iff_passes (successors_lt hg) htargets (by simp) v

/-- The needs of a region are what can be reached from the values that it reads. -/
theorem mem_dataNeeds_iff_passes {region starts : List Nat}
    (hstarts : ∀ s, s ∈ starts ↔ ∃ m ∈ region, job.graph.Feeds s m) :
    v ∈ job.dataNeeds d region ↔ ∃ s ∈ starts, Passes (fun a b => b ∈ job.graph.dependencies a)
      (job.IsNeed d region) s v := by
  have hread (s : Nat) : s ∈ region.flatMap job.graph.dependencies ↔ s ∈ starts := by
    simp [hstarts]
  have hlt : ∀ s ∈ region.flatMap job.graph.dependencies, s < job.graph.size := by
    intro s hs
    obtain ⟨m, -, hdep⟩ := List.mem_flatMap.mp hs
    exact dependencies_lt hg m s hdep
  have hadmits : ∀ u < job.graph.size,
      (!d.entered.contains u && !region.contains u && job.graph.isDataOnly u) = true ↔
        job.IsNeed d region u := by
    intro u hu
    simp [IsNeed, FlowGraph.isDataOnly_iff hu, and_assoc]
  rw [dataNeeds, mem_reach_iff_passes (dependencies_lt hg) hlt hadmits]
  simp only [hread]

/-- What a value that can be hoisted still awaits reads nothing that blocks it. -/
theorem not_blocks_of_hoistable (hv : job.hoistable d owner v = true) (hu : job.Awaits d v u)
    (hw : job.graph.Feeds w u) : ¬ job.Blocks d owner w := by
  obtain ⟨hne, hread⟩ := reads_of_hoistable hg hv hu w hw
  rintro (heq | ⟨hnew, hports⟩)
  · exact hne heq
  · rw [FlowGraph.isDataOnly_iff (hg.feeds_lt hw).1, hports] at hread
    exact hread.elim hnew (by simp)

/-- A value can be hoisted unless it leads to something that blocks it. -/
theorem hoistable_iff_not_leadsToBad : job.hoistable d owner v = true ↔
    ¬ LeadsToBad job.graph.dependencies (· ∉ d.entered) (job.Blocks d owner) v := by
  constructor
  · rintro hv ⟨u, w, hwalk, hw, hblocks⟩
    refine not_blocks_of_hoistable hg hv ?_ (FlowGraph.mem_dependencies.mp hw) hblocks
    exact ReflTransGen.mono (fun a b hab => ⟨FlowGraph.mem_dependencies.mp hab.1, hab.2.1⟩) _ _ hwalk
  · intro hnone
    have hclear {a b : Nat} (hb : b ∈ job.graph.dependencies a) : ¬ job.Blocks d owner b ↔
        b ≠ owner ∧ (b ∈ d.entered ∨ job.graph.isDataOnly b = true) := by
      rw [FlowGraph.isDataOnly_iff (dependencies_lt hg a b hb), Blocks, not_or, not_and_or, not_not,
        Bool.not_eq_true]
    rw [hoistable]
    refine List.all_eq_true.mpr fun u hu => List.all_eq_true.mpr fun w hw => ?_
    have hwalk : ReflTransGen (fun a b => b ∈ job.graph.dependencies a ∧ b ∉ d.entered ∧
        ¬ job.Blocks d owner b) v u := by
      have hadmits {a b : Nat} (hb : b ∈ job.graph.dependencies a)
          (hin : (b != owner && !d.entered.contains b && job.graph.isDataOnly b) = true) :
          b ∈ job.graph.dependencies a ∧ b ∉ d.entered ∧ ¬ job.Blocks d owner b := by
        obtain ⟨⟨hne, hnew⟩, hdata⟩ : (b ≠ owner ∧ b ∉ d.entered) ∧ job.graph.isDataOnly b = true := by
          simpa using hin
        exact ⟨hb, hnew, (hclear hb).mpr ⟨hne, .inr hdata⟩⟩
      rcases List.mem_cons.mp hu with rfl | hu
      · exact .refl
      · obtain ⟨s, hs, hin, hrest⟩ :=
          (mem_reach (fun v _ => dependencies_lt hg v) (dependencies_lt hg v) u).mp hu
        exact .head (hadmits hs hin) (ReflTransGen.mono (fun a b hab => hadmits hab.1 hab.2) _ _ hrest)
    have hread := (hclear hw).mp fun hblocks => hnone ⟨u, w, hwalk, hw, hblocks⟩
    simpa using hread

/-- A value can be hoisted unless a chain of values that have not been entered, none of them the owner
of the block, ends in something that blocks it. -/
theorem hoistable_iff_no_chain : job.hoistable d owner v = true ↔ ¬ ∃ u w,
    ReflTransGen (fun a b => job.graph.Feeds b a ∧ b ∉ d.entered ∧ b ≠ owner) v u ∧
      job.graph.Feeds w u ∧ job.Blocks d owner w := by
  constructor
  · rintro hv ⟨u, w, hwalk, hw, hblocks⟩
    refine not_blocks_of_hoistable hg hv ?_ hw hblocks
    exact ReflTransGen.mono (fun a b hab => ⟨hab.1, hab.2.1⟩) _ _ hwalk
  · intro hnone
    refine (hoistable_iff_not_leadsToBad hg).mpr ?_
    rintro ⟨u, w, hwalk, hw, hblocks⟩
    refine hnone ⟨u, w, ?_, FlowGraph.mem_dependencies.mp hw, hblocks⟩
    exact ReflTransGen.mono (fun a b hab => ⟨FlowGraph.mem_dependencies.mp hab.1, hab.2.1,
      fun heq => hab.2.2 (.inl heq)⟩) _ _ hwalk

/-- The recursion with a list of seen nodes tells whether a value can be hoisted. -/
theorem answers_iff_eq_hoistable {b : Bool} :
    Answers job.graph.dependencies (· ∉ d.entered) (job.Blocks d owner) v b ↔
      b = job.hoistable d owner v := by
  have heq {b : Bool}
      (h : Answers job.graph.dependencies (· ∉ d.entered) (job.Blocks d owner) v b) :
      b = job.hoistable d owner v := by
    rw [Bool.eq_iff_iff, h.eq_true_iff, hoistable_iff_not_leadsToBad hg]
  refine ⟨heq, ?_⟩
  rintro rfl
  obtain ⟨b, seen, hprobe⟩ := Probe.exists_answer (dependencies_lt hg) (dependencies_lt hg v)
  have hanswers : Answers job.graph.dependencies (· ∉ d.entered) (job.Blocks d owner) v b :=
    ⟨_, seen, .refl _, hprobe⟩
  exact heq hanswers ▸ hanswers

end WellFormed

/-- The walks by which a block divides the flow are exact, on any graph and in any state: the regions
of the flow and the values that they need are what can be reached, in whatever order it is searched,
and a value can be hoisted exactly if nothing that blocks it can be reached, also if nodes that have
been seen are taken for good. -/
theorem region_walks_are_exact (job : Job) (hg : job.graph.WellFormed) (d : Draft) :
    (∀ targets : List Nat, (∀ w ∈ targets, w < job.graph.size) →
      (∀ v, v ∈ job.flowRegion d targets ↔ ∃ s ∈ targets,
        Passes job.graph.Leads (fun u => u ∉ d.entered ∧ u ∉ d.barriers) s v) ∧
      Search.Finds job.graph.successors (fun u => u ∉ d.entered ∧ u ∉ d.barriers) targets
        (job.flowRegion d targets)) ∧
    (∀ region : List Nat,
      (∀ v, v ∈ job.dataNeeds d region ↔ ∃ m ∈ region, ∃ s, job.graph.Feeds s m ∧
        Passes (fun a b => job.graph.Feeds b a) (job.IsNeed d region) s v) ∧
      ∀ starts : List Nat, (∀ s, s ∈ starts ↔ ∃ m ∈ region, job.graph.Feeds s m) →
        Search.Finds job.graph.dependencies (job.IsNeed d region) starts (job.dataNeeds d region)) ∧
    ∀ owner v,
      (job.hoistable d owner v = true ↔ ¬ ∃ u w,
        ReflTransGen (fun a b => job.graph.Feeds b a ∧ b ∉ d.entered ∧ b ≠ owner) v u ∧
          job.graph.Feeds w u ∧ job.Blocks d owner w) ∧
      ∀ b, Answers job.graph.dependencies (· ∉ d.entered) (job.Blocks d owner) v b ↔
        b = job.hoistable d owner v := by
  refine ⟨fun targets htargets => ⟨fun v => ?_, ?_⟩, fun region => ⟨fun v => ?_, fun starts hstarts => ?_⟩,
    fun owner v => ⟨hoistable_iff_no_chain hg, fun b => answers_iff_eq_hoistable hg⟩⟩
  · simpa only [FlowGraph.mem_successors] using mem_flowRegion_iff_passes hg htargets
  · exact Search.finds_of_mem_iff (successors_lt hg) htargets
      fun v => mem_flowRegion_iff_passes hg htargets
  · have hread (s : Nat) : s ∈ region.flatMap job.graph.dependencies ↔
        ∃ m ∈ region, job.graph.Feeds s m := by simp
    rw [mem_dataNeeds_iff_passes hg hread]
    simp only [hread, FlowGraph.mem_dependencies]
    constructor
    · rintro ⟨s, ⟨m, hm, hfeeds⟩, hwalk⟩
      exact ⟨m, hm, s, hfeeds, hwalk⟩
    · rintro ⟨m, hm, s, hfeeds, hwalk⟩
      exact ⟨s, ⟨m, hm, hfeeds⟩, hwalk⟩
  · refine Search.finds_of_mem_iff (dependencies_lt hg) (fun s hs => ?_)
      fun v => mem_dataNeeds_iff_passes hg hstarts
    obtain ⟨m, -, hfeeds⟩ := (hstarts s).mp hs
    exact (hg.feeds_lt hfeeds).1

/-- Two nodes that run after each other in turn, and two values that read each other; the second value
reads the first node, too. -/
def ring : Job where
  graph := .ofDocument
    { nodes := [⟨"a", "", none, none, [], [], some true, [], [], none, none⟩,
        ⟨"b", "", none, none, [], [], some true, [], [], none, none⟩,
        ⟨"x", "", none, none, [], [], none, [], [], none, none⟩,
        ⟨"y", "", none, none, [], [], none, [], [], none, none⟩]
      edges := [⟨"", "a", "b", none, none, some ⟨some .execution, none⟩⟩,
        ⟨"", "b", "a", none, none, some ⟨some .execution, none⟩⟩,
        ⟨"", "y", "x", none, none, none⟩, ⟨"", "x", "y", none, none, none⟩,
        ⟨"", "a", "y", none, none, none⟩] }
  order := []
  names := []
  fittings := []
  conversions := .plain .strict
  mode := .execution

theorem ring_walks_are_exact : ring.graph.WellFormed ∧
    (∀ v, v ∈ ring.flowRegion (.start []) [1] ↔ ∃ s ∈ [1],
      Passes ring.graph.Leads (fun u => u ∉ (Draft.start []).entered ∧ u ∉ (Draft.start []).barriers)
        s v) ∧
    ring.hoistable (.start []) 0 2 = false ∧ ∃ u w, ReflTransGen (fun a b => ring.graph.Feeds b a ∧
      b ∉ (Draft.start []).entered ∧ b ≠ 0) 2 u ∧ ring.graph.Feeds w u ∧
        ring.Blocks (.start []) 0 w := by
  have hg : ring.graph.WellFormed := FlowGraph.ofDocument_wellFormed _
  have hexact := region_walks_are_exact ring hg (.start [])
  have hfalse : ring.hoistable (.start []) 0 2 = false := by decide
  refine ⟨hg, (hexact.1 [1] (by decide)).1, hfalse, not_not.mp fun hnone => ?_⟩
  exact Bool.false_ne_true (hfalse.symm.trans ((hexact.2.2 0 2).1.mpr hnone))

end Job

end FlowScript
