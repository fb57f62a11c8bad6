import FlowScript.Proofs.Order

/-!
# Nodes that a branch controls

A branch of a node controls the nodes that no path from an entry point comes to without taking an
edge of the branch. In a graph without circles of execution edges, the nodes of a branch are reached
from its targets through nodes that the branch controls too, and the schedule puts the node of the
branch before all of them.
-/

namespace FlowScript.FlowGraph

open Relation (ReflTransGen TransGen)

/-- A path along execution edges. -/
inductive Path (g : FlowGraph) : Nat → List Edge → Nat → Prop where
  | nil {a} : Path g a [] a
  | cons {e es b} : e ∈ g.edges → e.kind = .execution → Path g e.target es b →
      Path g e.source (e :: es) b

/-- Whether an edge belongs to the branch of a node under some labels. -/
def InBranch (c : Nat) (labels : List String) (e : Edge) : Prop :=
  e.source = c ∧ e.label.any (Text.labelIn labels) = true

/-- An execution edge outside the branch leads from one node to another. -/
def Avoids (g : FlowGraph) (c : Nat) (labels : List String) (a b : Nat) : Prop :=
  ∃ e ∈ g.edges, e.kind = .execution ∧ e.source = a ∧ e.target = b ∧ ¬ InBranch c labels e

/-- The flow comes to a node from some entry point. -/
def Reached (g : FlowGraph) (v : Nat) : Prop :=
  ∃ entry ∈ g.entryPoints, ReflTransGen g.Leads entry v

/-- The flow comes to a node from some entry point without the branch. -/
def ReachedAround (g : FlowGraph) (c : Nat) (labels : List String) (v : Nat) : Prop :=
  ∃ entry ∈ g.entryPoints, ReflTransGen (g.Avoids c labels) entry v

/-- The flow comes to a node, but only through the branch. -/
def Controlled (g : FlowGraph) (c : Nat) (labels : List String) (v : Nat) : Prop :=
  g.Reached v ∧ ¬ g.ReachedAround c labels v

/-- Data and execution are kept apart: only nodes of the flow of execution have execution edges, and
no data edge starts at them. -/
structure Separated (g : FlowGraph) : Prop where
  acyclic : ∀ v, ¬ TransGen g.Leads v v
  ends : ∀ a b, g.Leads a b → g.hasExecutionPorts a = true ∧ g.hasExecutionPorts b = true
  sources : ∀ a b, g.Feeds a b → g.hasExecutionPorts a = false

/-- Whether an edge belongs to a branch is a matter of its source and its label. -/
instance (c : Nat) (labels : List String) (e : Edge) : Decidable (InBranch c labels e) :=
  inferInstanceAs (Decidable (_ ∧ _))

variable {g : FlowGraph} {c : Nat} {labels : List String} {a b v : Nat}

/-- Data and execution are kept apart, without a circle, if the edges say so one by one. -/
theorem separated_of_edges
    (hexecution : ∀ e ∈ g.edges, e.kind = .execution → e.source < e.target ∧
      g.hasExecutionPorts e.source = true ∧ g.hasExecutionPorts e.target = true)
    (hdata : ∀ e ∈ g.edges, e.kind = .data → g.hasExecutionPorts e.source = false) :
    g.Separated where
  acyclic v hv := by
    have hlt : TransGen g.Leads ≤ (· < ·) := by
      refine Relation.transGen_minimal fun a b hab => ?_
      obtain ⟨e, he, hkind, rfl, rfl⟩ := hab
      exact (hexecution e he hkind).1
    exact Nat.lt_irrefl v (hlt v v hv)
  ends a b hab := by
    obtain ⟨e, he, hkind, rfl, rfl⟩ := hab
    exact (hexecution e he hkind).2
  sources a b hab := by
    obtain ⟨e, he, hkind, rfl, rfl⟩ := hab
    exact hdata e he hkind

/-- A path follows execution edges. -/
theorem Path.leads {es : List Edge} (h : g.Path a es b) : ReflTransGen g.Leads a b := by
  induction h with
  | nil => exact .refl
  | cons he hkind _ ih => exact .head ⟨_, he, hkind, rfl, rfl⟩ ih

/-- A path that leaves a set of nodes takes an edge of the branch, if all other edges stay in it. -/
theorem Path.exists_inBranch {P : Nat → Prop} {es : List Edge} (h : g.Path a es b)
    (hstay : ∀ e ∈ g.edges, e.kind = .execution → P e.source → ¬ InBranch c labels e → P e.target)
    (ha : P a) (hb : ¬ P b) : ∃ e ∈ es, InBranch c labels e := by
  induction h with
  | nil => exact absurd ha hb
  | @cons e es b he hkind _ ih =>
    by_cases hin : InBranch c labels e
    · exact ⟨e, List.mem_cons_self, hin⟩
    · obtain ⟨f, hf, hfin⟩ := ih (hstay e he hkind ha hin) hb
      exact ⟨f, List.mem_cons_of_mem _ hf, hfin⟩

/-- What is reached without the branch is reached on a path without the branch. -/
theorem exists_path (h : ReflTransGen (g.Avoids c labels) a b) :
    ∃ es, g.Path a es b ∧ ∀ e ∈ es, ¬ InBranch c labels e := by
  induction h using ReflTransGen.head_induction_on with
  | refl => exact ⟨[], .nil, by simp⟩
  | head hfirst _ ih =>
    obtain ⟨e, he, hkind, rfl, rfl, hout⟩ := hfirst
    obtain ⟨es, hpath, havoids⟩ := ih
    refine ⟨e :: es, .cons he hkind hpath, fun f hf => ?_⟩
    rcases List.mem_cons.mp hf with rfl | hf
    · exact hout
    · exact havoids f hf

/-- A node that some path comes to, and every path only through the branch, is controlled by it. -/
theorem controlled_of_paths (hreached : ∃ entry ∈ g.entryPoints, ∃ es, g.Path entry es v)
    (hthrough : ∀ entry ∈ g.entryPoints, ∀ es, g.Path entry es v → ∃ e ∈ es, InBranch c labels e) :
    g.Controlled c labels v := by
  obtain ⟨entry, hentry, es, hpath⟩ := hreached
  refine ⟨⟨entry, hentry, hpath.leads⟩, fun ⟨entry, hentry, haround⟩ => ?_⟩
  obtain ⟨es, hpath, hout⟩ := exists_path haround
  obtain ⟨e, he, hin⟩ := hthrough entry hentry es hpath
  exact hout e he hin

/-- The flow goes on from a node that it comes to. -/
theorem Reached.step (h : g.Reached a) (hab : g.Leads a b) : g.Reached b := by
  obtain ⟨entry, hentry, hpath⟩ := h
  exact ⟨entry, hentry, hpath.tail hab⟩

/-- The flow comes to all that lies behind a node that it comes to. -/
theorem Reached.trans (h : g.Reached a) (hab : ReflTransGen g.Leads a b) : g.Reached b := by
  obtain ⟨entry, hentry, hpath⟩ := h
  exact ⟨entry, hentry, hpath.trans hab⟩

/-- The flow goes on outside the branch. -/
theorem ReachedAround.step (h : g.ReachedAround c labels a) (hab : g.Avoids c labels a b) :
    g.ReachedAround c labels b := by
  obtain ⟨entry, hentry, hpath⟩ := h
  exact ⟨entry, hentry, hpath.tail hab⟩

/-- An edge outside the branch is an edge. -/
theorem Avoids.leads (h : g.Avoids c labels a b) : g.Leads a b := by
  obtain ⟨e, he, hkind, hsource, htarget, -⟩ := h
  exact ⟨e, he, hkind, hsource, htarget⟩

/-- What the flow comes to without the branch, it comes to. -/
theorem ReachedAround.reached (h : g.ReachedAround c labels v) : g.Reached v := by
  obtain ⟨entry, hentry, hpath⟩ := h
  exact ⟨entry, hentry, ReflTransGen.mono (fun _ _ => Avoids.leads) _ _ hpath⟩

/-- The flow comes to nodes of the graph. -/
theorem Reached.lt (h : g.Reached v) (hg : g.WellFormed) : v < g.size := by
  obtain ⟨entry, hentry, hpath⟩ := h
  cases hpath with
  | refl => exact entryPoints_lt hentry
  | tail _ hlast => exact (hg.leads_lt hlast).2

/-- Edges of other nodes are outside the branch. -/
theorem Leads.avoids (h : g.Leads a b) (hne : a ≠ c) : g.Avoids c labels a b := by
  obtain ⟨e, he, hkind, rfl, rfl⟩ := h
  exact ⟨e, he, hkind, rfl, rfl, fun hin => hne hin.1⟩

/-- A controlled node is reached from a target of the branch, through controlled nodes; and the flow
comes to the node of the branch without the branch. -/
theorem Controlled.exists_target (h : g.Controlled c labels v) :
    g.ReachedAround c labels c ∧ ∃ w ∈ g.branchTargets c labels, g.Controlled c labels w ∧
      ReflTransGen (fun a b => g.Leads a b ∧ g.Controlled c labels b) w v := by
  obtain ⟨⟨entry, hentry, hpath⟩, hthrough⟩ := h
  have hcases : g.ReachedAround c labels v ∨ g.ReachedAround c labels c ∧
      ∃ w ∈ g.branchTargets c labels, g.Controlled c labels w ∧
        ReflTransGen (fun a b => g.Leads a b ∧ g.Controlled c labels b) w v := by
    clear hthrough
    induction hpath with
    | refl => exact .inl ⟨entry, hentry, .refl⟩
    | @tail x y hpath hlast ih =>
      by_cases haround : g.ReachedAround c labels y
      · exact .inl haround
      have hcontrolled : g.Controlled c labels y := ⟨⟨entry, hentry, hpath.tail hlast⟩, haround⟩
      refine .inr ?_
      rcases ih with hx | ⟨hc, w, hw, hwcontrolled, hchain⟩
      · -- the edge that leaves what is reached around the branch belongs to the branch
        obtain ⟨e, he, hkind, rfl, rfl⟩ := hlast
        have hin : InBranch c labels e := by
          by_contra hout
          exact haround (hx.step ⟨e, he, hkind, rfl, rfl, hout⟩)
        obtain ⟨rfl, hlabel⟩ := hin
        exact ⟨hx, e.target, mem_branchTargets.mpr ⟨e, he, hkind, rfl, rfl, hlabel⟩, hcontrolled,
          .refl⟩
      · exact ⟨hc, w, hw, hwcontrolled, hchain.tail ⟨hlast, hcontrolled⟩⟩
  exact hcases.resolve_left hthrough

/-- The flow comes from the node of a branch to what the branch controls. -/
theorem Controlled.leads (h : g.Controlled c labels v) : TransGen g.Leads c v := by
  obtain ⟨-, w, hw, -, hchain⟩ := h.exists_target
  have hfirst : g.Leads c w := mem_successors.mp (branchTargets_subset hw)
  exact TransGen.head' hfirst (ReflTransGen.mono (fun _ _ hab => hab.1) _ _ hchain)

/-- The ends of a chain of execution edges take part in the flow of execution. -/
theorem Separated.ports_of_path (hsep : g.Separated) (h : TransGen g.Leads a b) :
    g.hasExecutionPorts a = true ∧ g.hasExecutionPorts b = true := by
  obtain ⟨x, hfirst, -⟩ := TransGen.head'_iff.mp h
  obtain ⟨y, -, hlast⟩ := TransGen.tail'_iff.mp h
  exact ⟨(hsep.ends a x hfirst).1, (hsep.ends y b hlast).2⟩

/-- An execution edge closes no cycle, so the order goes forward along it. -/
theorem Separated.before_of_leads (hsep : g.Separated) (hg : g.WellFormed) (h : g.Leads a b) :
    g.schedule.Before a b := by
  rw [hg.before_iff (.inr h)]
  intro hcycle
  obtain ⟨-, hback⟩ := hg.cycles_closing hcycle
  have hports := (hsep.ends a b h).2
  -- from a node of the flow of execution, links are execution edges
  have hleads {x : Nat} (hlinked : ReflTransGen g.Linked b x) :
      ReflTransGen g.Leads b x ∧ g.hasExecutionPorts x = true := by
    induction hlinked with
    | refl => exact ⟨.refl, hports⟩
    | tail _ hlast ih =>
      rcases hlast with hfeeds | hleads
      · exact absurd ih.2 (by simp [hsep.sources _ _ hfeeds])
      · exact ⟨ih.1.tail hleads, (hsep.ends _ _ hleads).2⟩
  exact hsep.acyclic a (.head' h (hleads hback).1)

/-- In the order of the schedule, no controlled node stands before the node of the branch. -/
theorem Separated.order_pairwise (hsep : g.Separated) (hg : g.WellFormed) :
    g.schedule.order.Pairwise fun a b => g.Controlled c labels a → b ≠ c := by
  have hnodup := hg.schedule_sound.1.nodup
  rw [List.pairwise_iff_getElem]
  intro i j hi hj hlt hcontrolled hc
  have hbefore : g.schedule.Before c (g.schedule.order[i]) :=
    before_of_transGen (fun _ _ => hsep.before_of_leads hg) hcontrolled.leads
  rw [Schedule.Before, ← hc, hnodup.idxOf_getElem, hnodup.idxOf_getElem] at hbefore
  omega

end FlowScript.FlowGraph
