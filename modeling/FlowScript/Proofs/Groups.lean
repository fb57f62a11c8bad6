import FlowScript.Proofs.Links
import FlowScript.Schedule.Groups

/-!
# The members of groups

What the groups of a graph gather along its edges: every group has a root, and what holds of the root
and is handed on along the edges holds of all members.
-/

namespace FlowScript

namespace FlowGraph

variable {g : FlowGraph} {P : Nat → Prop} {taken members : List Nat} {v : Nat}

/-- What the edges hand on, from a node to the nodes that it reads and to the nodes after it. -/
structure Closed (g : FlowGraph) (P : Nat → Prop) : Prop where
  feeds : ∀ a b, g.Feeds a b → P b → P a
  leads : ∀ a b, g.Leads a b → P a → P b

/-- The edges join nodes. -/
theorem WellFormed.closed (hg : g.WellFormed) : g.Closed (· < g.size) where
  feeds _ _ h _ := (hg.feeds_lt h).1
  leads _ _ h _ := (hg.leads_lt h).2

/-- A fold that keeps what holds of all members. -/
theorem foldl_keeps {f : List Nat → Nat → List Nat} (vs : List Nat)
    (hf : ∀ ms, (∀ m ∈ ms, P m) → ∀ v ∈ vs, ∀ m ∈ f ms v, P m)
    (hmembers : ∀ m ∈ members, P m) : ∀ m ∈ vs.foldl f members, P m := by
  induction vs generalizing members with
  | nil => exact hmembers
  | cons v vs ih =>
    exact ih (fun ms hms u hu => hf ms hms u (List.mem_cons_of_mem _ hu))
      (hf members hmembers v List.mem_cons_self)

/-- Gathering values keeps what is handed on to the values that are read. -/
theorem gatherData_keeps (hfeeds : ∀ a b, g.Feeds a b → P b → P a) (budget : Nat) (hv : P v)
    (hmembers : ∀ m ∈ members, P m) : ∀ m ∈ g.gatherData taken budget v members, P m := by
  induction budget generalizing v members with
  | zero => exact hmembers
  | succ budget ih =>
    rw [FlowGraph.gatherData]
    split
    · exact hmembers
    · refine foldl_keeps _ (fun ms hms u hu => ih (hfeeds u v (mem_dependencies.mp hu) hv) hms) ?_
      simpa [or_imp, forall_and] using ⟨hmembers, hv⟩

/-- Gathering the flow keeps what is handed on to the values that are read, if it holds of all nodes of
the flow. -/
theorem gatherFlow_keeps {Q : Nat → Prop} (hfeeds : ∀ a b, g.Feeds a b → P b → P a)
    (hleads : ∀ a b, g.Leads a b → Q a → Q b) (hflow : ∀ v, Q v → P v) (budget : Nat) (hv : Q v)
    (hmembers : ∀ m ∈ members, P m) : ∀ m ∈ g.gatherFlow taken budget v members, P m := by
  induction budget generalizing v members with
  | zero => exact hmembers
  | succ budget ih =>
    rw [FlowGraph.gatherFlow]
    split
    · exact hmembers
    · refine foldl_keeps _ (fun ms hms w hw => ih (hleads v w (mem_successors.mp hw) hv) hms) ?_
      refine foldl_keeps _ (fun ms hms u hu =>
        gatherData_keeps hfeeds _ (hfeeds u v (mem_dependencies.mp hu) (hflow v hv)) hms) ?_
      simpa [or_imp, forall_and] using ⟨hmembers, hflow v hv⟩

/-- A group with a root among the nodes. -/
def Rooted (g : FlowGraph) (group : Group) : Prop :=
  ∃ r < g.size, ∀ P, g.Closed P → P r → ∀ m ∈ group.members, P m

/-- The groups of a graph have a root. -/
theorem groups_rooted (g : FlowGraph) : ∀ group ∈ g.groups, g.Rooted group := by
  have hflow (entries : List Nat) (hentries : ∀ v ∈ entries, v < g.size) (groups : List Group)
      (hgroups : ∀ group ∈ groups, g.Rooted group) :
      ∀ group ∈ entries.foldl g.addFlowGroup groups, g.Rooted group := by
    induction entries generalizing groups with
    | nil => exact hgroups
    | cons v entries ih =>
      refine ih (fun u hu => hentries u (List.mem_cons_of_mem _ hu)) _ ?_
      rw [addFlowGroup]
      split
      · exact hgroups
      · intro group hgroup
        rcases List.mem_append.mp hgroup with hgroup | hgroup
        · exact hgroups group hgroup
        · obtain rfl := List.mem_singleton.mp hgroup
          exact ⟨v, hentries v List.mem_cons_self, fun P hP hv =>
            gatherFlow_keeps hP.feeds hP.leads (fun _ => id) _ hv (by simp)⟩
  have hsingle (vs : List Nat) (hvs : ∀ v ∈ vs, v < g.size) (groups : List Group)
      (hgroups : ∀ group ∈ groups, g.Rooted group) :
      ∀ group ∈ vs.foldl addSingleGroup groups, g.Rooted group := by
    induction vs generalizing groups with
    | nil => exact hgroups
    | cons v vs ih =>
      refine ih (fun u hu => hvs u (List.mem_cons_of_mem _ hu)) _ ?_
      rw [addSingleGroup]
      split
      · exact hgroups
      · intro group hgroup
        rcases List.mem_append.mp hgroup with hgroup | hgroup
        · exact hgroups group hgroup
        · obtain rfl := List.mem_singleton.mp hgroup
          exact ⟨v, hvs v List.mem_cons_self, fun P _ hv => by simpa using hv⟩
  exact hsingle _ (fun v => mem_positions.mp) _ (hflow _ (fun v => entryPoints_lt) _ (by simp))

/-- The members of groups are nodes. -/
theorem WellFormed.groups_lt (hg : g.WellFormed) :
    ∀ group ∈ g.groups, ∀ m ∈ group.members, m < g.size := by
  intro group hgroup
  obtain ⟨r, hr, hkeeps⟩ := g.groups_rooted group hgroup
  exact hkeeps _ hg.closed hr

/-- The groups of a graph depend on its size, its links and its entry points only. -/
theorem groups_congr {g g' : FlowGraph} (hsize : g'.size = g.size)
    (hdependencies : g'.dependencies = g.dependencies) (hsuccessors : g'.successors = g.successors)
    (hentries : g'.entryPoints = g.entryPoints) : g'.groups = g.groups := by
  have hdata : g'.gatherData = g.gatherData := by
    funext taken budget
    induction budget with
    | zero => rfl
    | succ budget ih =>
      funext v members
      rw [FlowGraph.gatherData, ih, hdependencies, FlowGraph.gatherData]
  have hflow : g'.gatherFlow = g.gatherFlow := by
    funext taken budget
    induction budget with
    | zero => rfl
    | succ budget ih =>
      funext v members
      rw [FlowGraph.gatherFlow, ih, hdependencies, hsuccessors, hdata, hsize, FlowGraph.gatherFlow]
  have hadd : g'.addFlowGroup = g.addFlowGroup := by
    funext groups entry
    rw [addFlowGroup, hflow, hsize, addFlowGroup]
  rw [groups, hadd, hentries, positions, hsize, groups, positions]

end FlowGraph

end FlowScript
