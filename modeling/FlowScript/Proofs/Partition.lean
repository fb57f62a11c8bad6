import FlowScript.Proofs.Tables
import Mathlib.Data.List.Nodup
import Mathlib.Data.List.Pairwise

/-!
# The groups of a graph are a partition

Every node is a member of one group. The group of an entry point starts with it and holds what runs
after it and what is read there, as far as no earlier group does. Nodes that no entry point draws in
are groups by themselves.

A node is a member before the values that it reads are gathered, so members of a group in progress may
miss some of these. What carries the walk is that the members that it adds miss none once it is over.
-/

namespace FlowScript.FlowGraph

open Relation (ReflTransGen)

variable {g : FlowGraph} {taken ms ms' : List Nat} {v : Nat}

/-- What a walk adds to the members of a group: free nodes, each once, with all that they read. -/
structure Adds (g : FlowGraph) (taken ms ms' : List Nat) : Prop where
  onward : ms <+: ms'
  nodup : ms.Nodup → ms'.Nodup
  free : ∀ m ∈ ms', m ∉ ms → m ∉ taken
  settled : ∀ m ∈ ms', m ∉ ms → ∀ d, g.Feeds d m → d ∈ taken ∨ d ∈ ms'

theorem Adds.refl (g : FlowGraph) (taken ms : List Nat) : g.Adds taken ms ms where
  onward := List.prefix_refl ms
  nodup := id
  free _ hm hnew := absurd hm hnew
  settled _ hm hnew := absurd hm hnew

theorem Adds.trans {ms'' : List Nat} (h : g.Adds taken ms ms') (h' : g.Adds taken ms' ms'') :
    g.Adds taken ms ms'' where
  onward := h.onward.trans h'.onward
  nodup := h'.nodup ∘ h.nodup
  free m hm hnew := by
    by_cases hold : m ∈ ms'
    · exact h.free m hold hnew
    · exact h'.free m hm hold
  settled m hm hnew d hd := by
    by_cases hold : m ∈ ms'
    · exact (h.settled m hold hnew d hd).imp_right fun hin => h'.onward.subset hin
    · exact h'.settled m hm hold d hd

/-- A free node is added along with all that it reads. -/
theorem Adds.take (hfree : v ∉ taken) (hnew : v ∉ ms) (h : g.Adds taken (ms ++ [v]) ms')
    (hread : ∀ d ∈ g.dependencies v, d ∈ taken ∨ d ∈ ms') : g.Adds taken ms ms' where
  onward := (List.prefix_append ms [v]).trans h.onward
  nodup hms := h.nodup (List.concat_eq_append ▸ hms.concat hnew)
  free m hm hout := by
    by_cases hv : m = v
    · exact hv ▸ hfree
    · exact h.free m hm (by simp [hout, hv])
  settled m hm hout d hd := by
    by_cases hv : m = v
    · exact hread d (mem_dependencies.mpr (hv ▸ hd))
    · exact h.settled m hm (by simp [hout, hv]) d hd

/-- A loop over nodes adds what its rounds add, and then holds each of the nodes that is free. -/
theorem Adds.foldl {f : List Nat → Nat → List Nat} (vs : List Nat)
    (hf : ∀ ms', ms <+: ms' → ∀ v ∈ vs, g.Adds taken ms' (f ms' v) ∧ (v ∈ taken ∨ v ∈ f ms' v)) :
    g.Adds taken ms (vs.foldl f ms) ∧ ∀ v ∈ vs, v ∈ taken ∨ v ∈ vs.foldl f ms := by
  induction vs generalizing ms with
  | nil => exact ⟨.refl g taken ms, by simp⟩
  | cons v vs ih =>
    obtain ⟨hfirst, hv⟩ := hf ms (List.prefix_refl ms) v List.mem_cons_self
    obtain ⟨hrest, hvs⟩ := @ih (f ms v) fun ms' hms' u hu =>
      hf ms' (hfirst.onward.trans hms') u (List.mem_cons_of_mem _ hu)
    refine ⟨hfirst.trans hrest, fun u hu => ?_⟩
    rcases List.mem_cons.mp hu with rfl | hu
    · exact hv.imp_right fun hin => hrest.onward.subset hin
    · exact hvs u hu

/-- Gathering values adds a node, if it is free, with all that is read for it. -/
theorem WellFormed.gatherData_adds (hg : g.WellFormed) (budget : Nat)
    (hbudget : g.free taken ms ≤ budget) (hv : v < g.size) :
    g.Adds taken ms (g.gatherData taken budget v ms) ∧
      (v ∈ taken ∨ v ∈ g.gatherData taken budget v ms) := by
  induction budget generalizing v ms with
  | zero => exact ⟨.refl g taken ms, taken_of_free_zero hbudget hv⟩
  | succ budget ih =>
    rw [gatherData]
    split
    · rename_i hheld
      exact ⟨.refl g taken ms, by simpa using hheld⟩
    · rename_i hnew
      obtain ⟨hfree, hnew⟩ : v ∉ taken ∧ v ∉ ms := by simpa using hnew
      have hless := free_concat hv hfree hnew
      obtain ⟨hadds, hread⟩ := @Adds.foldl g taken (ms ++ [v])
        (fun ms d => g.gatherData taken budget d ms) (g.dependencies v) fun ms' hms' d hd => by
          have hmono := @free_mono g _ taken _ hms'.subset
          exact ih (by omega) (hg.feeds_lt (mem_dependencies.mp hd)).1
      exact ⟨hadds.take hfree hnew hread, .inr (hadds.onward.subset (by simp))⟩

/-- Gathering the flow adds a node, if it is free, with what runs after it and all that is read. -/
theorem WellFormed.gatherFlow_adds (hg : g.WellFormed) (budget : Nat)
    (hbudget : g.free taken ms ≤ budget) (hv : v < g.size) :
    g.Adds taken ms (g.gatherFlow taken budget v ms) ∧
      (v ∈ taken ∨ v ∈ g.gatherFlow taken budget v ms) := by
  induction budget generalizing v ms with
  | zero => exact ⟨.refl g taken ms, taken_of_free_zero hbudget hv⟩
  | succ budget ih =>
    rw [gatherFlow]
    split
    · rename_i hheld
      exact ⟨.refl g taken ms, by simpa using hheld⟩
    · rename_i hnew
      obtain ⟨hfree, hnew⟩ : v ∉ taken ∧ v ∉ ms := by simpa using hnew
      have hless := free_concat hv hfree hnew
      obtain ⟨hdata, hread⟩ := @Adds.foldl g taken (ms ++ [v])
        (fun ms d => g.gatherData taken g.size d ms) (g.dependencies v) fun ms' _ d hd =>
          hg.gatherData_adds g.size (free_le_size g taken ms') (hg.feeds_lt (mem_dependencies.mp hd)).1
      obtain ⟨hflow, -⟩ := @Adds.foldl g taken _
        (fun ms w => g.gatherFlow taken budget w ms) (g.successors v) fun ms' hms' w hw => by
          have hmono := @free_mono g _ taken _ (hdata.onward.trans hms').subset
          exact ih (by omega) (hg.leads_lt (mem_successors.mp hw)).2
      have hadds := hdata.trans hflow
      refine ⟨hadds.take hfree hnew fun d hd => ?_, .inr (hadds.onward.subset (by simp))⟩
      exact (hread d hd).imp_right fun hin => hflow.onward.subset hin

/-- An entry point draws in a node: some path of execution leads to where the node is read, directly or
through other values. -/
def Draws (g : FlowGraph) (entry v : Nat) : Prop :=
  ∃ w, ReflTransGen g.Leads entry w ∧ ReflTransGen g.Feeds v w

/-- A group of an entry point, after earlier groups. -/
structure IsFlowGroup (g : FlowGraph) (earlier : List Group) (group : Group) (entry : Nat) : Prop where
  isEntryPoint : entry ∈ g.entryPoints
  first : group.members.head? = some entry
  drawn : ∀ m ∈ group.members, g.Draws entry m
  /-- What a member reads is held by the group or by an earlier one of an entry point. -/
  settled : ∀ m ∈ group.members, ∀ d, g.Feeds d m →
    ∃ other ∈ earlier ++ [group], other.entry.isSome ∧ d ∈ other.members

/-- Groups that share no node, each with an entry point of its own or with a single node. -/
structure Grouped (g : FlowGraph) (groups : List Group) : Prop where
  nodup : ∀ group ∈ groups, group.members.Nodup
  disjoint : groups.Pairwise fun a b => a.members.Disjoint b.members
  flow : ∀ earlier group later, groups = earlier ++ group :: later →
    ∀ entry, group.entry = some entry → g.IsFlowGroup earlier group entry
  single : ∀ group ∈ groups, group.entry = none → ∃ v, group.members = [v]

variable {groups : List Group}

theorem mem_taken : v ∈ FlowGraph.taken groups ↔ ∃ group ∈ groups, v ∈ group.members :=
  List.mem_flatMap

theorem grouped_nil (g : FlowGraph) : g.Grouped [] where
  nodup := by simp
  disjoint := List.Pairwise.nil
  flow := by simp
  single := by simp

/-- A group of free nodes is added to others. -/
theorem Grouped.concat {new : Group} (h : g.Grouped groups) (hnodup : new.members.Nodup)
    (hfree : ∀ m ∈ new.members, m ∉ FlowGraph.taken groups)
    (hflow : ∀ entry, new.entry = some entry → g.IsFlowGroup groups new entry)
    (hsingle : new.entry = none → ∃ v, new.members = [v]) : g.Grouped (groups ++ [new]) where
  nodup group hgroup := by
    rcases List.mem_append.mp hgroup with hgroup | hgroup
    · exact h.nodup group hgroup
    · exact List.mem_singleton.mp hgroup ▸ hnodup
  disjoint := by
    rw [List.pairwise_append]
    refine ⟨h.disjoint, List.pairwise_singleton _ _, fun a ha b hb v hva hvb => ?_⟩
    obtain rfl := List.mem_singleton.mp hb
    exact hfree v hvb (mem_taken.mpr ⟨a, ha, hva⟩)
  flow earlier group later hcut entry hentry := by
    rcases List.eq_nil_or_concat later with rfl | ⟨later, last, rfl⟩
    · obtain ⟨rfl, heq⟩ := List.append_inj' hcut rfl
      obtain rfl := (List.cons.inj heq).1
      exact hflow entry hentry
    · rw [List.concat_eq_append, ← List.cons_append, ← List.append_assoc] at hcut
      obtain ⟨hcut, -⟩ := List.append_inj' hcut rfl
      exact h.flow earlier group later hcut entry hentry
  single group hgroup hentry := by
    rcases List.mem_append.mp hgroup with hgroup | hgroup
    · exact h.single group hgroup hentry
    · obtain rfl := List.mem_singleton.mp hgroup
      exact hsingle hentry

/-- The group of a free entry point. -/
theorem WellFormed.isFlowGroup (hg : g.WellFormed) (hentry : v ∈ g.entryPoints)
    (hfree : v ∉ FlowGraph.taken groups) (hall : ∀ group ∈ groups, group.entry.isSome) :
    g.IsFlowGroup groups ⟨some v, g.gatherFlow (FlowGraph.taken groups) g.size v []⟩ v := by
  have hv := entryPoints_lt hentry
  obtain ⟨hadds, -⟩ := @gatherFlow_adds g _ [] v hg g.size
    (free_le_size g (FlowGraph.taken groups) []) hv
  refine ⟨hentry, ?_, ?_, fun m hm d hd => ?_⟩
  · obtain ⟨rest, hrest⟩ := @singleton_prefix_gatherFlow g _ v g.size hfree (Nat.zero_lt_of_lt hv)
    rw [← hrest]
    rfl
  · refine gatherFlow_keeps (Q := ReflTransGen g.Leads v) ?_ ?_ ?_ g.size .refl (by simp)
    · rintro a b hfeeds ⟨w, hleads, hread⟩
      exact ⟨w, hleads, .head hfeeds hread⟩
    · exact fun a b hleads hpath => hpath.tail hleads
    · exact fun w hpath => ⟨w, hpath, .refl⟩
  · rcases hadds.settled m hm List.not_mem_nil d hd with hin | hin
    · obtain ⟨other, hother, hd⟩ := mem_taken.mp hin
      exact ⟨other, List.mem_append_left _ hother, hall other hother, hd⟩
    · exact ⟨_, List.mem_append_right _ (List.mem_singleton.mpr rfl), rfl, hin⟩

/-- The groups of the entry points. -/
theorem WellFormed.grouped_flows (hg : g.WellFormed) :
    g.Grouped (g.entryPoints.foldl g.addFlowGroup []) ∧
      ∀ group ∈ g.entryPoints.foldl g.addFlowGroup [], group.entry.isSome := by
  refine List.foldlRecOn g.entryPoints g.addFlowGroup
    (motive := fun groups => g.Grouped groups ∧ ∀ group ∈ groups, group.entry.isSome)
    ⟨g.grouped_nil, by simp⟩ ?_
  rintro groups ⟨hgrouped, hall⟩ v hv
  rw [addFlowGroup]
  split
  · exact ⟨hgrouped, hall⟩
  · rename_i hnew
    have hfree : v ∉ FlowGraph.taken groups := by simpa using hnew
    obtain ⟨hadds, -⟩ := @gatherFlow_adds g _ [] v hg g.size
      (free_le_size g (FlowGraph.taken groups) []) (entryPoints_lt hv)
    constructor
    · refine hgrouped.concat (hadds.nodup List.nodup_nil)
        (fun m hm => hadds.free m hm List.not_mem_nil) ?_ (by simp)
      rintro entry ⟨⟩
      exact hg.isFlowGroup hv hfree hall
    · intro group hgroup
      rcases List.mem_append.mp hgroup with hgroup | hgroup
      · exact hall group hgroup
      · rw [List.mem_singleton.mp hgroup]
        rfl

/-- Adding single nodes to groups. -/
theorem Grouped.foldl_addSingleGroup (h : g.Grouped groups) (vs : List Nat) :
    g.Grouped (vs.foldl addSingleGroup groups) := by
  refine List.foldlRecOn vs addSingleGroup (motive := g.Grouped) h fun groups hgrouped v _ => ?_
  rw [addSingleGroup]
  split
  · exact hgrouped
  · rename_i hnew
    exact hgrouped.concat (List.nodup_singleton v) (by simpa using hnew) (by simp) fun _ => ⟨v, rfl⟩

/-- Every node is in a group once single nodes have been added. -/
theorem exists_singleGroup {vs : List Nat} (hv : v ∈ vs) (groups : List Group) :
    ∃ group ∈ vs.foldl addSingleGroup groups, v ∈ group.members := by
  obtain ⟨before, after, rfl⟩ := List.mem_iff_append.mp hv
  rw [List.foldl_append, List.foldl_cons]
  generalize before.foldl addSingleGroup groups = gs
  obtain ⟨group, hgroup, hin⟩ : ∃ group ∈ addSingleGroup gs v, v ∈ group.members := by
    rw [addSingleGroup]
    split
    · rename_i htaken
      exact mem_taken.mp (by simpa using htaken)
    · exact ⟨⟨none, [v]⟩, List.mem_append_right _ (List.mem_singleton.mpr rfl),
        List.mem_singleton.mpr rfl⟩
  exact ⟨group, (prefix_foldl prefix_addSingleGroup after _).subset hgroup, hin⟩

/-- Groups that hold every node of a graph once, with the entry points in groups of entry points. -/
structure IsPartition (g : FlowGraph) (groups : List Group) : Prop extends g.Grouped groups where
  covers : ∀ v, (∃ group ∈ groups, v ∈ group.members) ↔ v < g.size
  entries : ∀ v ∈ g.entryPoints, ∃ group ∈ groups, group.entry.isSome ∧ v ∈ group.members

/-- The groups of a graph are a partition. -/
theorem WellFormed.isPartition_groups (hg : g.WellFormed) : g.IsPartition g.groups := by
  obtain ⟨hflows, hall⟩ := hg.grouped_flows
  refine ⟨hflows.foldl_addSingleGroup g.positions, fun v => ⟨?_, fun hv => ?_⟩, fun v hv => ?_⟩
  · rintro ⟨group, hgroup, hv⟩
    exact hg.groups_lt group hgroup v hv
  · exact exists_singleGroup (mem_positions.mpr hv) _
  · obtain ⟨group, hgroup, hin⟩ := exists_flowGroup hv (entryPoints_lt hv) []
    have hlater := prefix_foldl prefix_addSingleGroup g.positions (g.entryPoints.foldl g.addFlowGroup [])
    exact ⟨group, hlater.subset hgroup, hall group hgroup, by simpa using hin⟩

/-- The group of a node is the one that holds it. -/
theorem IsPartition.groupOf?_eq_some_iff (h : g.IsPartition g.groups) {group : Group} :
    g.groupOf? v = some group ↔ group ∈ g.groups ∧ v ∈ group.members := by
  have hfound {other : Group} (hother : g.groupOf? v = some other) :
      other ∈ g.groups ∧ v ∈ other.members :=
    ⟨List.mem_of_find?_eq_some hother, by simpa using List.find?_some hother⟩
  refine ⟨hfound, ?_⟩
  rintro ⟨hgroup, hv⟩
  obtain ⟨other, hother⟩ : ∃ other, g.groupOf? v = some other :=
    Option.isSome_iff_exists.mp (List.find?_isSome.mpr ⟨group, hgroup, by simpa using hv⟩)
  obtain ⟨hmem, hin⟩ := hfound hother
  -- two groups that hold a node are the same
  have hsymm : Std.Symm fun a b : Group => a.members.Disjoint b.members :=
    ⟨fun _ _ hdisjoint _ ha hb => hdisjoint hb ha⟩
  have hsame : other = group := by
    by_contra hne
    exact h.disjoint.forall hmem hgroup hne hin hv
  rw [hother, hsame]

/-- The group that the tables give for a node: the one of the number that is noted for it. -/
def Resolution.groupOf? (r : Resolution) (v : Nat) : Option Group :=
  r.assigned[v]?.bind fun number => r.groups[number.getD 0]?

/-- The number that is noted for a node is that of the group that holds it. -/
theorem IsPartition.tabled_groupOf? (h : g.IsPartition g.groups) {r : Resolution}
    (hgroups : r.groups = g.groups) (hassigned : r.assigned = tabulate g.size (assignedTo g.groups))
    (v : Nat) : r.groupOf? v = g.groupOf? v := by
  rw [Resolution.groupOf?, hgroups, hassigned, FlowGraph.groupOf?]
  by_cases hv : v < g.size
  · obtain ⟨k, hk⟩ : ∃ k, assignedTo g.groups v = some k := by
      refine Option.ne_none_iff_exists'.mp fun hnone => ?_
      exact assignedTo_eq_none.mp hnone (mem_taken.mpr ((h.covers v).mpr hv))
    rw [tabulate_getElem? hv, hk, List.find?_eq_bind_findIdx?_getElem?]
    rw [assignedTo] at hk
    rw [hk]
    rfl
  · have hout : g.groups.find? (·.members.contains v) = none := by
      rw [List.find?_eq_none]
      intro group hgroup hin
      exact hv ((h.covers v).mp ⟨group, hgroup, by simpa using hin⟩)
    rw [hout, List.getElem?_eq_none (by simpa [tabulate] using hv), Option.bind_none]

/-- The groups of a graph hold each of its nodes once, and the group of a node is the one that holds
it, also where it is looked up by the number that the walk noted for the node. Entry points are in
groups of entry points. Such a group starts with its entry point and holds only what this draws in, and
what its members read is held by it or by an earlier group of this kind. All other groups are single
nodes. -/
theorem groups_partition_nodes (doc : Document) :
    (ofDocument doc).IsPartition (ofDocument doc).groups ∧
      (∀ v group, (ofDocument doc).groupOf? v = some group ↔
        group ∈ (ofDocument doc).groups ∧ v ∈ group.members) ∧
      ∃ r, (ofDocument doc).resolve? = some r ∧ r.groups = (ofDocument doc).groups ∧
        ∀ v, r.groupOf? v = (ofDocument doc).groupOf? v := by
  have hg := ofDocument_wellFormed doc
  have h := hg.isPartition_groups
  exact ⟨h, fun _ _ => h.groupOf?_eq_some_iff, _, hg.resolve?_eq, rfl, h.tabled_groupOf? rfl rfl⟩

end FlowScript.FlowGraph
