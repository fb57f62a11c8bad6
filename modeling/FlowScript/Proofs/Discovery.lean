import FlowScript.Proofs.Dominance
import FlowScript.Proofs.Partition

/-!
# How far the groups of entry points come

The groups of entry points are discovered by two walks. The flow takes a node with what it reads and
with what runs after it. Reading takes a node with what it reads, and leaves alone what runs after it.
The flow stops at a node that is taken already, so a node that is read before the flow comes to it cuts
off what runs after it: the flow goes on from exactly those nodes that it finds before any of their
readers.

What carries the walk is that, whenever the flow takes a step, all that the discovered nodes read has
been discovered. A node that the flow finds new is then read by none of them.
-/

namespace FlowScript.FlowGraph

open Relation (ReflTransGen TransGen)

/-- Nodes along with all that they read. -/
def Settled (g : FlowGraph) (found : List Nat) : Prop :=
  ∀ m ∈ found, ∀ d, g.Feeds d m → d ∈ found

/-- Where the flow can come to: an entry point, or a node after one that it came to. -/
def Ahead (g : FlowGraph) (followed : List Nat) (v : Nat) : Prop :=
  v ∈ g.entryPoints ∨ ∃ p ∈ followed, g.Leads p v

/-- The nodes in the order of their discovery, and those among them that the flow has found. -/
inductive Discovers (g : FlowGraph) : List Nat → List Nat → Prop where
  | nil : Discovers g [] []
  | read {found followed u v} : Discovers g found followed → u ∈ found → g.Feeds v u → v ∉ found →
      Discovers g (found ++ [v]) followed
  | follow {found followed v} : Discovers g found followed → g.Settled found → g.Ahead followed v →
      v ∉ found → Discovers g (found ++ [v]) (followed ++ [v])

variable {g : FlowGraph} {taken ms path found followed : List Nat} {v : Nat}

namespace Discovers

/-- The flow finds nodes that are discovered. -/
theorem subset (h : g.Discovers found followed) : followed ⊆ found := by
  induction h with
  | nil => exact List.Subset.refl _
  | read _ _ _ _ ih => exact fun w hw => List.mem_append_left _ (ih hw)
  | follow _ _ _ _ ih =>
    intro w hw
    exact List.mem_append.mpr ((List.mem_append.mp hw).imp_left fun hold => ih hold)

/-- The flow has found exactly those nodes that are discovered before all of their readers. -/
theorem mem_followed (h : g.Discovers found followed) (hv : v ∈ found) :
    v ∈ followed ↔ ∀ u, g.Feeds v u → ¬ found.idxOf u < found.idxOf v := by
  induction h with
  | nil => cases hv
  | @read found followed r x hfound hr hfeeds hnew ih =>
    by_cases hold : v ∈ found
    · simp only [Schedule.before_append hold, ih hold]
    · obtain rfl : v = x := by simpa [hold] using hv
      have hunfound : v ∉ followed := fun hin => hold (hfound.subset hin)
      have hbefore := (Schedule.before_finish (s := ⟨found, []⟩) hnew r).mpr hr
      exact ⟨fun hin => absurd hin hunfound, fun hnone => absurd hbefore (hnone r hfeeds)⟩
  | @follow found followed x hfound hsettled _ hnew ih =>
    by_cases hold : v ∈ found
    · have hne : v ≠ x := fun heq => hnew (heq ▸ hold)
      simp only [Schedule.before_append hold, ← ih hold, List.mem_append, List.mem_singleton, hne,
        or_false]
    · obtain rfl : v = x := by simpa [hold] using hv
      refine ⟨fun _ u hfeeds hbefore => ?_, fun _ => by simp⟩
      exact hnew (hsettled u ((Schedule.before_finish (s := ⟨found, []⟩) hnew u).mp hbefore) v hfeeds)

/-- The flow comes to a node that it finds through nodes that it finds. -/
theorem reached (h : g.Discovers found followed) (hv : v ∈ followed) :
    Reachable g.successors followed.contains g.entryPoints v := by
  induction h generalizing v with
  | nil => cases hv
  | read _ _ _ _ ih => exact ih hv
  | @follow found followed x hfound _ hahead hnew ih =>
    have hmore {w : Nat} (hw : w ∈ followed) :
        Reachable g.successors (followed ++ [x]).contains g.entryPoints w := by
      obtain ⟨entry, hentry, hin, hwalk⟩ := ih hw
      refine ⟨entry, hentry, ?_, ReflTransGen.mono (fun a b hab => ⟨hab.1, ?_⟩) _ _ hwalk⟩
      · simpa using Or.inl (List.contains_iff_mem.mp hin)
      · simpa using Or.inl (List.contains_iff_mem.mp hab.2)
    rcases List.mem_append.mp hv with hv | hv
    · exact hmore hv
    · obtain rfl := List.mem_singleton.mp hv
      rcases hahead with hentry | ⟨p, hp, hleads⟩
      · exact ⟨v, hentry, by simp, .refl⟩
      · exact (hmore hp).tail (mem_successors.mpr hleads) (by simp)

/-- A discovered node is read, directly or through other values, where the flow has come to, unless
the flow has found it. -/
theorem drawn (h : g.Discovers found followed) (hv : v ∈ found) :
    ∃ w ∈ followed, ReflTransGen g.Feeds v w := by
  induction h generalizing v with
  | nil => cases hv
  | @read found followed r x _ hr hfeeds _ ih =>
    rcases List.mem_append.mp hv with hv | hv
    · exact ih hv
    · obtain rfl := List.mem_singleton.mp hv
      obtain ⟨w, hw, hread⟩ := ih hr
      exact ⟨w, hw, .head hfeeds hread⟩
  | @follow found followed x _ _ _ _ ih =>
    rcases List.mem_append.mp hv with hv | hv
    · obtain ⟨w, hw, hread⟩ := ih hv
      exact ⟨w, List.mem_append_left _ hw, hread⟩
    · exact ⟨v, List.mem_append_right _ hv, .refl⟩

/-- What was discovered before a node was discovered in this way. -/
theorem before {rest : List Nat} (h : g.Discovers (found ++ v :: rest) followed) :
    v ∉ found ∧ ∃ earlier, g.Discovers found earlier := by
  generalize hall : found ++ v :: rest = all at h
  induction h generalizing rest with
  | nil => simp at hall
  | @read _ _ _ x hfound _ _ hnew ih | @follow _ _ x hfound _ _ hnew ih =>
    rcases List.eq_nil_or_concat rest with rfl | ⟨rest, last, rfl⟩
    · obtain ⟨rfl, heq⟩ := List.append_inj' hall rfl
      exact ⟨(List.cons.inj heq).1 ▸ hnew, _, hfound⟩
    · rw [List.concat_eq_append, ← List.cons_append, ← List.append_assoc] at hall
      exact ih (List.append_inj' hall rfl).1

end Discovers

/-- A loop over what a member reads discovers by reading, if each of its rounds does. -/
theorem Discovers.foldl_dependencies {f : Nat → List Nat → List Nat}
    (h : g.Discovers (taken ++ ms) followed) (hv : v ∈ ms) (hmore : ∀ d ms, ms <+: f d ms)
    (hf : ∀ d ms, g.Discovers (taken ++ ms) followed → (∃ u ∈ taken ++ ms, g.Feeds d u) →
      g.Discovers (taken ++ f d ms) followed) :
    g.Discovers (taken ++ (g.dependencies v).foldl (fun ms d => f d ms) ms) followed := by
  refine (List.foldlRecOn (g.dependencies v) (fun ms d => f d ms)
    (motive := fun ms => g.Discovers (taken ++ ms) followed ∧ v ∈ ms) ⟨h, hv⟩ ?_).1
  rintro ms ⟨hms, hv⟩ d hd
  exact ⟨hf d ms hms ⟨v, List.mem_append_right _ hv, mem_dependencies.mp hd⟩, (hmore d ms).subset hv⟩

/-- Gathering values discovers by reading. -/
theorem gatherData_discovers (budget : Nat) (h : g.Discovers (taken ++ ms) followed)
    (hread : ∃ u ∈ taken ++ ms, g.Feeds v u) :
    g.Discovers (taken ++ g.gatherData taken budget v ms) followed := by
  induction budget generalizing v ms with
  | zero => exact h
  | succ budget ih =>
    rw [gatherData]
    split
    · exact h
    · rename_i hnew
      obtain ⟨u, hu, hfeeds⟩ := hread
      have hfirst : g.Discovers (taken ++ (ms ++ [v])) followed := by
        rw [← List.append_assoc]
        exact h.read hu hfeeds (by simpa using hnew)
      exact hfirst.foldl_dependencies (by simp) (g.prefix_gatherData taken budget) fun _ _ => ih

/-- What holds while the flow is at the nodes of `path`: of every other node that it has found, all that
runs after it is discovered. -/
structure Explored (g : FlowGraph) (path found followed : List Nat) : Prop where
  discovers : g.Discovers found followed
  settled : g.Settled found
  complete : ∀ p ∈ followed, p ∉ path → ∀ w, g.Leads p w → w ∈ found

/-- What is added along with all that it reads leaves everything settled. -/
theorem Adds.settles {ms' : List Nat} (h : g.Adds taken ms ms') (hsettled : g.Settled (taken ++ ms)) :
    g.Settled (taken ++ ms') := by
  intro m hm d hd
  by_cases hold : m ∈ taken ++ ms
  · exact List.mem_append.mpr <|
      (List.mem_append.mp (hsettled m hold d hd)).imp_right fun hin => h.onward.subset hin
  · simp only [List.mem_append, not_or] at hm hold
    exact List.mem_append.mpr (h.settled m (hm.resolve_left hold.1) hold.2 d hd)

/-- The flow takes a node that is new, along with all that it reads. -/
theorem Explored.enter (hg : g.WellFormed) (h : g.Explored path (taken ++ ms) followed)
    (hahead : g.Ahead followed v) (hnew : v ∉ taken ++ ms) :
    g.Explored (v :: path) (taken ++ (g.dependencies v).foldl
      (fun ms d => g.gatherData taken g.size d ms) (ms ++ [v])) (followed ++ [v]) := by
  have hfirst : g.Discovers (taken ++ (ms ++ [v])) (followed ++ [v]) := by
    rw [← List.append_assoc]
    exact h.discovers.follow h.settled hahead hnew
  obtain ⟨hfree, hout⟩ : v ∉ taken ∧ v ∉ ms := by simpa using hnew
  obtain ⟨hdata, hread⟩ := @Adds.foldl g taken (ms ++ [v])
    (fun ms d => g.gatherData taken g.size d ms) (g.dependencies v) fun ms' _ d hd =>
      hg.gatherData_adds g.size (free_le_size g taken ms') (hg.feeds_lt (mem_dependencies.mp hd)).1
  have hadds := hdata.take hfree hout hread
  refine ⟨?_, hadds.settles h.settled, fun p hp hpath w hw => ?_⟩
  · exact hfirst.foldl_dependencies (by simp) (g.prefix_gatherData taken g.size) fun _ _ =>
      gatherData_discovers g.size
  · obtain ⟨hne, hpath⟩ : p ≠ v ∧ p ∉ path := by simpa using hpath
    have hold : p ∈ followed := by simpa [hne] using hp
    exact List.mem_append.mpr <| (List.mem_append.mp (h.complete p hold hpath w hw)).imp_right
      fun hin => hadds.onward.subset hin

/-- The flow leaves a node when all that runs after it is discovered. -/
theorem Explored.leave (h : g.Explored (v :: path) found followed)
    (hnext : ∀ w, g.Leads v w → w ∈ found) : g.Explored path found followed where
  discovers := h.discovers
  settled := h.settled
  complete p hp hpath w hw := by
    by_cases hself : p = v
    · exact hnext w (hself ▸ hw)
    · exact h.complete p hp (by simp [hself, hpath]) w hw

/-- Gathering the flow discovers a node and what runs after it. -/
theorem WellFormed.gatherFlow_explored (hg : g.WellFormed) (budget : Nat)
    (hbudget : g.free taken ms ≤ budget) (hv : v < g.size)
    (h : g.Explored path (taken ++ ms) followed) (hahead : g.Ahead followed v) :
    ∃ followed', followed ⊆ followed' ∧
      g.Explored path (taken ++ g.gatherFlow taken budget v ms) followed' := by
  induction budget generalizing v ms path followed with
  | zero => exact ⟨followed, List.Subset.refl _, h⟩
  | succ budget ih =>
    rw [gatherFlow]
    split
    · exact ⟨followed, List.Subset.refl _, h⟩
    · rename_i hheld
      have hnew : v ∉ taken ++ ms := by simpa using hheld
      obtain ⟨hfree, hout⟩ : v ∉ taken ∧ v ∉ ms := by simpa using hheld
      have hless := free_concat hv hfree hout
      have henter := h.enter hg hahead hnew
      have honward := prefix_foldl (fun ms u => g.prefix_gatherData taken g.size u ms)
        (g.dependencies v) (ms ++ [v])
      generalize (g.dependencies v).foldl (fun ms d => g.gatherData taken g.size d ms) (ms ++ [v]) = msd
        at henter honward
      have hstep {ms' : List Nat} (hms' : msd <+: ms') : g.free taken ms' ≤ budget := by
        have hmono := @free_mono g _ taken _ (honward.trans hms').subset
        omega
      -- all that runs after the node is discovered in the end
      obtain ⟨-, hnext⟩ := @Adds.foldl g taken msd (fun ms w => g.gatherFlow taken budget w ms)
        (g.successors v) fun ms' hms' w hw =>
          hg.gatherFlow_adds budget (hstep hms') (hg.leads_lt (mem_successors.mp hw)).2
      obtain ⟨followed', hmore, hexplored, -⟩ := List.foldlRecOn (g.successors v)
        (fun ms w => g.gatherFlow taken budget w ms)
        (motive := fun ms' => ∃ followed', followed ++ [v] ⊆ followed' ∧
          g.Explored (v :: path) (taken ++ ms') followed' ∧ msd <+: ms')
        ⟨_, List.Subset.refl _, henter, List.prefix_refl _⟩ (by
          rintro ms' ⟨followed', hmore, hexplored, hms'⟩ w hw
          have hleads := mem_successors.mp hw
          obtain ⟨followed'', hmore', hexplored'⟩ := ih (hstep hms') (hg.leads_lt hleads).2 hexplored
            (.inr ⟨v, hmore (by simp), hleads⟩)
          exact ⟨followed'', List.Subset.trans hmore hmore', hexplored',
            hms'.trans (g.prefix_gatherFlow taken budget w ms')⟩)
      exact ⟨followed', fun p hp => hmore (List.mem_append_left _ hp),
        hexplored.leave fun w hw => List.mem_append.mpr (hnext w (mem_successors.mpr hw))⟩

/-- The nodes that groups of entry points hold, in the order of their discovery. -/
def discovered (g : FlowGraph) : List Nat :=
  FlowGraph.taken (g.groups.filter (·.entry.isSome))

/-- The groups with an entry point are those that the entry points draw together. -/
theorem WellFormed.discovered_eq (hg : g.WellFormed) :
    g.discovered = FlowGraph.taken (g.entryPoints.foldl g.addFlowGroup []) := by
  have hsingle : g.groups.filter (·.entry.isSome) =
      (g.entryPoints.foldl g.addFlowGroup []).filter (·.entry.isSome) := by
    refine List.foldlRecOn g.positions addSingleGroup (motive := fun groups =>
      groups.filter (·.entry.isSome) = (g.entryPoints.foldl g.addFlowGroup []).filter (·.entry.isSome))
      rfl fun groups hgroups v _ => ?_
    rw [addSingleGroup]
    split
    · exact hgroups
    · simpa using hgroups
  rw [discovered, hsingle, List.filter_eq_self.mpr hg.grouped_flows.2]

/-- The entry points have been explored, and all that runs after what the flow has found. -/
theorem WellFormed.explored_discovered (hg : g.WellFormed) :
    ∃ followed, g.Explored [] g.discovered followed := by
  rw [hg.discovered_eq]
  refine List.foldlRecOn g.entryPoints g.addFlowGroup
    (motive := fun groups => ∃ followed, g.Explored [] (FlowGraph.taken groups) followed)
    ⟨[], .nil, by simp [Settled, FlowGraph.taken], by simp⟩ ?_
  rintro groups ⟨followed, hexplored⟩ v hv
  rw [addFlowGroup]
  split
  · exact ⟨followed, hexplored⟩
  · have htaken :
        FlowGraph.taken (groups ++ [⟨some v, g.gatherFlow (FlowGraph.taken groups) g.size v []⟩]) =
          FlowGraph.taken groups ++ g.gatherFlow (FlowGraph.taken groups) g.size v [] := by
      simp [FlowGraph.taken]
    obtain ⟨followed', -, hexplored'⟩ := @gatherFlow_explored g (FlowGraph.taken groups) [] [] followed v
      hg g.size (free_le_size g _ []) (entryPoints_lt hv) (by simpa using hexplored) (.inl hv)
    exact ⟨followed', htaken ▸ hexplored'⟩

/-- A node is in a group that has an entry point. -/
def InFlowGroup (g : FlowGraph) (v : Nat) : Prop :=
  ∃ group, g.groupOf? v = some group ∧ group.entry.isSome

/-- Groups with an entry point hold the discovered nodes. -/
theorem WellFormed.inFlowGroup_iff (hg : g.WellFormed) : g.InFlowGroup v ↔ v ∈ g.discovered := by
  simp only [InFlowGroup, hg.isPartition_groups.groupOf?_eq_some_iff, discovered, mem_taken,
    List.mem_filter]
  constructor
  · rintro ⟨group, ⟨hgroup, hv⟩, hentry⟩
    exact ⟨group, ⟨hgroup, hentry⟩, hv⟩
  · rintro ⟨group, ⟨hgroup, hentry⟩, hv⟩
    exact ⟨group, ⟨hgroup, hv⟩, hentry⟩

/-- A node is discovered after a node that reads it. -/
def ReadEarly (g : FlowGraph) (v : Nat) : Prop :=
  ∃ u, g.Feeds v u ∧ g.discovered.idxOf u < g.discovered.idxOf v

/-- The flow goes on from a node that is discovered before all of its readers. -/
def HandsOn (g : FlowGraph) (a b : Nat) : Prop :=
  g.Leads a b ∧ ¬ g.ReadEarly a

/-- A node is read, directly or through other values, only where the flow cannot come without it. -/
def Sheltered (g : FlowGraph) (v : Nat) : Prop :=
  ∀ w, TransGen g.Feeds v w → ¬ Reachable g.successors (· != v) g.entryPoints w

/-- The flow has found exactly the discovered nodes that are not read early. -/
theorem Explored.mem_followed (h : g.Explored [] g.discovered followed) (hv : v ∈ g.discovered) :
    v ∈ followed ↔ ¬ g.ReadEarly v := by
  simp only [h.discovers.mem_followed hv, ReadEarly, not_exists, not_and]

/-- All that the flow hands on to is discovered. -/
theorem WellFormed.mem_discovered_of_handsOn (hg : g.WellFormed) {entry : Nat}
    (hentry : entry ∈ g.entryPoints) (h : ReflTransGen g.HandsOn entry v) : v ∈ g.discovered := by
  obtain ⟨followed, hexplored⟩ := hg.explored_discovered
  induction h with
  | refl =>
    obtain ⟨group, hgroup, hsome, hin⟩ := hg.isPartition_groups.entries entry hentry
    exact mem_taken.mpr ⟨group, List.mem_filter.mpr ⟨hgroup, hsome⟩, hin⟩
  | tail _ hlast ih =>
    exact hexplored.complete _ ((hexplored.mem_followed ih).mpr hlast.2) List.not_mem_nil _ hlast.1

/-- What is discovered is read, directly or through other values, where the flow is handed on to, or
the flow is handed on to it. -/
theorem WellFormed.mem_discovered_iff (hg : g.WellFormed) : v ∈ g.discovered ↔
    ∃ entry ∈ g.entryPoints, ∃ w, ReflTransGen g.HandsOn entry w ∧ ReflTransGen g.Feeds v w := by
  obtain ⟨followed, hexplored⟩ := hg.explored_discovered
  constructor
  · intro hv
    obtain ⟨w, hw, hread⟩ := hexplored.discovers.drawn hv
    obtain ⟨entry, hentry, hin, hwalk⟩ := hexplored.discovers.reached hw
    have hfound {p : Nat} (hp : followed.contains p = true) : ¬ g.ReadEarly p := by
      have hp' : p ∈ followed := List.contains_iff_mem.mp hp
      exact (hexplored.mem_followed (hexplored.discovers.subset hp')).mp hp'
    have hhanded : followed.contains w = true ∧ ReflTransGen g.HandsOn entry w := by
      clear hw hread
      induction hwalk with
      | refl => exact ⟨hin, .refl⟩
      | tail _ hlast ih =>
        exact ⟨hlast.2, ih.2.tail ⟨mem_successors.mp hlast.1, hfound ih.1⟩⟩
    exact ⟨entry, hentry, w, hhanded.2, hread⟩
  · rintro ⟨entry, hentry, w, hpath, hread⟩
    have hw := hg.mem_discovered_of_handsOn hentry hpath
    induction hread using ReflTransGen.head_induction_on with
    | refl => exact hw
    | head hfeeds _ ih => exact hexplored.settled _ ih _ hfeeds

/-- A node that is read only where the flow cannot come without it is not read early. -/
theorem WellFormed.not_readEarly (hg : g.WellFormed) (hv : v ∈ g.discovered)
    (hsheltered : g.Sheltered v) : ¬ g.ReadEarly v := by
  rintro ⟨u, hfeeds, hbefore⟩
  obtain ⟨followed, hexplored⟩ := hg.explored_discovered
  obtain ⟨found, rest, hcut⟩ := List.append_of_mem hv
  have hdiscovers := hexplored.discovers
  rw [hcut] at hdiscovers hbefore
  obtain ⟨hnew, earlier, hearlier⟩ := hdiscovers.before
  have hu : u ∈ found := by
    by_contra hout
    rw [List.idxOf_append_of_notMem hout, List.idxOf_append_of_notMem hnew,
      List.idxOf_cons_self] at hbefore
    omega
  -- whatever the reader was drawn in for has been reached without the node
  obtain ⟨w, hw, hread⟩ := hearlier.drawn hu
  obtain ⟨entry, hentry, hin, hwalk⟩ := hearlier.reached hw
  have hother {x : Nat} (hx : earlier.contains x = true) : (x != v) = true := by
    have hne : x ≠ v := fun heq => hnew (heq ▸ hearlier.subset (List.contains_iff_mem.mp hx))
    simpa using hne
  exact hsheltered w (.head' hfeeds hread)
    ⟨entry, hentry, hother hin, ReflTransGen.mono (fun a b hab => ⟨hab.1, hother hab.2⟩) _ _ hwalk⟩

/-- Whether a node is read only where the flow cannot come without it can be found by search. -/
theorem WellFormed.sheltered_of_search (hg : g.WellFormed)
    (h : ∀ w ∈ reach g.size g.successors (· != v) g.entryPoints,
      v ∉ reach g.size g.dependencies (fun _ => true) (g.dependencies w)) : g.Sheltered v := by
  intro w hread hreachable
  have hw := (mem_reach (fun _ _ _ hu => (hg.leads_lt (mem_successors.mp hu)).2)
    (fun _ => entryPoints_lt) w).mpr hreachable
  obtain ⟨u, hpath, hlast⟩ := TransGen.tail'_iff.mp hread
  have hback : ReflTransGen (fun a b => b ∈ g.dependencies a ∧ true = true) u v := by
    refine ReflTransGen.mono (fun a b hab => ⟨mem_dependencies.mpr hab, rfl⟩) _ _
      (Relation.reflTransGen_swap.mpr hpath)
  refine h w hw ((mem_reach (fun _ _ _ hu => (hg.feeds_lt (mem_dependencies.mp hu)).1)
    (fun _ hu => (hg.feeds_lt (mem_dependencies.mp hu)).1) v).mpr ?_)
  exact ⟨u, mem_dependencies.mpr hlast, rfl, hback⟩

/-- A node is in a group of an entry point exactly if it is read, directly or through other values,
where the flow is handed on to, or the flow is handed on to it. So the groups hold all that runs after
an entry point behind nodes that are read only where the flow cannot come without them. -/
theorem flow_groups_hold_what_is_handed_on (doc : Document) :
    (∀ v, (ofDocument doc).InFlowGroup v ↔ ∃ entry ∈ (ofDocument doc).entryPoints, ∃ w,
      ReflTransGen (ofDocument doc).HandsOn entry w ∧ ReflTransGen (ofDocument doc).Feeds v w) ∧
    ∀ entry ∈ (ofDocument doc).entryPoints, ∀ v,
      ReflTransGen (fun a b => (ofDocument doc).Leads a b ∧ (ofDocument doc).Sheltered a) entry v →
        (ofDocument doc).InFlowGroup v := by
  have hg := ofDocument_wellFormed doc
  refine ⟨fun v => hg.inFlowGroup_iff.trans hg.mem_discovered_iff, fun entry hentry v hpath => ?_⟩
  have hhanded : ReflTransGen (ofDocument doc).HandsOn entry v := by
    induction hpath with
    | refl => exact .refl
    | tail _ hlast ih =>
      exact ih.tail ⟨hlast.1, hg.not_readEarly (hg.mem_discovered_of_handsOn hentry ih) hlast.2⟩
  exact hg.inFlowGroup_iff.mpr (hg.mem_discovered_of_handsOn hentry hhanded)

/-- A node whose value is read further down, through a value in between. -/
def readDownstream : Document where
  nodes :=
    [⟨"start", "start", none, some .start, [], [], some true, [], [], none, none⟩,
      ⟨"work", "work", none, some .plain, [], [⟨"out", "out", "any", false, none⟩], some true, [], [],
        none, none⟩,
      ⟨"text", "text", none, some .plain, [⟨"in", "in", "any", false, none⟩],
        [⟨"out", "out", "any", false, none⟩], none, [], [], none, none⟩,
      ⟨"show", "show", none, some .plain, [⟨"in", "in", "any", false, none⟩], [], some true, [], [],
        none, none⟩]
  edges :=
    [⟨"e1", "start", "work", none, none, some ⟨some .execution, none⟩⟩,
      ⟨"e2", "work", "show", none, none, some ⟨some .execution, none⟩⟩,
      ⟨"d1", "work", "text", some "out", some "in", none⟩,
      ⟨"d2", "text", "show", some "out", some "in", none⟩]

/-- The flow goes on from a node that is read further down. -/
theorem readDownstream_held :
    (0 ∈ (ofDocument readDownstream).entryPoints ∧ (ofDocument readDownstream).Feeds 1 2 ∧
      (ofDocument readDownstream).Sheltered 1) ∧ (ofDocument readDownstream).InFlowGroup 3 := by
  have hg := ofDocument_wellFormed readDownstream
  have hentry : 0 ∈ (ofDocument readDownstream).entryPoints := by decide
  have hfirst : (ofDocument readDownstream).Sheltered 0 := hg.sheltered_of_search (by decide)
  have hsecond : (ofDocument readDownstream).Sheltered 1 := hg.sheltered_of_search (by decide)
  have hwork : (ofDocument readDownstream).Leads 0 1 := mem_successors.mp (by decide)
  have hshow : (ofDocument readDownstream).Leads 1 3 := mem_successors.mp (by decide)
  refine ⟨⟨hentry, mem_dependencies.mp (by decide), hsecond⟩, ?_⟩
  exact (flow_groups_hold_what_is_handed_on readDownstream).2 0 hentry 3
    (.tail (.tail .refl ⟨hwork, hfirst⟩) ⟨hshow, hsecond⟩)

/-- A node that is read before the flow comes to it, on another way from the same entry point. -/
def readAside : Document where
  nodes :=
    [⟨"start", "start", none, some .start, [], [], some true, [], [], none, none⟩,
      ⟨"show", "show", none, some .plain, [⟨"in", "in", "any", false, none⟩], [], some true, [], [],
        none, none⟩,
      ⟨"work", "work", none, some .plain, [], [⟨"out", "out", "any", false, none⟩], some true, [], [],
        none, none⟩,
      ⟨"next", "next", none, some .plain, [], [], some true, [], [], none, none⟩]
  edges :=
    [⟨"e1", "start", "show", none, none, some ⟨some .execution, none⟩⟩,
      ⟨"e2", "start", "work", none, none, some ⟨some .execution, none⟩⟩,
      ⟨"e3", "work", "next", none, none, some ⟨some .execution, none⟩⟩,
      ⟨"d1", "work", "show", some "out", some "in", none⟩]

/-- The flow stops at a node that is read early: what runs after it is a group by itself, although an
entry point leads to it and no edges run in a circle. -/
theorem readAside_cut_off :
    (ofDocument readAside).anyExecutionPorts = true ∧ (ofDocument readAside).schedule.cycles = [] ∧
      (ofDocument readAside).Reached 3 ∧ (ofDocument readAside).groupOf? 3 = some ⟨none, [3]⟩ ∧
      ¬ (ofDocument readAside).InFlowGroup 3 := by
  have hgroup : (ofDocument readAside).groupOf? 3 = some ⟨none, [3]⟩ := by decide
  refine ⟨by decide, by decide, ⟨0, by decide, ?_⟩, hgroup, ?_⟩
  · exact .tail (.single (mem_successors.mp (by decide : 2 ∈ (ofDocument readAside).successors 0)))
      (mem_successors.mp (by decide))
  · rintro ⟨group, hfound, hentry⟩
    obtain rfl := Option.some.inj (hgroup.symm.trans hfound)
    cases hentry

end FlowScript.FlowGraph
