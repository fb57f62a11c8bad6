import FlowScript.Proofs.Groups
import FlowScript.Proofs.Order
import FlowScript.Proofs.Reach

/-!
# Graphs in two parts

A document that is put together from two documents without an edge between them gives a graph in two
parts: the nodes of the first come first, and the links of a node are those that it has in its own
part. What is gathered, searched or put in order from a node of one part stays in that part, and the
nodes of the other part only make the budgets larger. All walks here recurse on a budget that covers
the nodes that are not yet taken, so two budgets that do give the same.
-/

namespace FlowScript

section Lists

/-- Two lists are merged into a third, each in its own order. -/
inductive Interleaves {α : Type} : List α → List α → List α → Prop where
  | nil : Interleaves [] [] []
  | left {x xs ys zs} : Interleaves xs ys zs → Interleaves (x :: xs) ys (x :: zs)
  | right {y xs ys zs} : Interleaves xs ys zs → Interleaves xs (y :: ys) (y :: zs)

namespace Interleaves

variable {α β : Type} {xs ys zs : List α} {p : α → Bool}

/-- The members of a merged list. -/
theorem mem_iff (h : Interleaves xs ys zs) (z : α) : z ∈ zs ↔ z ∈ xs ∨ z ∈ ys := by
  induction h with
  | nil => simp
  | left _ ih => simp [ih, or_assoc]
  | right _ ih => simp [ih, or_left_comm]

/-- What is made of the members of a merged list is merged. -/
theorem filterMap {f g k : α → Option β} (h : Interleaves xs ys zs) (hxs : ∀ x ∈ xs, k x = f x)
    (hys : ∀ y ∈ ys, k y = g y) :
    Interleaves (xs.filterMap f) (ys.filterMap g) (zs.filterMap k) := by
  induction h with
  | nil => exact .nil
  | @left x xs ys zs _ ih =>
    have hrest := ih (fun x hx => hxs x (List.mem_cons_of_mem _ hx)) hys
    rw [List.filterMap_cons, List.filterMap_cons, hxs x List.mem_cons_self]
    cases f x with
    | none => exact hrest
    | some b => exact .left hrest
  | @right y xs ys zs _ ih =>
    have hrest := ih hxs (fun y hy => hys y (List.mem_cons_of_mem _ hy))
    rw [List.filterMap_cons, List.filterMap_cons, hys y List.mem_cons_self]
    cases g y with
    | none => exact hrest
    | some b => exact .right hrest

/-- A filter that drops all of the second list. -/
theorem filter_left (h : Interleaves xs ys zs) (hp : ∀ y ∈ ys, p y = false) :
    zs.filter p = xs.filter p := by
  induction h with
  | nil => rfl
  | left _ ih => rw [List.filter_cons, List.filter_cons, ih hp]
  | @right y xs ys zs _ ih =>
    rw [List.filter_cons_of_neg (by simp [hp y List.mem_cons_self])]
    exact ih fun y hy => hp y (List.mem_cons_of_mem _ hy)

/-- A filter that drops all of the first list. -/
theorem filter_right (h : Interleaves xs ys zs) (hp : ∀ x ∈ xs, p x = false) :
    zs.filter p = ys.filter p := by
  induction h with
  | nil => rfl
  | right _ ih => rw [List.filter_cons, List.filter_cons, ih hp]
  | @left x xs ys zs _ ih =>
    rw [List.filter_cons_of_neg (by simp [hp x List.mem_cons_self])]
    exact ih fun x hx => hp x (List.mem_cons_of_mem _ hx)

end Interleaves

/-- Renaming without clashes keeps what is a repetition. -/
theorem eraseDups_map {f : Nat → Nat} (hf : Function.Injective f) (vs : List Nat) :
    (vs.map f).eraseDups = vs.eraseDups.map f := by
  induction hn : vs.length using Nat.strongRecOn generalizing vs with
  | ind n ih =>
    cases vs with
    | nil => rfl
    | cons v rest =>
      have hfilter : (rest.map f).filter (fun w => !w == f v) =
          (rest.filter fun w => !w == v).map f := by
        rw [List.filter_map]
        congr 2
        funext w
        simp [hf.eq_iff]
      have hle := List.length_filter_le (fun w => !w == v) rest
      rw [List.map_cons, List.eraseDups_cons, List.eraseDups_cons, List.map_cons, hfilter,
        ih _ (by rw [← hn, List.length_cons]; omega) _ rfl]

/-- Different nodes below a bound that are as many as the bound are all nodes below it. -/
theorem mem_of_length_le {size v : Nat} {vs : List Nat} (hnodup : vs.Nodup)
    (hlt : ∀ u ∈ vs, u < size) (hlength : size ≤ vs.length) (hv : v < size) : v ∈ vs := by
  have hperm := hnodup.subperm fun u hu => List.mem_range.mpr (hlt u hu)
  have heq := hperm.perm_of_length_le (by simpa using hlength)
  exact heq.mem_iff.mpr (List.mem_range.mpr hv)

/-- Two folds whose steps agree on states that the steps keep. -/
theorem foldl_agree {α σ : Type} {f g : σ → α → σ} {P : σ → Prop} (xs : List α)
    (hstep : ∀ x ∈ xs, ∀ s, P s → f s x = g s x ∧ P (g s x)) {s : σ} (hs : P s) :
    xs.foldl f s = xs.foldl g s ∧ P (xs.foldl g s) := by
  induction xs generalizing s with
  | nil => exact ⟨rfl, hs⟩
  | cons x xs ih =>
    obtain ⟨heq, hnext⟩ := hstep x List.mem_cons_self s hs
    rw [List.foldl_cons, List.foldl_cons, heq]
    exact ih (fun y hy => hstep y (List.mem_cons_of_mem _ hy)) hnext

/-- A fold whose steps only add to a list. -/
theorem prefix_foldl {α β : Type} {f : List α → β → List α} (hf : ∀ as b, as <+: f as b)
    (bs : List β) (as : List α) : as <+: bs.foldl f as := by
  induction bs generalizing as with
  | nil => exact List.prefix_refl as
  | cons b bs ih => exact (hf as b).trans (ih (f as b))

/-- What is found in a list is found first in a longer one. -/
theorem find?_of_longer {α : Type} {p : α → Bool} {as bs : List α} (h : as <+: bs)
    (hsome : ∃ a ∈ as, p a = true) : bs.find? p = as.find? p := by
  obtain ⟨cs, rfl⟩ := h
  obtain ⟨a, ha⟩ := Option.isSome_iff_exists.mp (List.find?_isSome.mpr hsome)
  rw [List.find?_append, ha]
  rfl

/-- A fold, seen through a function of its states. -/
theorem foldl_through {α σ τ : Type} {h : σ → τ} {f : σ → α → σ} {g : τ → α → τ} (xs : List α)
    (hstep : ∀ x ∈ xs, ∀ s, g (h s) x = h (f s x)) (s : σ) :
    xs.foldl g (h s) = h (xs.foldl f s) := by
  induction xs generalizing s with
  | nil => rfl
  | cons x xs ih =>
    rw [List.foldl_cons, List.foldl_cons, hstep x List.mem_cons_self]
    exact ih (fun y hy => hstep y (List.mem_cons_of_mem _ hy)) _

end Lists

namespace Schedule

variable {size : Nat} {needs needs' : Nat → List Nat} {φ : Nat → Nat}

/-- A schedule after another one, with its nodes renamed. -/
def after (s : Schedule) (φ : Nat → Nat) (t : Schedule) : Schedule where
  order := s.order ++ t.order.map φ
  cycles := s.cycles ++ t.cycles.map fun c => ⟨φ c.node, φ c.via⟩

/-- Renaming without clashes keeps what a list contains. -/
theorem contains_map (hφ : Function.Injective φ) {vs : List Nat} {v : Nat} :
    (vs.map φ).contains (φ v) = vs.contains v := by
  rw [Bool.eq_iff_iff]
  simp [hφ.eq_iff]

/-- Nodes of another part are never met. -/
theorem contains_after (s t : Schedule) (hφ : Function.Injective φ) {v : Nat} (hv : φ v ∉ s.order) :
    (s.after φ t).order.contains (φ v) = t.order.contains v := by
  rw [Bool.eq_iff_iff]
  simp [after, hv, hφ.eq_iff]

/-- Working off a node gives the same in a larger graph, with any budgets that suffice. The nodes in
progress are different nodes of the part, so together with the budgets they bound its size. -/
theorem visit_after (s : Schedule) (hφ : Function.Injective φ) (hnew : ∀ v, φ v ∉ s.order)
    (hneeds : ∀ v < size, needs (φ v) = (needs' v).map φ)
    (hclosed : ∀ v < size, ∀ u ∈ needs' v, u < size) (budget budget' : Nat) {path : List Nat}
    (hpath : path.Nodup) (hwithin : ∀ u ∈ path, u < size) (hbudget : size ≤ budget + path.length)
    (hbudget' : size ≤ budget' + path.length) {v : Nat} (hv : v < size) (t : Schedule) :
    visit needs budget (path.map φ) (φ v) (s.after φ t) =
      s.after φ (visit needs' budget' path v t) := by
  induction budget generalizing budget' path v t with
  | zero =>
    have hin : v ∈ path := mem_of_length_le hpath hwithin (by omega) hv
    cases budget' with
    | zero => rfl
    | succ budget' => simp [visit, hin]
  | succ budget ih =>
    cases budget' with
    | zero =>
      have hin : v ∈ path := mem_of_length_le hpath hwithin (by omega) hv
      have hin' : φ v ∈ path.map φ := List.mem_map_of_mem hin
      simp only [visit, List.contains_eq_mem, hin', decide_true, Bool.true_or, if_true]
    | succ budget' =>
      rw [visit, visit, contains_after s t hφ (hnew v), contains_map hφ]
      split
      · rfl
      · rename_i hopen
        have hvpath : v ∉ path := by
          intro hin
          simp [hin] at hopen
        have hfinish (t : Schedule) : (s.after φ t).finish (φ v) = s.after φ (t.finish v) := by
          simp [finish, after]
        dsimp only
        rw [hneeds v hv, List.foldl_map, ← hfinish]
        refine congrArg (finish · (φ v)) (foldl_through (needs' v) (fun d hd t => ?_) t)
        -- a need is in order, or in progress, or worked off with one node more in progress
        rw [contains_after s t hφ (hnew d), ← List.map_cons, contains_map hφ]
        split_ifs
        · rfl
        · simp [closeCycle, after]
        · refine ih budget' (List.nodup_cons.mpr ⟨hvpath, hpath⟩) ?_ ?_ ?_ (hclosed v hv d hd) t
          · simpa [or_imp, forall_and] using ⟨hv, hwithin⟩
          · rw [List.length_cons]
            omega
          · rw [List.length_cons]
            omega

/-- The schedule of a graph in two parts is the schedule of the first and then that of the second. -/
theorem ofNeeds_add {size' : Nat} {needs₁ needs₂ : Nat → List Nat}
    (hneeds₁ : ∀ v < size, needs v = needs₁ v) (hclosed₁ : ∀ v < size, ∀ u ∈ needs₁ v, u < size)
    (hneeds₂ : ∀ v < size', needs (v + size) = (needs₂ v).map (· + size))
    (hclosed₂ : ∀ v < size', ∀ u ∈ needs₂ v, u < size') :
    ofNeeds (size + size') needs =
      (ofNeeds size needs₁).after (· + size) (ofNeeds size' needs₂) := by
  let walk (size : Nat) (needs : Nat → List Nat) (s : Schedule) (v : Nat) := visit needs size [] v s
  have hid (t : Schedule) : (⟨[], []⟩ : Schedule).after id t = t := by simp [after]
  have hfirst : (List.range size).foldl (walk (size + size') needs) ⟨[], []⟩ =
      ofNeeds size needs₁ := by
    refine (foldl_agree (P := fun _ => True) _ (fun v hv t _ => ⟨?_, trivial⟩) trivial).1
    have hvisit := visit_after ⟨[], []⟩ Function.injective_id (by simp)
      (fun v hv => by simpa using hneeds₁ v hv) hclosed₁ (size + size') size List.nodup_nil (by simp)
      (by simp) (by simp) (List.mem_range.mp hv) t
    rwa [hid, hid] at hvisit
  have hwithin : ∀ v, v + size ∉ (ofNeeds size needs₁).order := by
    intro v hin
    have hlt := (ofNeeds_sound hclosed₁).1.within _ hin
    omega
  have hsecond : ((List.range size').map (· + size)).foldl (walk (size + size') needs)
      ((ofNeeds size needs₁).after (· + size) ⟨[], []⟩) =
        (ofNeeds size needs₁).after (· + size) (ofNeeds size' needs₂) := by
    rw [List.foldl_map]
    refine foldl_through (h := (ofNeeds size needs₁).after (· + size)) _ (fun v hv t => ?_) _
    exact visit_after _ (fun _ _ => Nat.add_right_cancel) hwithin hneeds₂ hclosed₂ _ _ List.nodup_nil
      (by simp) (by simp) (by simp) (List.mem_range.mp hv) t
  have hrange : List.range (size + size') =
      List.range size ++ (List.range size').map (· + size) := by
    rw [List.range_add]
    simp [Nat.add_comm]
  have hempty : (ofNeeds size needs₁).after (· + size) ⟨[], []⟩ = ofNeeds size needs₁ := by
    simp [after]
  calc ofNeeds (size + size') needs
      = ((List.range size').map (· + size)).foldl (walk (size + size') needs)
          ((List.range size).foldl (walk (size + size') needs) ⟨[], []⟩) := by
        rw [ofNeeds, hrange, List.foldl_append]
    _ = (ofNeeds size needs₁).after (· + size) (ofNeeds size' needs₂) := by
        rw [hfirst, ← hempty, hsecond, hempty]

end Schedule

/-- An edge between nodes whose positions are moved. -/
def Edge.shift (n : Nat) (e : Edge) : Edge :=
  { e with source := e.source + n, target := e.target + n }

/-- A search that has seen all that it could go on from is over. -/
theorem reachFrom_of_seen {step : Nat → List Nat} {admits : Nat → Bool} {frontier seen : List Nat}
    (h : ∀ v ∈ frontier, admits v = true → v ∈ seen) (rounds : Nat) :
    reachFrom step admits rounds frontier seen = seen := by
  cases rounds with
  | zero => rfl
  | succ rounds =>
    have hnone : (frontier.filter fun v => admits v && !seen.contains v).eraseDups = [] := by
      rw [List.eq_nil_iff_forall_not_mem]
      intro v hv
      obtain ⟨hin, hadmits, hnew⟩ := mem_fresh.mp hv
      exact hnew (h v hin hadmits)
    rw [reachFrom, hnone]
    rfl

namespace FlowGraph

/-- A graph in two parts: the nodes of the first come first, and the edges of both are merged. -/
structure IsUnion (g g₁ g₂ : FlowGraph) : Prop where
  nodes : g.nodes = g₁.nodes ++ g₂.nodes
  edges : Interleaves g₁.edges (g₂.edges.map (Edge.shift g₁.size)) g.edges

/-- A graph is the first part of another one: its nodes come first, each with the links that it has
there, and no edge leads out of the part or into it. -/
structure IsPart (g₁ g : FlowGraph) : Prop where
  nodes : g₁.nodes <+: g.nodes
  dataInto : ∀ v < g₁.size, g.dataInto v = g₁.dataInto v
  executionInto : ∀ v < g₁.size, g.executionInto v = g₁.executionInto v
  executionFrom : ∀ v < g₁.size, g.executionFrom v = g₁.executionFrom v
  apart : ∀ e ∈ g.edges, e.source < g₁.size ↔ e.target < g₁.size

namespace IsUnion

variable {g g₁ g₂ : FlowGraph} {v : Nat}

theorem size_eq (h : IsUnion g g₁ g₂) : g.size = g₁.size + g₂.size := by
  rw [size, h.nodes, List.length_append]
  rfl

/-- A filter that drops the edges of the second part. -/
theorem filter_edges (h : IsUnion g g₁ g₂) {p : Edge → Bool}
    (hp : ∀ e : Edge, p (e.shift g₁.size) = false) : g.edges.filter p = g₁.edges.filter p := by
  refine h.edges.filter_left fun e he => ?_
  obtain ⟨f, -, rfl⟩ := List.mem_map.mp he
  exact hp f

/-- The first of two parts. -/
theorem isPart (h : IsUnion g g₁ g₂) (hg₁ : g₁.WellFormed) : IsPart g₁ g where
  nodes := h.nodes ▸ List.prefix_append _ _
  dataInto v hv := h.filter_edges fun e => decide_eq_false fun hin =>
    absurd hin.2 (by simp only [Edge.shift]; omega)
  executionInto v hv := h.filter_edges fun e => decide_eq_false fun hin =>
    absurd hin.2 (by simp only [Edge.shift]; omega)
  executionFrom v hv := h.filter_edges fun e => decide_eq_false fun hin =>
    absurd hin.2 (by simp only [Edge.shift]; omega)
  apart e he := by
    rcases (h.edges.mem_iff e).mp he with he | he
    · exact iff_of_true (hg₁.sources e he) (hg₁.targets e he)
    · obtain ⟨f, -, rfl⟩ := List.mem_map.mp he
      simp only [Edge.shift]
      omega

/-- What a node of the second part needs. -/
theorem needs_right (h : IsUnion g g₁ g₂) (hg₁ : g₁.WellFormed) (v : Nat) :
    g.needs (v + g₁.size) = (g₂.needs v).map (· + g₁.size) := by
  have hinjective : Function.Injective (· + g₁.size) := fun _ _ => Nat.add_right_cancel
  have hinto (kind : EdgeKind) :
      g.edges.filter (fun e => e.kind = kind ∧ e.target = v + g₁.size) =
        (g₂.edges.filter fun e => e.kind = kind ∧ e.target = v).map (Edge.shift g₁.size) := by
    rw [h.edges.filter_right fun e he => ?_, List.filter_map]
    · congr 2
      funext e
      exact decide_eq_decide.mpr (by simp [Edge.shift])
    · have hlt := hg₁.targets e he
      exact decide_eq_false fun hin => absurd hin.2 (by omega)
  have hsources (es : List Edge) :
      ((es.map (Edge.shift g₁.size)).map (·.source)).eraseDups =
        (es.map (·.source)).eraseDups.map (· + g₁.size) := by
    rw [← eraseDups_map hinjective, List.map_map, List.map_map]
    rfl
  simp only [needs, dependencies, predecessors, dataInto, executionInto, hinto, hsources,
    List.map_append]

end IsUnion

/-- A node is gathered once. -/
theorem gatherData_of_mem {g : FlowGraph} {taken members : List Nat} {v : Nat} (hv : v ∈ members)
    (budget : Nat) : g.gatherData taken budget v members = members := by
  cases budget with
  | zero => rfl
  | succ budget => simp [gatherData, hv]

theorem gatherFlow_of_mem {g : FlowGraph} {taken members : List Nat} {v : Nat} (hv : v ∈ members)
    (budget : Nat) : g.gatherFlow taken budget v members = members := by
  cases budget with
  | zero => rfl
  | succ budget => simp [gatherFlow, hv]

/-- Gathering values only adds members. -/
theorem prefix_gatherData (g : FlowGraph) (taken : List Nat) (budget v : Nat) (members : List Nat) :
    members <+: g.gatherData taken budget v members := by
  induction budget generalizing v members with
  | zero => exact List.prefix_refl _
  | succ budget ih =>
    rw [gatherData]
    split
    · exact List.prefix_refl _
    · exact (List.prefix_append _ _).trans (prefix_foldl (fun ms u => ih u ms) _ _)

/-- Gathering the flow only adds members. -/
theorem prefix_gatherFlow (g : FlowGraph) (taken : List Nat) (budget v : Nat) (members : List Nat) :
    members <+: g.gatherFlow taken budget v members := by
  induction budget generalizing v members with
  | zero => exact List.prefix_refl _
  | succ budget ih =>
    rw [gatherFlow]
    split
    · exact List.prefix_refl _
    · have hdata := prefix_foldl (fun ms u => g.prefix_gatherData taken g.size u ms)
        (g.dependencies v) (members ++ [v])
      exact ((List.prefix_append _ _).trans hdata).trans (prefix_foldl (fun ms w => ih w ms) _ _)

/-- The group of an entry point starts with it. -/
theorem singleton_prefix_gatherFlow {g : FlowGraph} {taken : List Nat} {v budget : Nat} (hv : v ∉ taken)
    (hbudget : 0 < budget) : [v] <+: g.gatherFlow taken budget v [] := by
  obtain ⟨budget, rfl⟩ := Nat.exists_eq_succ_of_ne_zero (Nat.ne_of_gt hbudget)
  rw [gatherFlow, if_neg (by simpa using hv)]
  have hdata := prefix_foldl (fun ms u => g.prefix_gatherData taken g.size u ms) (g.dependencies v) [v]
  have hflow := prefix_foldl (fun ms w => g.prefix_gatherFlow taken budget w ms) (g.successors v)
  exact hdata.trans (hflow _)

/-- Adding the groups of entry points only adds groups. -/
theorem prefix_addFlowGroup (g : FlowGraph) (groups : List Group) (entry : Nat) :
    groups <+: g.addFlowGroup groups entry := by
  rw [addFlowGroup]
  split
  · exact List.prefix_refl _
  · exact List.prefix_append _ _

/-- Adding single nodes only adds groups. -/
theorem prefix_addSingleGroup (groups : List Group) (v : Nat) : groups <+: addSingleGroup groups v := by
  rw [addSingleGroup]
  split
  · exact List.prefix_refl _
  · exact List.prefix_append _ _

/-- Every entry point is in a group once the groups of all entry points are there. -/
theorem exists_flowGroup {g : FlowGraph} {entries : List Nat} {v : Nat} (hv : v ∈ entries)
    (hlt : v < g.size) (groups : List Group) :
    ∃ group ∈ entries.foldl g.addFlowGroup groups, group.members.contains v = true := by
  obtain ⟨before, after, rfl⟩ := List.mem_iff_append.mp hv
  rw [List.foldl_append, List.foldl_cons]
  generalize before.foldl g.addFlowGroup groups = gs
  obtain ⟨group, hgroup, hin⟩ : ∃ group ∈ g.addFlowGroup gs v, v ∈ group.members := by
    rw [addFlowGroup]
    split
    · rename_i htaken
      exact List.mem_flatMap.mp (by simpa [taken] using htaken)
    · rename_i hfree
      refine ⟨_, List.mem_append_right _ (List.mem_singleton.mpr rfl), ?_⟩
      exact (singleton_prefix_gatherFlow (by simpa using hfree) (Nat.zero_lt_of_lt hlt)).subset
        (List.mem_singleton.mpr rfl)
  exact ⟨group, (prefix_foldl g.prefix_addFlowGroup after _).subset hgroup, by simpa using hin⟩

namespace IsPart

variable {g g₁ : FlowGraph} {v : Nat}

theorem size_le (h : IsPart g₁ g) : g₁.size ≤ g.size :=
  h.nodes.length_le

theorem node?_eq (h : IsPart g₁ g) (hv : v < g₁.size) : g.node? v = g₁.node? v := by
  obtain ⟨more, hmore⟩ := h.nodes
  rw [node?, ← hmore, List.getElem?_append_left hv, node?]

theorem dependencies_eq (h : IsPart g₁ g) (hv : v < g₁.size) :
    g.dependencies v = g₁.dependencies v := by
  rw [dependencies, h.dataInto v hv, dependencies]

theorem binding?_eq (h : IsPart g₁ g) (hv : v < g₁.size) (port : String) :
    g.binding? v port = g₁.binding? v port := by
  rw [binding?, bindings, h.dataInto v hv, binding?, bindings]

theorem successors_eq (h : IsPart g₁ g) (hv : v < g₁.size) :
    g.successors v = g₁.successors v := by
  rw [successors, h.executionFrom v hv, successors]

theorem predecessors_eq (h : IsPart g₁ g) (hv : v < g₁.size) :
    g.predecessors v = g₁.predecessors v := by
  rw [predecessors, h.executionInto v hv, predecessors]

theorem branchTargets_eq (h : IsPart g₁ g) (hv : v < g₁.size) (labels : List String) :
    g.branchTargets v labels = g₁.branchTargets v labels := by
  rw [branchTargets, branches, h.executionFrom v hv, branchTargets, branches]

theorem isDataOnly_eq (h : IsPart g₁ g) (hv : v < g₁.size) : g.isDataOnly v = g₁.isDataOnly v := by
  rw [isDataOnly, h.node?_eq hv, isDataOnly]

theorem hasExecutionPorts_eq (h : IsPart g₁ g) (hv : v < g₁.size) :
    g.hasExecutionPorts v = g₁.hasExecutionPorts v := by
  rw [hasExecutionPorts, h.node?_eq hv, hasExecutionPorts]

/-- A flow of execution in the part is one in the graph. -/
theorem anyExecutionPorts (h : IsPart g₁ g) (hports : g₁.anyExecutionPorts = true) :
    g.anyExecutionPorts = true := by
  obtain ⟨more, hmore⟩ := h.nodes
  rw [FlowGraph.anyExecutionPorts, ← hmore, List.any_append, Bool.or_eq_true]
  exact .inl hports

/-- Where the flow of execution of the part starts, the flow of the graph starts as well, and all
other starts are outside the part. -/
theorem entryPoints_eq (h : IsPart g₁ g) (hports : g₁.anyExecutionPorts = true) :
    ∃ others, g.entryPoints = g₁.entryPoints ++ others ∧ ∀ v ∈ others, g₁.size ≤ v := by
  obtain ⟨more, hmore⟩ := h.nodes
  have hpositions : g.positions = g₁.positions ++ (List.range more.length).map (g₁.size + ·) := by
    rw [positions, size, ← hmore, List.length_append, List.range_add]
    rfl
  rw [entryPoints, if_pos (h.anyExecutionPorts hports), entryPoints, if_pos hports, hpositions,
    List.filter_append]
  refine ⟨_, congrArg (· ++ _) (List.filter_congr fun v hv => ?_), fun v hv => ?_⟩
  · have hlt : v < g₁.size := mem_positions.mp hv
    rw [h.hasExecutionPorts_eq hlt, h.predecessors_eq hlt]
  · obtain ⟨u, -, rfl⟩ := List.mem_map.mp (List.mem_filter.mp hv).1
    exact Nat.le_add_right _ _

/-- A node outside the part reads only nodes outside it. -/
theorem le_of_feeds (h : IsPart g₁ g) {a b : Nat} (hfeeds : g.Feeds a b) (hb : g₁.size ≤ b) :
    g₁.size ≤ a := by
  obtain ⟨e, he, -, rfl, rfl⟩ := hfeeds
  have happart := h.apart e he
  omega

/-- A node outside the part leads only to nodes outside it. -/
theorem le_of_leads (h : IsPart g₁ g) {a b : Nat} (hleads : g.Leads a b) (ha : g₁.size ≤ a) :
    g₁.size ≤ b := by
  obtain ⟨e, he, -, rfl, rfl⟩ := hleads
  have happart := h.apart e he
  omega

/-- A list of nodes of a part, each once, that goes on from another one. -/
structure Grows (size : Nat) (members ms : List Nat) : Prop where
  nodup : ms.Nodup
  lt : ∀ m ∈ ms, m < size
  onward : members <+: ms

theorem Grows.self {size : Nat} {members ms : List Nat} (h : Grows size members ms) :
    Grows size ms ms :=
  ⟨h.nodup, h.lt, List.prefix_refl ms⟩

theorem Grows.trans {size : Nat} {members ms ms' : List Nat} (h : Grows size members ms)
    (h' : Grows size ms ms') : Grows size members ms' :=
  ⟨h'.nodup, h'.lt, h.onward.trans h'.onward⟩

/-- A new node of the part is added. -/
theorem Grows.snoc {size : Nat} {members : List Nat} (h : Grows size members members)
    (hv : v < size) (hnew : v ∉ members) : Grows size members (members ++ [v]) := by
  refine ⟨?_, by simpa [or_imp, forall_and] using ⟨h.lt, hv⟩, List.prefix_append _ _⟩
  rw [List.nodup_append]
  refine ⟨h.nodup, List.nodup_singleton v, fun a ha b hb => ?_⟩
  rintro rfl
  exact hnew (List.mem_singleton.mp hb ▸ ha)

/-- A budget that, with the members, covers the part is not used up before a new node. -/
theorem Grows.exists_budget {size budget : Nat} {members : List Nat}
    (h : Grows size members members) (hv : v < size) (hnew : v ∉ members)
    (hbudget : size ≤ budget + members.length) : ∃ b, budget = b + 1 := by
  refine Nat.exists_eq_succ_of_ne_zero fun hzero => hnew ?_
  exact mem_of_length_le h.nodup h.lt (by omega) hv

/-- Gathering values in the part, with any budgets that suffice. The members are different nodes of
the part, so together with the budgets they bound its size. -/
theorem gatherData_eq (h : IsPart g₁ g) (hg₁ : g₁.WellFormed) (taken : List Nat)
    (budget budget' : Nat) {members : List Nat} (hmembers : Grows g₁.size members members)
    (hbudget : g₁.size ≤ budget + members.length) (hbudget' : g₁.size ≤ budget' + members.length)
    (hv : v < g₁.size) :
    g.gatherData taken budget v members = g₁.gatherData taken budget' v members ∧
      Grows g₁.size members (g₁.gatherData taken budget' v members) := by
  induction budget generalizing budget' members v with
  | zero =>
    have hin : v ∈ members := mem_of_length_le hmembers.nodup hmembers.lt (by omega) hv
    rw [gatherData_of_mem hin, gatherData_of_mem hin]
    exact ⟨rfl, hmembers⟩
  | succ budget ih =>
    by_cases hin : v ∈ members
    · rw [gatherData_of_mem hin, gatherData_of_mem hin]
      exact ⟨rfl, hmembers⟩
    · obtain ⟨budget', rfl⟩ := hmembers.exists_budget hv hin hbudget'
      rw [gatherData, gatherData]
      split
      · exact ⟨rfl, hmembers⟩
      · have hsnoc := hmembers.snoc hv hin
        rw [h.dependencies_eq hv]
        have hread (u : Nat) (hu : u ∈ g₁.dependencies v) (ms : List Nat)
            (hms : Grows g₁.size (members ++ [v]) ms) :
            g.gatherData taken budget u ms = g₁.gatherData taken budget' u ms ∧
              Grows g₁.size (members ++ [v]) (g₁.gatherData taken budget' u ms) := by
          have hlength := hms.onward.length_le
          rw [List.length_append, List.length_singleton] at hlength
          have hstep := ih budget' hms.self (by omega) (by omega)
            (hg₁.feeds_lt (mem_dependencies.mp hu)).1
          exact ⟨hstep.1, hms.trans hstep.2⟩
        have hfold := foldl_agree _ hread hsnoc.self
        exact ⟨hfold.1, hsnoc.trans hfold.2⟩

/-- Gathering the flow in the part, with any budgets that suffice. -/
theorem gatherFlow_eq (h : IsPart g₁ g) (hg₁ : g₁.WellFormed) (taken : List Nat)
    (budget budget' : Nat) {members : List Nat} (hmembers : Grows g₁.size members members)
    (hbudget : g₁.size ≤ budget + members.length) (hbudget' : g₁.size ≤ budget' + members.length)
    (hv : v < g₁.size) :
    g.gatherFlow taken budget v members = g₁.gatherFlow taken budget' v members ∧
      Grows g₁.size members (g₁.gatherFlow taken budget' v members) := by
  induction budget generalizing budget' members v with
  | zero =>
    have hin : v ∈ members := mem_of_length_le hmembers.nodup hmembers.lt (by omega) hv
    rw [gatherFlow_of_mem hin, gatherFlow_of_mem hin]
    exact ⟨rfl, hmembers⟩
  | succ budget ih =>
    by_cases hin : v ∈ members
    · rw [gatherFlow_of_mem hin, gatherFlow_of_mem hin]
      exact ⟨rfl, hmembers⟩
    · obtain ⟨budget', rfl⟩ := hmembers.exists_budget hv hin hbudget'
      rw [gatherFlow, gatherFlow]
      split
      · exact ⟨rfl, hmembers⟩
      · have hsnoc := hmembers.snoc hv hin
        rw [h.dependencies_eq hv, h.successors_eq hv]
        have hread (u : Nat) (hu : u ∈ g₁.dependencies v) (ms : List Nat)
            (hms : Grows g₁.size (members ++ [v]) ms) :
            g.gatherData taken g.size u ms = g₁.gatherData taken g₁.size u ms ∧
              Grows g₁.size (members ++ [v]) (g₁.gatherData taken g₁.size u ms) := by
          have hsize := h.size_le
          have hstep := h.gatherData_eq hg₁ taken g.size g₁.size hms.self (by omega) (by omega)
            (hg₁.feeds_lt (mem_dependencies.mp hu)).1
          exact ⟨hstep.1, hms.trans hstep.2⟩
        have hrun (w : Nat) (hw : w ∈ g₁.successors v) (ms : List Nat)
            (hms : Grows g₁.size (members ++ [v]) ms) :
            g.gatherFlow taken budget w ms = g₁.gatherFlow taken budget' w ms ∧
              Grows g₁.size (members ++ [v]) (g₁.gatherFlow taken budget' w ms) := by
          have hlength := hms.onward.length_le
          rw [List.length_append, List.length_singleton] at hlength
          have hstep := ih budget' hms.self (by omega) (by omega)
            (hg₁.leads_lt (mem_successors.mp hw)).2
          exact ⟨hstep.1, hms.trans hstep.2⟩
        have hdata := foldl_agree _ hread hsnoc.self
        have hflow := foldl_agree _ hrun hdata.2
        refine ⟨?_, hsnoc.trans hflow.2⟩
        rw [hdata.1]
        exact hflow.1

/-- An entry point of the part is in the same group in the graph. -/
theorem find?_groups (h : IsPart g₁ g) (hg₁ : g₁.WellFormed) (hports : g₁.anyExecutionPorts = true)
    (hv : v ∈ g₁.entryPoints) : g.groups.find? (·.members.contains v) =
      g₁.groups.find? (·.members.contains v) := by
  obtain ⟨others, hothers, -⟩ := h.entryPoints_eq hports
  have hflow : g₁.entryPoints.foldl g.addFlowGroup [] = g₁.entryPoints.foldl g₁.addFlowGroup [] := by
    refine (foldl_agree (P := fun _ => True) _ (fun u hu groups _ => ⟨?_, trivial⟩) trivial).1
    have hsize := h.size_le
    rw [addFlowGroup, addFlowGroup, (h.gatherFlow_eq hg₁ _ g.size g₁.size
      ⟨List.nodup_nil, by simp, List.prefix_refl []⟩ (by simpa using hsize) (by simp)
      (entryPoints_lt hu)).1]
  have hfound := exists_flowGroup hv (entryPoints_lt hv) []
  have hlarge : g₁.entryPoints.foldl g₁.addFlowGroup [] <+: g.groups := by
    rw [groups, hothers, List.foldl_append, hflow]
    exact (prefix_foldl g.prefix_addFlowGroup others _).trans (prefix_foldl prefix_addSingleGroup _ _)
  have hsmall : g₁.entryPoints.foldl g₁.addFlowGroup [] <+: g₁.groups :=
    prefix_foldl prefix_addSingleGroup _ _
  rw [find?_of_longer hlarge hfound, find?_of_longer hsmall hfound]

/-- A group that holds a node outside the part holds no other nodes. -/
theorem le_of_group (h : IsPart g₁ g) {group : Group} (hgroup : group ∈ g.groups)
    (hv : v ∈ group.members) (hout : g₁.size ≤ v) : ∀ m ∈ group.members, g₁.size ≤ m := by
  have hinside : g.Closed (· < g₁.size) :=
    ⟨fun a b hfeeds hb => by
      obtain ⟨e, he, -, rfl, rfl⟩ := hfeeds
      exact (h.apart e he).mpr hb,
    fun a b hleads ha => by
      obtain ⟨e, he, -, rfl, rfl⟩ := hleads
      exact (h.apart e he).mp ha⟩
  have houtside : g.Closed (g₁.size ≤ ·) :=
    ⟨fun a b => h.le_of_feeds, fun a b => h.le_of_leads⟩
  obtain ⟨r, -, hkeeps⟩ := g.groups_rooted group hgroup
  by_cases hr : r < g₁.size
  · have hlt := hkeeps _ hinside hr v hv
    omega
  · exact hkeeps _ houtside (Nat.le_of_not_lt hr)

/-- The new nodes of a round of a search are added. -/
theorem Grows.append_fresh {size : Nat} {admits : Nat → Bool} {frontier seen : List Nat}
    (h : Grows size seen seen) (hfrontier : ∀ v ∈ frontier, v < size) :
    Grows size seen (seen ++ (frontier.filter fun v => admits v && !seen.contains v).eraseDups) := by
  refine ⟨?_, ?_, List.prefix_append _ _⟩
  · rw [List.nodup_append]
    refine ⟨h.nodup, nodup_eraseDups _, fun v hv w hw => ?_⟩
    rintro rfl
    exact (mem_fresh.mp hw).2.2 hv
  · intro v hv
    rcases List.mem_append.mp hv with hv | hv
    · exact h.lt v hv
    · exact hfrontier v (mem_fresh.mp hv).1

section Search

variable {size : Nat} {step step₁ : Nat → List Nat} {admits admits₁ : Nat → Bool}
  (hstep : ∀ v < size, step v = step₁ v) (hclosed : ∀ v < size, ∀ w ∈ step₁ v, w < size)
  (hadmits : ∀ v < size, admits v = admits₁ v)

include hstep hclosed hadmits

/-- A search goes on as in the part, with any numbers of rounds that suffice. The nodes that have
been seen are different nodes of the part, so together with the rounds they bound its size. -/
theorem reachFrom_eq (rounds rounds' : Nat) {frontier seen : List Nat}
    (hfrontier : ∀ v ∈ frontier, v < size) (hseen : Grows size seen seen)
    (hrounds : size ≤ rounds + seen.length) (hrounds' : size ≤ rounds' + seen.length) :
    reachFrom step admits rounds frontier seen = reachFrom step₁ admits₁ rounds' frontier seen := by
  induction rounds generalizing rounds' frontier seen with
  | zero =>
    have hall (v : Nat) (hv : v ∈ frontier) : v ∈ seen :=
      mem_of_length_le hseen.nodup hseen.lt (by omega) (hfrontier v hv)
    exact (reachFrom_of_seen (fun v hv _ => hall v hv) _).symm
  | succ rounds ih =>
    by_cases hover : ∀ v ∈ frontier, admits₁ v = true → v ∈ seen
    · rw [reachFrom_of_seen hover, reachFrom_of_seen fun v hv hin =>
        hover v hv (hadmits v (hfrontier v hv) ▸ hin)]
    · -- a round that finds a new node
      obtain ⟨u, hu, hadmitted, hnew⟩ : ∃ u ∈ frontier, admits₁ u = true ∧ u ∉ seen := by
        simpa using hover
      obtain ⟨rounds', rfl⟩ := hseen.exists_budget (hfrontier u hu) hnew hrounds'
      have hsame : (frontier.filter fun v => admits v && !seen.contains v) =
          frontier.filter fun v => admits₁ v && !seen.contains v :=
        List.filter_congr fun v hv => by rw [hadmits v (hfrontier v hv)]
      have hgrows := @Grows.append_fresh size admits₁ frontier seen hseen hfrontier
      have hfresh := mem_fresh.mpr ⟨hu, hadmitted, hnew⟩
      rw [reachFrom, reachFrom, hsame]
      generalize (frontier.filter fun v => admits₁ v && !seen.contains v).eraseDups = fresh
        at hgrows hfresh
      have hlt : ∀ v ∈ fresh, v < size := fun v hv => hgrows.lt v (List.mem_append_right _ hv)
      have hlength : 0 < fresh.length := List.length_pos_of_mem hfresh
      have hnext : fresh.flatMap step = fresh.flatMap step₁ :=
        List.flatMap_congr fun v hv => hstep v (hlt v hv)
      rw [if_neg (by simpa using List.ne_nil_of_mem hfresh),
        if_neg (by simpa using List.ne_nil_of_mem hfresh), hnext]
      refine ih rounds' (fun w hw => ?_) hgrows.self ?_ ?_
      · obtain ⟨v, hv, hvw⟩ := List.mem_flatMap.mp hw
        exact hclosed v (hlt v hv) w hvw
      · rw [List.length_append]
        omega
      · rw [List.length_append]
        omega

end Search

/-- A search from nodes of the part finds the same in the graph, whatever is admitted outside the
part. -/
theorem reach_eq (h : IsPart g₁ g) {step step₁ : Nat → List Nat} {admits admits₁ : Nat → Bool}
    (hstep : ∀ v < g₁.size, step v = step₁ v) (hclosed : ∀ v < g₁.size, ∀ w ∈ step₁ v, w < g₁.size)
    (hadmits : ∀ v < g₁.size, admits v = admits₁ v) {starts : List Nat}
    (hstarts : ∀ v ∈ starts, v < g₁.size) :
    reach g.size step admits starts = reach g₁.size step₁ admits₁ starts := by
  have hsize := h.size_le
  exact reachFrom_eq hstep hclosed hadmits _ _ hstarts
    ⟨List.nodup_nil, by simp, List.prefix_refl []⟩ (by simpa using hsize) (by simp)

end IsPart

/-- The schedule of a graph in two parts is the schedule of the first and then that of the second. -/
theorem IsUnion.schedule_eq {g g₁ g₂ : FlowGraph} (h : IsUnion g g₁ g₂) (hg₁ : g₁.WellFormed)
    (hg₂ : g₂.WellFormed) : g.schedule = g₁.schedule.after (· + g₁.size) g₂.schedule := by
  have hpart := h.isPart hg₁
  rw [schedule, h.size_eq]
  refine Schedule.ofNeeds_add (fun v hv => ?_) (fun v _ u hu => ?_) (fun v _ => h.needs_right hg₁ v)
    fun v _ u hu => ?_
  · rw [needs, hpart.dependencies_eq hv, hpart.predecessors_eq hv, needs]
  · exact (hg₁.linked_lt (mem_needs.mp hu)).1
  · exact (hg₂.linked_lt (mem_needs.mp hu)).1

end FlowGraph

namespace Document

/-- An edge joins two nodes of a document. -/
def Joins (doc : Document) (e : Document.Edge) : Prop :=
  (∃ n ∈ doc.nodes, n.id = e.source) ∧ ∃ n ∈ doc.nodes, n.id = e.target

instance (doc : Document) (e : Document.Edge) : Decidable (doc.Joins e) :=
  inferInstanceAs (Decidable (_ ∧ _))

/-- A document is put together from two: no id is in both, the nodes of the first come first, the
edges are merged in any way, and an edge that joins two nodes joins nodes of its own part. -/
structure IsUnion (doc doc₁ doc₂ : Document) : Prop where
  nodes : doc.nodes = doc₁.nodes ++ doc₂.nodes
  edges : Interleaves doc₁.edges doc₂.edges doc.edges
  disjoint : ∀ m ∈ doc₁.nodes, ∀ n ∈ doc₂.nodes, m.id ≠ n.id
  first : ∀ e ∈ doc₁.edges, doc.Joins e → doc₁.Joins e
  second : ∀ e ∈ doc₂.edges, doc.Joins e → doc₂.Joins e

end Document

/-- Which nodes count depends on the ids that were seen before among their own only. -/
theorem firstDeclared_congr {seen seen' : List String} {nodes : List Document.Node}
    (h : ∀ n ∈ nodes, n.id ∈ seen ↔ n.id ∈ seen') :
    firstDeclared seen nodes = firstDeclared seen' nodes := by
  induction nodes generalizing seen seen' with
  | nil => rfl
  | cons n nodes ih =>
    have hrest : ∀ m ∈ nodes, m.id ∈ seen ↔ m.id ∈ seen' :=
      fun m hm => h m (List.mem_cons_of_mem _ hm)
    have hsame : seen.contains n.id = seen'.contains n.id := by
      rw [List.contains_eq_mem, List.contains_eq_mem]
      exact decide_eq_decide.mpr (h n List.mem_cons_self)
    have hkept : firstDeclared (n.id :: seen) nodes = firstDeclared (n.id :: seen') nodes :=
      ih fun m hm => by simp [hrest m hm]
    rw [firstDeclared, firstDeclared, hsame, ih hrest, hkept]

/-- Nodes after nodes with other ids. -/
theorem firstDeclared_append {seen : List String} {nodes nodes' : List Document.Node}
    (h : ∀ m ∈ nodes, ∀ n ∈ nodes', m.id ≠ n.id) :
    firstDeclared seen (nodes ++ nodes') = firstDeclared seen nodes ++ firstDeclared seen nodes' := by
  induction nodes generalizing seen with
  | nil => rfl
  | cons n nodes ih =>
    have hrest : ∀ m ∈ nodes, ∀ k ∈ nodes', m.id ≠ k.id := fun m hm => h m (List.mem_cons_of_mem _ hm)
    have hother : firstDeclared (n.id :: seen) nodes' = firstDeclared seen nodes' :=
      firstDeclared_congr fun m hm => by simp [(h n List.mem_cons_self m hm).symm]
    rw [List.cons_append, firstDeclared, firstDeclared]
    split
    · exact ih hrest
    · rw [ih hrest, hother]
      rfl

/-- The ids that have a position are those of the declared nodes. -/
theorem position?_isSome {nodes : List Document.Node} {id : String} :
    (position? ((firstDeclared [] nodes).map Node.ofDocument) id).isSome = true ↔
      ∃ n ∈ nodes, n.id = id := by
  have hfirst : (∃ n ∈ firstDeclared [] nodes, n.id = id) ↔ ∃ n ∈ nodes, n.id = id := by
    simpa using @exists_firstDeclared_iff id [] nodes
  rw [← hfirst, position?, List.findIdx?_isSome]
  simp [Node.ofDocument]

/-- An edge that counts joins two nodes. -/
theorem Document.joins_of_isSome {doc : Document} {e : Document.Edge}
    (h : (Edge.ofDocument? ((firstDeclared [] doc.nodes).map Node.ofDocument) e).isSome = true) :
    doc.Joins e := by
  obtain ⟨x, hx⟩ := Option.isSome_iff_exists.mp h
  simp only [Edge.ofDocument?, Option.bind_eq_bind, Option.bind_eq_some_iff] at hx
  obtain ⟨s, hs, t, ht, -⟩ := hx
  exact ⟨position?_isSome.mp (by simp [hs]), position?_isSome.mp (by simp [ht])⟩

/-- An id of the first nodes has its position among all nodes. -/
theorem position?_left {nodes₁ nodes₂ : List Node} {id : String} {v : Nat}
    (h : position? nodes₁ id = some v) : position? (nodes₁ ++ nodes₂) id = some v := by
  rw [position?] at h
  rw [position?, List.findIdx?_append, h]
  rfl

/-- An id of the other nodes is found after the first nodes. -/
theorem position?_right {nodes₁ nodes₂ : List Node} {id : String} (h : position? nodes₁ id = none) :
    position? (nodes₁ ++ nodes₂) id = (position? nodes₂ id).map (· + nodes₁.length) := by
  rw [position?] at h
  rw [position?, List.findIdx?_append, h]
  rfl

/-- An edge between the first nodes. -/
theorem Edge.ofDocument?_left {nodes₁ nodes₂ : List Node} {e : Document.Edge} {s t : Nat}
    (hs : position? nodes₁ e.source = some s) (ht : position? nodes₁ e.target = some t) :
    Edge.ofDocument? (nodes₁ ++ nodes₂) e = Edge.ofDocument? nodes₁ e := by
  simp only [Edge.ofDocument?, position?_left hs, position?_left ht, hs, ht, Option.bind_eq_bind,
    Option.bind_some, List.getElem?_append_left (position?_lt hs)]

/-- An edge between the other nodes. -/
theorem Edge.ofDocument?_right {nodes₁ nodes₂ : List Node} {e : Document.Edge}
    (hs : position? nodes₁ e.source = none) (ht : position? nodes₁ e.target = none) :
    Edge.ofDocument? (nodes₁ ++ nodes₂) e =
      (Edge.ofDocument? nodes₂ e).map (Edge.shift nodes₁.length) := by
  simp only [Edge.ofDocument?, position?_right hs, position?_right ht, Option.bind_eq_bind]
  cases position? nodes₂ e.source with
  | none => rfl
  | some s =>
    cases position? nodes₂ e.target with
    | none => rfl
    | some t =>
      simp only [Option.map_some, Option.bind_some]
      rw [List.getElem?_append_right (Nat.le_add_left _ _), Nat.add_sub_cancel]
      cases nodes₂[s]? with
      | none => rfl
      | some n => rfl

/-- The graph of a document that is put together from two is in two parts. -/
theorem Document.IsUnion.graph {doc doc₁ doc₂ : Document} (h : doc.IsUnion doc₁ doc₂) :
    (FlowGraph.ofDocument doc).IsUnion (.ofDocument doc₁) (.ofDocument doc₂) := by
  let counted (doc : Document) := (firstDeclared [] doc.nodes).map Node.ofDocument
  have hnodes : counted doc = counted doc₁ ++ counted doc₂ := by
    simp only [counted, h.nodes, firstDeclared_append h.disjoint, List.map_append]
  have hsubset {e : Document.Edge} (hjoins : doc₁.Joins e ∨ doc₂.Joins e) : doc.Joins e := by
    simp only [Joins, h.nodes]
    rcases hjoins with ⟨⟨m, hm, hsource⟩, n, hn, htarget⟩ | ⟨⟨m, hm, hsource⟩, n, hn, htarget⟩
    · exact ⟨⟨m, List.mem_append_left _ hm, hsource⟩, n, List.mem_append_left _ hn, htarget⟩
    · exact ⟨⟨m, List.mem_append_right _ hm, hsource⟩, n, List.mem_append_right _ hn, htarget⟩
  have hnone {doc : Document} {e : Document.Edge} (hjoins : ¬ doc.Joins e) :
      Edge.ofDocument? (counted doc) e = none := by
    rw [← Option.not_isSome_iff_eq_none]
    exact fun hsome => hjoins (joins_of_isSome hsome)
  refine ⟨hnodes, ?_⟩
  change Interleaves _ (((doc₂.edges.filterMap (Edge.ofDocument? (counted doc₂)))).map _)
    (doc.edges.filterMap (Edge.ofDocument? (counted doc)))
  rw [List.map_filterMap]
  refine h.edges.filterMap (fun e he => ?_) fun e he => ?_
  · by_cases hjoins : doc.Joins e
    · obtain ⟨hsource, htarget⟩ := h.first e he hjoins
      obtain ⟨s, hs⟩ := Option.isSome_iff_exists.mp (position?_isSome.mpr hsource)
      obtain ⟨t, ht⟩ := Option.isSome_iff_exists.mp (position?_isSome.mpr htarget)
      rw [hnodes]
      exact Edge.ofDocument?_left hs ht
    · rw [hnone hjoins]
      exact (hnone fun hfirst => hjoins (hsubset (.inl hfirst))).symm
  · by_cases hjoins : doc.Joins e
    · have habsent {id : String} (hid : ∃ n ∈ doc₂.nodes, n.id = id) :
          position? (counted doc₁) id = none := by
        rw [← Option.not_isSome_iff_eq_none]
        intro hsome
        obtain ⟨m, hm, hmid⟩ := position?_isSome.mp hsome
        obtain ⟨n, hn, hnid⟩ := hid
        exact h.disjoint m hm n hn (hmid.trans hnid.symm)
      obtain ⟨hsource, htarget⟩ := h.second e he hjoins
      rw [hnodes]
      exact Edge.ofDocument?_right (habsent hsource) (habsent htarget)
    · rw [hnone hjoins, show Edge.ofDocument? (counted doc₂) e = none from
        hnone fun hsecond => hjoins (hsubset (.inr hsecond))]
      rfl

end FlowScript
