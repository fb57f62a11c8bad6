import FlowScript.Graph.Labels
import Mathlib.Data.List.Nodup
import Mathlib.Logic.Relation

/-!
# Links and edges

The graph of a document tells its nodes apart by their ids, and its edges join nodes of the graph.
The lists of links say about a node exactly what the edges say, each neighbour once, so that the
walks over these lists are walks along edges.
-/

namespace FlowScript

/-- Dropping repetitions leaves none. -/
theorem nodup_eraseDups (vs : List Nat) : vs.eraseDups.Nodup := by
  induction hn : vs.length using Nat.strongRecOn generalizing vs with
  | ind n ih =>
    cases vs with
    | nil => simp
    | cons v rest =>
      rw [List.eraseDups_cons, List.nodup_cons]
      refine ⟨by simp, ih _ ?_ _ rfl⟩
      have hle := List.length_filter_le (fun w => !w == v) rest
      simp only [List.length_cons] at hn
      omega

/-- A list without repetitions counts its members once. -/
theorem count_of_nodup {vs : List Nat} (hvs : vs.Nodup) (v : Nat) :
    (v ∈ vs → vs.count v = 1) ∧ (v ∉ vs → vs.count v = 0) :=
  ⟨fun h => List.count_eq_one_of_mem hvs h, List.count_eq_zero.mpr⟩

/-- The first declarations differ in their ids, also from the ids that were seen before. -/
theorem firstDeclared_ids (seen : List String) (nodes : List Document.Node) :
    ((firstDeclared seen nodes).map (·.id)).Nodup ∧
      ∀ n ∈ firstDeclared seen nodes, n.id ∉ seen := by
  induction nodes generalizing seen with
  | nil => simp [firstDeclared]
  | cons n rest ih =>
    rw [firstDeclared]
    split
    · exact ih seen
    · rename_i hnew
      obtain ⟨hids, hseen⟩ := ih (n.id :: seen)
      simp only [List.contains_eq_mem, decide_eq_true_eq] at hnew
      constructor
      · rw [List.map_cons, List.nodup_cons]
        refine ⟨fun hmem => ?_, hids⟩
        obtain ⟨m, hm, hid⟩ := List.mem_map.mp hmem
        exact hseen m hm (hid ▸ List.mem_cons_self)
      · intro m hm
        rcases List.mem_cons.mp hm with rfl | hm
        · exact hnew
        · exact fun hin => hseen m hm (List.mem_cons_of_mem _ hin)

/-- The first declarations have the ids of all declarations, save those that were seen before. -/
theorem exists_firstDeclared_iff {id : String} {seen : List String} {nodes : List Document.Node} :
    (∃ n ∈ firstDeclared seen nodes, n.id = id) ↔ id ∉ seen ∧ ∃ n ∈ nodes, n.id = id := by
  induction nodes generalizing seen with
  | nil => simp [firstDeclared]
  | cons n rest ih =>
    rw [firstDeclared]
    split
    · rename_i hseen
      simp only [List.contains_eq_mem, decide_eq_true_eq] at hseen
      rw [ih, List.exists_mem_cons_iff]
      refine and_congr_right fun hid => (or_iff_right ?_).symm
      rintro rfl
      exact hid hseen
    · rename_i hnew
      simp only [List.contains_eq_mem, decide_eq_true_eq] at hnew
      rw [List.exists_mem_cons_iff, List.exists_mem_cons_iff, ih]
      by_cases hid : n.id = id
      · subst hid
        simp [hnew]
      · simp [hid, Ne.symm hid]

/-- The position of an id is a position. -/
theorem position?_lt {nodes : List Node} {id : String} {v : Nat}
    (h : position? nodes id = some v) : v < nodes.length := by
  obtain ⟨hlt, -⟩ := List.findIdx?_eq_some_iff_getElem.mp h
  exact hlt

/-- An edge of a document that counts joins two nodes. -/
theorem Edge.ofDocument?_ends {nodes : List Node} {e : Document.Edge} {f : Edge}
    (h : Edge.ofDocument? nodes e = some f) :
    f.source < nodes.length ∧ f.target < nodes.length := by
  simp only [Edge.ofDocument?, Option.bind_eq_bind, Option.bind_eq_some_iff, Option.some.injEq] at h
  obtain ⟨s, hs, t, ht, n, -, rfl⟩ := h
  exact ⟨position?_lt hs, position?_lt ht⟩

namespace FlowGraph

/-- What the graph of a document satisfies: ids tell nodes apart, and edges join nodes. -/
structure WellFormed (g : FlowGraph) : Prop where
  ids : (g.nodes.map (·.id)).Nodup
  sources : ∀ e ∈ g.edges, e.source < g.size
  targets : ∀ e ∈ g.edges, e.target < g.size

/-- The graph of a document is well formed. -/
theorem ofDocument_wellFormed (doc : Document) : (ofDocument doc).WellFormed where
  ids := by
    have h := (firstDeclared_ids [] doc.nodes).1
    simpa only [ofDocument, List.map_map, Function.comp_def, Node.ofDocument] using h
  sources e he := by
    obtain ⟨f, -, hf⟩ := List.mem_filterMap.mp he
    exact (Edge.ofDocument?_ends hf).1
  targets e he := by
    obtain ⟨f, -, hf⟩ := List.mem_filterMap.mp he
    exact (Edge.ofDocument?_ends hf).2

/-- A data edge leads from one node to another. -/
def Feeds (g : FlowGraph) (a b : Nat) : Prop :=
  ∃ e ∈ g.edges, e.kind = .data ∧ e.source = a ∧ e.target = b

/-- An execution edge leads from one node to another. -/
def Leads (g : FlowGraph) (a b : Nat) : Prop :=
  ∃ e ∈ g.edges, e.kind = .execution ∧ e.source = a ∧ e.target = b

/-- An edge of either kind leads from one node to another. -/
def Linked (g : FlowGraph) (a b : Nat) : Prop :=
  g.Feeds a b ∨ g.Leads a b

variable {g : FlowGraph} {a b : Nat}

/-- The dependencies of a node are the sources of the data edges into it. -/
@[simp] theorem mem_dependencies : a ∈ g.dependencies b ↔ g.Feeds a b := by
  simp only [dependencies, dataInto, List.mem_eraseDups, List.mem_map, List.mem_filter,
    decide_eq_true_eq, Feeds]
  constructor
  · rintro ⟨e, ⟨he, hkind, htarget⟩, hsource⟩
    exact ⟨e, he, hkind, hsource, htarget⟩
  · rintro ⟨e, he, hkind, hsource, htarget⟩
    exact ⟨e, ⟨he, hkind, htarget⟩, hsource⟩

/-- The predecessors of a node are the sources of the execution edges into it. -/
@[simp] theorem mem_predecessors : a ∈ g.predecessors b ↔ g.Leads a b := by
  simp only [predecessors, executionInto, List.mem_eraseDups, List.mem_map, List.mem_filter,
    decide_eq_true_eq, Leads]
  constructor
  · rintro ⟨e, ⟨he, hkind, htarget⟩, hsource⟩
    exact ⟨e, he, hkind, hsource, htarget⟩
  · rintro ⟨e, he, hkind, hsource, htarget⟩
    exact ⟨e, ⟨he, hkind, htarget⟩, hsource⟩

/-- The successors of a node are the targets of the execution edges out of it. -/
@[simp] theorem mem_successors : b ∈ g.successors a ↔ g.Leads a b := by
  simp only [successors, executionFrom, List.mem_eraseDups, List.mem_map, List.mem_filter,
    decide_eq_true_eq, Leads]
  constructor
  · rintro ⟨e, ⟨he, hkind, hsource⟩, htarget⟩
    exact ⟨e, he, hkind, hsource, htarget⟩
  · rintro ⟨e, he, hkind, hsource, htarget⟩
    exact ⟨e, ⟨he, hkind, hsource⟩, htarget⟩

/-- The branches of a node under some labels lead along its execution edges with such a label. -/
theorem mem_branchTargets {labels : List String} : b ∈ g.branchTargets a labels ↔
    ∃ e ∈ g.edges, e.kind = .execution ∧ e.source = a ∧ e.target = b ∧
      e.label.any (Text.labelIn labels) = true := by
  simp only [branchTargets, branches, executionFrom, List.mem_eraseDups, List.mem_map,
    List.mem_filter, List.mem_filterMap, decide_eq_true_eq, Option.map_eq_some_iff,
    Option.any_eq_true]
  constructor
  · rintro ⟨_, ⟨⟨e, ⟨he, hkind, hsource⟩, l, hl, rfl⟩, hin⟩, rfl⟩
    exact ⟨e, he, hkind, hsource, rfl, l, hl, hin⟩
  · rintro ⟨e, he, hkind, hsource, rfl, l, hl, hin⟩
    exact ⟨_, ⟨⟨e, ⟨he, hkind, hsource⟩, l, hl, rfl⟩, hin⟩, rfl⟩

/-- Branches lead to successors. -/
theorem branchTargets_subset {labels : List String} :
    g.branchTargets a labels ⊆ g.successors a := by
  intro w hw
  obtain ⟨e, he, hkind, hsource, htarget, -⟩ := mem_branchTargets.mp hw
  exact mem_successors.mpr ⟨e, he, hkind, hsource, htarget⟩

/-- A node lists each of its dependencies once. -/
theorem dependencies_nodup (g : FlowGraph) (v : Nat) : (g.dependencies v).Nodup :=
  nodup_eraseDups _

/-- A node lists each of its predecessors once. -/
theorem predecessors_nodup (g : FlowGraph) (v : Nat) : (g.predecessors v).Nodup :=
  nodup_eraseDups _

/-- Both ends of a data edge are nodes. -/
theorem WellFormed.feeds_lt (hg : g.WellFormed) (h : g.Feeds a b) : a < g.size ∧ b < g.size := by
  obtain ⟨e, he, -, rfl, rfl⟩ := h
  exact ⟨hg.sources e he, hg.targets e he⟩

/-- Both ends of an execution edge are nodes. -/
theorem WellFormed.leads_lt (hg : g.WellFormed) (h : g.Leads a b) : a < g.size ∧ b < g.size := by
  obtain ⟨e, he, -, rfl, rfl⟩ := h
  exact ⟨hg.sources e he, hg.targets e he⟩

/-- Both ends of an edge are nodes. -/
theorem WellFormed.linked_lt (hg : g.WellFormed) (h : g.Linked a b) : a < g.size ∧ b < g.size :=
  h.elim hg.feeds_lt hg.leads_lt

/-- The positions are the numbers below the size. -/
@[simp] theorem mem_positions : a ∈ g.positions ↔ a < g.size :=
  List.mem_range

/-- An entry point is a node. -/
theorem entryPoints_lt (ha : a ∈ g.entryPoints) : a < g.size := by
  rw [entryPoints] at ha
  split at ha <;> exact mem_positions.mp (List.mem_filter.mp ha).1

/-- Every position holds a node. -/
theorem exists_node (ha : a < g.size) : ∃ n, g.node? a = some n :=
  ⟨g.nodes[a], List.getElem?_eq_getElem ha⟩

/-- A node that takes part in the flow of execution is not outside of it. -/
theorem isDataOnly_of_ports (h : g.hasExecutionPorts a = true) : g.isDataOnly a = false := by
  rw [hasExecutionPorts] at h
  rw [isDataOnly]
  cases hn : g.node? a with
  | none => rfl
  | some n => simpa [hn] using h

/-- Different positions have different ids. -/
theorem WellFormed.idAt_inj (hg : g.WellFormed) (ha : a < g.size) (hb : b < g.size)
    (h : g.idAt a = g.idAt b) : a = b := by
  have hid {v : Nat} (hv : v < g.size) : (g.nodes.map (·.id))[v]? = some (g.idAt v) := by
    obtain ⟨n, hn⟩ := exists_node hv
    rw [idAt, hn, List.getElem?_map]
    exact congrArg (Option.map _) hn
  have hlt : a < (g.nodes.map (·.id)).length := by
    rw [List.length_map]
    exact ha
  exact (List.getElem?_inj hlt hg.ids).mp (by rw [hid ha, hid hb, h])

end FlowGraph

end FlowScript
