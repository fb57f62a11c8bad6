import FlowScript.Proofs.Reading
import FlowScript.Proofs.Tables
import Mathlib.Data.List.Induction

/-!
# Rows of links and the edges they come from

The rows of links are filled edge by edge: a neighbour is added if it is new, a port is bound in place
of its earlier binding, and a branch is added in any case. What the rows hold in the end can be said of
the edges as a whole. Neighbours and ports stand in the order in which the edges first name them, and a
port is bound by the last edge into it.
-/

namespace FlowScript

section Mentions

variable {α : Type} [DecidableEq α] {xs l : List α} {x : α}

/-- A list names what another mentions, each once, in the order of the first mentions. -/
structure FirstMentions (xs l : List α) : Prop where
  nodup : l.Nodup
  mem_iff : ∀ a, a ∈ l ↔ a ∈ xs
  order : ∀ a ∈ xs, ∀ b ∈ xs, (l.idxOf a < l.idxOf b ↔ xs.idxOf a < xs.idxOf b)

theorem firstMentions_nil : FirstMentions ([] : List α) [] :=
  ⟨List.nodup_nil, fun _ => Iff.rfl, by simp⟩

/-- Mentioning something again changes nothing. -/
theorem FirstMentions.again (h : FirstMentions xs l) (hx : x ∈ xs) : FirstMentions (xs ++ [x]) l where
  nodup := h.nodup
  mem_iff a := by
    rw [h.mem_iff, List.mem_append, List.mem_singleton]
    exact ⟨.inl, fun ha => ha.elim id (· ▸ hx)⟩
  order a ha b hb := by
    have hold {c : α} (hc : c ∈ xs ++ [x]) : c ∈ xs := by
      rcases List.mem_append.mp hc with hc | hc
      · exact hc
      · exact List.mem_singleton.mp hc ▸ hx
    rw [List.idxOf_append_of_mem (hold ha), List.idxOf_append_of_mem (hold hb),
      h.order a (hold ha) b (hold hb)]

/-- What is mentioned for the first time goes to the end. -/
theorem FirstMentions.new (h : FirstMentions xs l) (hx : x ∉ xs) :
    FirstMentions (xs ++ [x]) (l ++ [x]) where
  nodup := by
    rw [← List.concat_eq_append]
    exact h.nodup.concat fun hin => hx ((h.mem_iff x).mp hin)
  mem_iff a := by rw [List.mem_append, List.mem_append, h.mem_iff]
  order a ha b hb := by
    have hxl : x ∉ l := fun hin => hx ((h.mem_iff x).mp hin)
    have hlast : (l ++ [x]).idxOf x = l.length ∧ (xs ++ [x]).idxOf x = xs.length := by
      rw [List.idxOf_append_of_notMem hxl, List.idxOf_append_of_notMem hx]
      simp
    have hold {c : α} (hc : c ∈ xs) : (l ++ [x]).idxOf c = l.idxOf c ∧
        (xs ++ [x]).idxOf c = xs.idxOf c ∧ l.idxOf c < l.length ∧ xs.idxOf c < xs.length := by
      have hcl : c ∈ l := (h.mem_iff c).mpr hc
      exact ⟨List.idxOf_append_of_mem hcl, List.idxOf_append_of_mem hc,
        List.idxOf_lt_length_of_mem hcl, List.idxOf_lt_length_of_mem hc⟩
    rcases List.mem_append.mp ha with hain | hax <;> rcases List.mem_append.mp hb with hbin | hbx
    · rw [(hold hain).1, (hold hbin).1, (hold hain).2.1, (hold hbin).2.1, h.order a hain b hbin]
    · obtain rfl := List.mem_singleton.mp hbx
      obtain ⟨hal, haxs, hlt, hlt'⟩ := hold hain
      rw [hal, haxs, hlast.1, hlast.2]
      exact iff_of_true hlt hlt'
    · obtain rfl := List.mem_singleton.mp hax
      obtain ⟨hbl, hbxs, hlt, hlt'⟩ := hold hbin
      rw [hbl, hbxs, hlast.1, hlast.2]
      exact iff_of_false (Nat.lt_asymm hlt) (Nat.lt_asymm hlt')
    · rw [List.mem_singleton.mp hax, List.mem_singleton.mp hbx]
      exact iff_of_false (Nat.lt_irrefl _) (Nat.lt_irrefl _)

end Mentions

/-- Dropping repetitions leaves the first mentions. -/
theorem firstMentions_eraseDups (xs : List Nat) : FirstMentions xs xs.eraseDups := by
  induction xs using List.reverseRecOn with
  | nil => exact firstMentions_nil
  | append_singleton xs x ih =>
    rw [eraseDups_concat, addNew]
    split
    · rename_i hin
      exact ih.again ((ih.mem_iff x).mp (by simpa using hin))
    · rename_i hnew
      exact ih.new fun hx => hnew (by simpa using (ih.mem_iff x).mpr hx)

/-- Binding a port keeps the ports, or adds the port at the end. -/
theorem ports_bindPort (b : Binding) (bs : List Binding) :
    (bindPort b bs).map (·.targetPort) =
      if b.targetPort ∈ bs.map (·.targetPort) then bs.map (·.targetPort)
      else bs.map (·.targetPort) ++ [b.targetPort] := by
  induction bs with
  | nil => rfl
  | cons c rest ih =>
    rw [bindPort]
    by_cases hsame : c.targetPort = b.targetPort
    · simp [hsame]
    · rw [if_neg hsame, List.map_cons, ih, List.map_cons]
      by_cases hin : b.targetPort ∈ rest.map (·.targetPort)
      · rw [if_pos hin, if_pos (List.mem_cons_of_mem _ hin)]
      · rw [if_neg hin, if_neg (by simpa [Ne.symm hsame] using hin), List.cons_append]

namespace FlowGraph

variable {g : FlowGraph} {t : Nat}

/-- The bound ports of a node are the ports that data edges lead into. -/
theorem firstMentions_ports (g : FlowGraph) (t : Nat) :
    FirstMentions ((g.dataInto t).map (·.targetPort)) ((g.bindings t).map (·.targetPort)) := by
  rw [bindings]
  generalize g.dataInto t = es
  induction es using List.reverseRecOn with
  | nil => exact firstMentions_nil
  | append_singleton es e ih =>
    rw [List.foldl_append, List.foldl_cons, List.foldl_nil, ports_bindPort, List.map_append]
    split
    · rename_i hin
      exact ih.again ((ih.mem_iff _).mp hin)
    · rename_i hnew
      exact ih.new fun hin => hnew ((ih.mem_iff _).mpr hin)

/-- Of the data edges into a port one is the last. -/
theorem exists_lastInto {e : Edge} (he : e ∈ g.edges) (hkind : e.kind = .data) :
    ∃ f, g.LastInto f ∧ f.target = e.target ∧ f.targetPort = e.targetPort := by
  have hlast (es : List Edge) (hes : e ∈ es) : ∃ f before after, es = before ++ f :: after ∧
      (f.kind = .data ∧ f.target = e.target ∧ f.targetPort = e.targetPort) ∧
      ∀ x ∈ after, x.kind = .data → x.target = e.target → x.targetPort ≠ e.targetPort := by
    induction es using List.reverseRecOn with
    | nil => cases hes
    | append_singleton es x ih =>
      by_cases hx : x.kind = .data ∧ x.target = e.target ∧ x.targetPort = e.targetPort
      · exact ⟨x, es, [], rfl, hx, by simp⟩
      · have hold : e ∈ es := by
          rcases List.mem_append.mp hes with hes | hes
          · exact hes
          · obtain rfl := List.mem_singleton.mp hes
            exact absurd ⟨hkind, rfl, rfl⟩ hx
        obtain ⟨f, before, after, rfl, hf, hafter⟩ := ih hold
        refine ⟨f, before, after ++ [x], by simp, hf, fun y hy => ?_⟩
        rcases List.mem_append.mp hy with hy | hy
        · exact hafter y hy
        · obtain rfl := List.mem_singleton.mp hy
          exact fun hk ht hp => hx ⟨hk, ht, hp⟩
  obtain ⟨f, before, after, hedges, ⟨hfkind, htarget, hport⟩, hafter⟩ := hlast g.edges he
  exact ⟨f, ⟨hfkind, before, after, hedges, fun x hx => by rw [htarget, hport]; exact hafter x hx⟩,
    htarget, hport⟩

/-- A port is bound by the last data edge into it. -/
theorem mem_bindings {b : Binding} :
    b ∈ g.bindings t ↔ ∃ e, g.LastInto e ∧ e.target = t ∧ e.binding = b := by
  have hbound {e : Edge} (he : g.LastInto e) : e.binding ∈ g.bindings e.target :=
    List.mem_of_find?_eq_some he.binding?_eq
  constructor
  · intro hb
    have hports := firstMentions_ports g t
    obtain ⟨e, he, hport⟩ := List.mem_map.mp ((hports.mem_iff _).mp (List.mem_map_of_mem hb))
    obtain ⟨hmem, hdata⟩ := List.mem_filter.mp he
    obtain ⟨hkind, rfl⟩ := of_decide_eq_true hdata
    obtain ⟨f, hf, htarget, hfport⟩ := exists_lastInto hmem hkind
    -- no two bindings are of one port
    exact ⟨f, hf, htarget, List.inj_on_of_nodup_map hports.nodup (htarget ▸ hbound hf) hb
      (hfport.trans hport)⟩
  · rintro ⟨e, he, rfl, rfl⟩
    exact hbound he

/-- The branches of a node are its labelled execution edges, in order. -/
theorem branches_eq (g : FlowGraph) (s : Nat) : g.branches s = g.edges.filterMap fun e =>
    if e.kind = .execution ∧ e.source = s then e.label.map fun l => (l, e.target) else none := by
  rw [branches, executionFrom, List.filterMap_filter]
  simp only [decide_eq_true_eq]

end FlowGraph

/-- The row of a node, empty if there is none. -/
def row {α : Type} (rows : List (List α)) (v : Nat) : List α :=
  rows[v]?.getD []

/-- Rows of links that say of every node what the edges of a graph say. -/
structure Adjacency.Describes (a : Adjacency) (g : FlowGraph) : Prop where
  mem_successors : ∀ s t, t ∈ row a.successors s ↔ g.Leads s t
  mem_predecessors : ∀ s t, s ∈ row a.predecessors t ↔ g.Leads s t
  mem_dependencies : ∀ d t, d ∈ row a.dependencies t ↔ g.Feeds d t
  successors : ∀ s, FirstMentions ((g.executionFrom s).map (·.target)) (row a.successors s)
  predecessors : ∀ t, FirstMentions ((g.executionInto t).map (·.source)) (row a.predecessors t)
  dependencies : ∀ t, FirstMentions ((g.dataInto t).map (·.source)) (row a.dependencies t)
  ports : ∀ t, FirstMentions ((g.dataInto t).map (·.targetPort))
    ((row a.bindings t).map (·.targetPort))
  mem_bindings : ∀ t b, b ∈ row a.bindings t ↔ ∃ e, g.LastInto e ∧ e.target = t ∧ e.binding = b
  sources : ∀ t, ∀ b ∈ row a.bindings t, b.source ∈ row a.dependencies t
  branches : ∀ s, row a.branches s = g.edges.filterMap fun e =>
    if e.kind = .execution ∧ e.source = s then e.label.map fun l => (l, e.target) else none

/-- Rows that hold the links of a graph. -/
structure Adjacency.Holds (a : Adjacency) (g : FlowGraph) : Prop where
  successors : ∀ v, row a.successors v = g.successors v
  predecessors : ∀ v, row a.predecessors v = g.predecessors v
  dependencies : ∀ v, row a.dependencies v = g.dependencies v
  bindings : ∀ v, row a.bindings v = g.bindings v
  branches : ∀ v, row a.branches v = g.branches v

/-- The links of a graph say what its edges say. -/
theorem Adjacency.Holds.describes {a : Adjacency} {g : FlowGraph} (h : a.Holds g) : a.Describes g where
  mem_successors s t := by rw [h.successors, FlowGraph.mem_successors]
  mem_predecessors s t := by rw [h.predecessors, FlowGraph.mem_predecessors]
  mem_dependencies d t := by rw [h.dependencies, FlowGraph.mem_dependencies]
  successors s := by
    rw [h.successors]
    exact firstMentions_eraseDups _
  predecessors t := by
    rw [h.predecessors]
    exact firstMentions_eraseDups _
  dependencies t := by
    rw [h.dependencies]
    exact firstMentions_eraseDups _
  ports t := by
    rw [h.bindings]
    exact FlowGraph.firstMentions_ports g t
  mem_bindings t b := by rw [h.bindings, FlowGraph.mem_bindings]
  sources t b hb := by
    rw [h.bindings, FlowGraph.mem_bindings] at hb
    obtain ⟨e, he, rfl, rfl⟩ := hb
    rw [h.dependencies, FlowGraph.mem_dependencies]
    exact ⟨e, he.mem_edges, he.1, rfl, rfl⟩
  branches s := by rw [h.branches, FlowGraph.branches_eq]

/-- A table has the rows of what is said of nodes only. -/
theorem row_tabulate {α : Type} {size : Nat} {f : Nat → List α} (hf : ∀ v, size ≤ v → f v = [])
    (v : Nat) : row (tabulate size f) v = f v := by
  by_cases hv : v < size
  · rw [row, tabulate_getElem? hv, Option.getD_some]
  · rw [row, List.getElem?_eq_none (by simpa [tabulate] using hv), Option.getD_none, hf v (by omega)]

namespace FlowGraph

/-- There are no links beside those of nodes. -/
theorem WellFormed.adjacency_holds {g : FlowGraph} (hg : g.WellFormed) : g.adjacency.Holds g := by
  have hnone (kind : EdgeKind) {side : Edge → Nat} (hside : ∀ e ∈ g.edges, side e < g.size) (v : Nat)
      (hv : g.size ≤ v) : g.edges.filter (fun e => e.kind = kind ∧ side e = v) = [] := by
    refine List.filter_eq_nil_iff.mpr fun e he hin => ?_
    have hlt := hside e he
    have hside := (of_decide_eq_true hin).2
    omega
  have hdata : ∀ v, g.size ≤ v → g.dataInto v = [] := hnone .data hg.targets
  have hinto : ∀ v, g.size ≤ v → g.executionInto v = [] := hnone .execution hg.targets
  have hfrom : ∀ v, g.size ≤ v → g.executionFrom v = [] := hnone .execution hg.sources
  constructor <;> refine row_tabulate fun v hv => ?_
  · rw [successors, hfrom v hv, List.map_nil, List.eraseDups_nil]
  · rw [predecessors, hinto v hv, List.map_nil, List.eraseDups_nil]
  · rw [dependencies, hdata v hv, List.map_nil, List.eraseDups_nil]
  · rw [bindings, hdata v hv, List.foldl_nil]
  · rw [branches, hfrom v hv, List.filterMap_nil]

/-- The rows that the edges of a graph fill one after the other say of every node what the edges say,
and they are the links that the graph has. -/
theorem rows_describe_edges (doc : Document) :
    ∃ a, (ofDocument doc).adjacency? = some a ∧ a.Describes (ofDocument doc) ∧
      a.Holds (ofDocument doc) := by
  have hg := ofDocument_wellFormed doc
  have hholds := hg.adjacency_holds
  exact ⟨_, hg.adjacency?_eq, hholds.describes, hholds⟩

end FlowGraph

end FlowScript
