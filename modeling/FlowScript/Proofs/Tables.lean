import FlowScript.Proofs.Parts

/-!
# Resolving a graph with tables

What is known about the nodes of a graph can be kept in tables with one entry for each node: the links
of every node, how far the schedule has come with it, and the group that it is assigned to. Every
access here is checked, and one outside its table makes the whole resolution fail. No access is: the
ends of edges are nodes, the walks follow links of nodes only, and their budgets suffice. What the
tables hold in the end is what the functions on graphs give.
-/

namespace FlowScript

section Entries

variable {α : Type} {size : Nat}

/-- A table with one entry for each node. -/
def tabulate (size : Nat) (f : Nat → α) : List α :=
  (List.range size).map f

/-- Change the entry of a node; there being none is a failure. -/
def change? (table : List α) (v : Nat) (f : α → α) : Option (List α) :=
  if v < table.length then some (table.modify v f) else none

/-- The entry of a node. -/
theorem tabulate_getElem? {v : Nat} (hv : v < size) (f : Nat → α) :
    (tabulate size f)[v]? = some (f v) := by
  simp [tabulate, hv]

/-- The entry of a node is changed, and no other entry. -/
theorem change?_tabulate {v : Nat} (hv : v < size) {f f' : Nat → α} {h : α → α}
    (hself : f' v = h (f v)) (hother : ∀ u, u ≠ v → f' u = f u) :
    change? (tabulate size f) v h = some (tabulate size f') := by
  have hlength : v < (tabulate size f).length := by simpa [tabulate] using hv
  rw [change?, if_pos hlength]
  refine congrArg some (List.ext_getElem (by simp [tabulate]) fun u hu _ => ?_)
  rw [List.getElem_modify]
  split
  · rename_i heq
    subst heq
    simp [tabulate, hself]
  · rename_i hne
    simp [tabulate, hother u (Ne.symm hne)]

end Entries

/-- Add a node to a list that names each node once. -/
def addNew (v : Nat) (vs : List Nat) : List Nat :=
  if vs.contains v then vs else vs ++ [v]

/-- A list that names each node once, with one more node. -/
theorem eraseDups_concat (vs : List Nat) (v : Nat) :
    (vs ++ [v]).eraseDups = addNew v vs.eraseDups := by
  rw [List.eraseDups_append, addNew]
  by_cases hv : v ∈ vs
  · have hin : vs.eraseDups.contains v = true := by simpa using hv
    rw [if_pos hin, List.removeAll]
    simp [hv]
  · have hnew : ¬ vs.eraseDups.contains v = true := by simpa using hv
    rw [if_neg hnew, List.removeAll]
    simp [hv, List.eraseDups_cons]

/-- The links of all nodes, one row for each node. -/
structure Adjacency where
  dependencies : List (List Nat)
  bindings : List (List Binding)
  successors : List (List Nat)
  predecessors : List (List Nat)
  branches : List (List (String × Nat))

namespace Adjacency

/-- No links yet. -/
def empty (size : Nat) : Adjacency :=
  ⟨tabulate size fun _ => [], tabulate size fun _ => [], tabulate size fun _ => [],
    tabulate size fun _ => [], tabulate size fun _ => []⟩

/-- Add an edge to the branches of its source, if it has a label. -/
def addBranch? (rows : List (List (String × Nat))) (e : Edge) : Option (List (List (String × Nat))) :=
  match e.label with
  | none => some rows
  | some label => change? rows e.source (· ++ [(label, e.target)])

/-- Add an edge to the rows of its ends. -/
def add? (a : Adjacency) (e : Edge) : Option Adjacency :=
  match e.kind with
  | .data => do
    let dependencies ← change? a.dependencies e.target (addNew e.source)
    let bindings ← change? a.bindings e.target (bindPort e.binding)
    some { a with dependencies := dependencies, bindings := bindings }
  | .execution => do
    let successors ← change? a.successors e.source (addNew e.target)
    let predecessors ← change? a.predecessors e.target (addNew e.source)
    let branches ← addBranch? a.branches e
    some { a with successors := successors, predecessors := predecessors, branches := branches }

end Adjacency

namespace FlowGraph

variable {g : FlowGraph}

/-- The rows of a graph. -/
def adjacency (g : FlowGraph) : Adjacency :=
  ⟨tabulate g.size g.dependencies, tabulate g.size g.bindings, tabulate g.size g.successors,
    tabulate g.size g.predecessors, tabulate g.size g.branches⟩

/-- Add all edges to the rows of their ends, one after the other. -/
def adjacency? (g : FlowGraph) : Option Adjacency :=
  g.edges.foldlM Adjacency.add? (.empty g.size)

section Edges

variable {nodes : List Node} {edges : List Edge} {e : Edge}

/-- One more edge of data is one more dependency and one more binding of its target. -/
theorem adjacency_data (hkind : e.kind = .data) (htarget : e.target < nodes.length) :
    (adjacency ⟨nodes, edges⟩).add? e = some (adjacency ⟨nodes, edges ++ [e]⟩) := by
  have hinto (t : Nat) : dataInto ⟨nodes, edges ++ [e]⟩ t =
      dataInto ⟨nodes, edges⟩ t ++ if e.target = t then [e] else [] := by
    rw [dataInto, List.filter_append, dataInto]
    split <;> simp [*]
  have hexecution : executionInto ⟨nodes, edges ++ [e]⟩ = executionInto ⟨nodes, edges⟩ ∧
      executionFrom ⟨nodes, edges ++ [e]⟩ = executionFrom ⟨nodes, edges⟩ := by
    constructor <;> funext t <;> simp [executionInto, executionFrom, hkind]
  have hdependencies : change? (adjacency ⟨nodes, edges⟩).dependencies e.target (addNew e.source) =
      some (adjacency ⟨nodes, edges ++ [e]⟩).dependencies := by
    refine change?_tabulate htarget ?_ fun t ht => ?_
    · rw [dependencies, hinto, if_pos rfl, List.map_append, List.map_singleton, eraseDups_concat,
        dependencies]
    · rw [dependencies, hinto, if_neg (Ne.symm ht), List.append_nil, dependencies]
  have hbindings : change? (adjacency ⟨nodes, edges⟩).bindings e.target (bindPort e.binding) =
      some (adjacency ⟨nodes, edges ++ [e]⟩).bindings := by
    refine change?_tabulate htarget ?_ fun t ht => ?_
    · rw [bindings, hinto, if_pos rfl, List.foldl_append, bindings]
      rfl
    · rw [bindings, hinto, if_neg (Ne.symm ht), List.append_nil, bindings]
  have hothers : (adjacency ⟨nodes, edges ++ [e]⟩).successors = (adjacency ⟨nodes, edges⟩).successors ∧
      (adjacency ⟨nodes, edges ++ [e]⟩).predecessors = (adjacency ⟨nodes, edges⟩).predecessors ∧
      (adjacency ⟨nodes, edges ++ [e]⟩).branches = (adjacency ⟨nodes, edges⟩).branches := by
    refine ⟨?_, ?_, ?_⟩ <;> refine List.map_congr_left fun t _ => ?_
    · rw [successors, hexecution.2, successors]
    · rw [predecessors, hexecution.1, predecessors]
    · rw [branches, hexecution.2, branches]
  simp only [Adjacency.add?, hkind, hdependencies, hbindings, Option.bind_eq_bind, Option.bind_some,
    ← hothers.1, ← hothers.2.1, ← hothers.2.2]

/-- One more edge of execution is one more successor of its source and one more predecessor of its
target, and a branch if it has a label. -/
theorem adjacency_execution (hkind : e.kind = .execution) (hsource : e.source < nodes.length)
    (htarget : e.target < nodes.length) :
    (adjacency ⟨nodes, edges⟩).add? e = some (adjacency ⟨nodes, edges ++ [e]⟩) := by
  have hinto (t : Nat) : executionInto ⟨nodes, edges ++ [e]⟩ t =
      executionInto ⟨nodes, edges⟩ t ++ if e.target = t then [e] else [] := by
    rw [executionInto, List.filter_append, executionInto]
    split <;> simp [*]
  have hfrom (t : Nat) : executionFrom ⟨nodes, edges ++ [e]⟩ t =
      executionFrom ⟨nodes, edges⟩ t ++ if e.source = t then [e] else [] := by
    rw [executionFrom, List.filter_append, executionFrom]
    split <;> simp [*]
  have hdata : dataInto ⟨nodes, edges ++ [e]⟩ = dataInto ⟨nodes, edges⟩ := by
    funext t
    simp [dataInto, hkind]
  have hsuccessors : change? (adjacency ⟨nodes, edges⟩).successors e.source (addNew e.target) =
      some (adjacency ⟨nodes, edges ++ [e]⟩).successors := by
    refine change?_tabulate hsource ?_ fun t ht => ?_
    · rw [successors, hfrom, if_pos rfl, List.map_append, List.map_singleton, eraseDups_concat,
        successors]
    · rw [successors, hfrom, if_neg (Ne.symm ht), List.append_nil, successors]
  have hpredecessors : change? (adjacency ⟨nodes, edges⟩).predecessors e.target (addNew e.source) =
      some (adjacency ⟨nodes, edges ++ [e]⟩).predecessors := by
    refine change?_tabulate htarget ?_ fun t ht => ?_
    · rw [predecessors, hinto, if_pos rfl, List.map_append, List.map_singleton, eraseDups_concat,
        predecessors]
    · rw [predecessors, hinto, if_neg (Ne.symm ht), List.append_nil, predecessors]
  have hothers : (adjacency ⟨nodes, edges ++ [e]⟩).dependencies =
        (adjacency ⟨nodes, edges⟩).dependencies ∧
      (adjacency ⟨nodes, edges ++ [e]⟩).bindings = (adjacency ⟨nodes, edges⟩).bindings := by
    constructor <;> refine List.map_congr_left fun t _ => ?_
    · rw [dependencies, hdata, dependencies]
    · rw [bindings, hdata, bindings]
  have hbranches : Adjacency.addBranch? (adjacency ⟨nodes, edges⟩).branches e =
      some (adjacency ⟨nodes, edges ++ [e]⟩).branches := by
    rw [Adjacency.addBranch?]
    cases hlabel : e.label with
    | none =>
      refine congrArg some (List.map_congr_left fun t _ => ?_)
      rw [branches, branches, hfrom, List.filterMap_append]
      split <;> simp [hlabel]
    | some label =>
      refine change?_tabulate hsource ?_ fun t ht => ?_
      · rw [branches, hfrom, if_pos rfl, List.filterMap_append, branches]
        simp [hlabel]
      · rw [branches, hfrom, if_neg (Ne.symm ht), List.append_nil, branches]
  simp only [Adjacency.add?, hkind, hsuccessors, hpredecessors, hbranches, Option.bind_eq_bind,
    Option.bind_some, ← hothers.1, ← hothers.2]

end Edges

/-- The edges of a graph are added to rows that are there. -/
theorem WellFormed.adjacency?_eq (hg : g.WellFormed) : g.adjacency? = some g.adjacency := by
  have hfold (done rest : List Edge) (hrest : ∀ e ∈ rest, e.source < g.size ∧ e.target < g.size) :
      rest.foldlM Adjacency.add? (adjacency ⟨g.nodes, done⟩) =
        some (adjacency ⟨g.nodes, done ++ rest⟩) := by
    induction rest generalizing done with
    | nil => rw [List.append_nil]; rfl
    | cons e rest ih =>
      have hends := hrest e List.mem_cons_self
      have hstep : (adjacency ⟨g.nodes, done⟩).add? e = some (adjacency ⟨g.nodes, done ++ [e]⟩) := by
        cases hkind : e.kind with
        | data => exact adjacency_data hkind hends.2
        | execution => exact adjacency_execution hkind hends.1 hends.2
      rw [List.foldlM_cons, hstep, Option.bind_eq_bind, Option.bind_some,
        ih (done ++ [e]) fun e he => hrest e (List.mem_cons_of_mem _ he), List.append_assoc]
      rfl
  exact hfold [] g.edges fun e he => ⟨hg.sources e he, hg.targets e he⟩

/-- What a node needs are nodes. -/
theorem WellFormed.needs_lt (hg : g.WellFormed) : ∀ v < g.size, ∀ d ∈ g.needs v, d < g.size :=
  fun _ _ _ hd => (hg.linked_lt (mem_needs.mp hd)).1

end FlowGraph

/-- How far a schedule has come with a node. -/
inductive Mark where
  | fresh
  | inProgress
  | done
deriving DecidableEq

/-- A schedule in progress, with a mark for every node. -/
structure Marking where
  marks : List Mark
  schedule : Schedule

namespace Marking

/-- Mark a node. -/
def mark? (m : Marking) (v : Nat) (mark : Mark) : Option Marking :=
  (change? m.marks v fun _ => mark).map fun marks => { m with marks := marks }

/-- Look at a need of a node. One that is done is left, one in progress closes a cycle, and one that is
fresh is worked off. -/
def meet? (work : Nat → Marking → Option Marking) (v : Nat) (m : Marking) (d : Nat) : Option Marking :=
  match m.marks[d]? with
  | none => none
  | some .done => some m
  | some .inProgress => some { m with schedule := m.schedule.closeCycle d v }
  | some .fresh => work d m

/-- Work off a node after everything it needs. A budget that does not suffice is a failure. -/
def visit? (a : Adjacency) : Nat → Nat → Marking → Option Marking
  | 0, _, _ => none
  | budget + 1, v, m =>
    match m.marks[v]? with
    | none => none
    | some .fresh => do
      let m ← m.mark? v .inProgress
      let dependencies ← a.dependencies[v]?
      let predecessors ← a.predecessors[v]?
      let m ← (dependencies ++ predecessors).foldlM (meet? (visit? a budget) v) m
      let m ← m.mark? v .done
      some { m with schedule := m.schedule.finish v }
    | some _ => some m

/-- The mark of a node, given the nodes in progress and the schedule. -/
def markOf (path : List Nat) (s : Schedule) (v : Nat) : Mark :=
  if v ∈ s.order then .done else if v ∈ path then .inProgress else .fresh

/-- The marks of all nodes. -/
def of (size : Nat) (path : List Nat) (s : Schedule) : Marking :=
  ⟨tabulate size (markOf path s), s⟩

variable {g : FlowGraph} {size v : Nat} {path : List Nat} {s : Schedule}

/-- A node that is worked on is marked as in progress. -/
theorem mark?_inProgress (hv : v < size) (hnew : v ∉ s.order) :
    (of size path s).mark? v .inProgress = some (of size (v :: path) s) := by
  have hchange : change? (of size path s).marks v (fun _ => .inProgress) =
      some (tabulate size (markOf (v :: path) s)) := by
    refine change?_tabulate hv ?_ fun u hu => ?_
    · simp [markOf, hnew]
    · simp [markOf, hu]
  rw [mark?, hchange]
  rfl

/-- A node that has been worked on is marked as done. -/
theorem mark?_done (hv : v < size) :
    (((of size (v :: path) s).mark? v .done).bind fun m =>
      some { m with schedule := m.schedule.finish v }) = some (of size path (s.finish v)) := by
  have hchange : change? (of size (v :: path) s).marks v (fun _ => .done) =
      some (tabulate size (markOf path (s.finish v))) := by
    refine change?_tabulate hv ?_ fun u hu => ?_
    · simp [markOf, Schedule.finish]
    · simp [markOf, Schedule.finish, hu]
  rw [mark?, hchange]
  rfl

open Relation (ReflTransGen)

/-- The loop over needs of a node looks at marks that are there, and does what the loop without marks
does, if that is so for every fresh need. -/
theorem foldlM_meet? {needs : Nat → List Nat} {work : Nat → Marking → Option Marking}
    {f : Nat → Schedule → Schedule} (hback : ∀ u ∈ v :: path, ReflTransGen (fun a b => a ∈ needs b) v u)
    (rest : List Nat) (hlt : ∀ d ∈ rest, d < size) (hrest : rest ⊆ needs v)
    (hwork : ∀ d ∈ rest, ∀ s, Schedule.Sound size needs (v :: path) s → d ∉ v :: path →
      work d (of size (v :: path) s) = some (of size (v :: path) (f d s)) ∧
        Schedule.Sound size needs (v :: path) (f d s))
    (hsound : Schedule.Sound size needs (v :: path) s) :
    rest.foldlM (meet? work v) (of size (v :: path) s) =
      some (of size (v :: path) (rest.foldl (fun s d => if s.order.contains d then s
        else if (v :: path).contains d then s.closeCycle d v else f d s) s)) := by
  induction rest generalizing s with
  | nil => rfl
  | cons d rest ih =>
    have hmark : (of size (v :: path) s).marks[d]? = some (markOf (v :: path) s d) :=
      tabulate_getElem? (hlt d List.mem_cons_self) _
    simp only [List.contains_eq_mem, decide_eq_true_eq] at ih
    have hnext (t : Schedule) := @ih t (fun u hu => hlt u (List.mem_cons_of_mem _ hu))
      (fun u hu => hrest (List.mem_cons_of_mem _ hu)) fun u hu => hwork u (List.mem_cons_of_mem _ hu)
    rw [List.foldlM_cons, List.foldl_cons, meet?, hmark]
    simp only [markOf, List.contains_eq_mem, decide_eq_true_eq]
    by_cases hdone : d ∈ s.order
    · rw [if_pos hdone, if_pos hdone]
      exact hnext s hsound
    · rw [if_neg hdone, if_neg hdone]
      by_cases hpath : d ∈ v :: path
      · rw [if_pos hpath, if_pos hpath]
        exact hnext _ (hsound.closeCycle List.mem_cons_self (hrest List.mem_cons_self) (hback d hpath))
      · obtain ⟨hvisit, hafter⟩ := hwork d List.mem_cons_self s hsound hpath
        rw [if_neg hpath, if_neg hpath]
        dsimp only
        rw [hvisit]
        exact hnext _ hafter

/-- A node is worked off with marks as without them. -/
theorem visit?_eq (hg : g.WellFormed) (budget : Nat) (hbudget : g.size ≤ budget + path.length)
    (hpath : path.Nodup) (hwithin : ∀ u ∈ path, u < g.size) (hlt : v < g.size) (hv : v ∉ path)
    (hback : ∀ u ∈ path, ReflTransGen (fun a b => a ∈ g.needs b) v u)
    (hsound : Schedule.Sound g.size g.needs path s) :
    visit? g.adjacency budget v (of g.size path s) =
      some (of g.size path (Schedule.visit g.needs budget path v s)) := by
  have hneeds := hg.needs_lt
  induction budget generalizing path v s with
  | zero =>
    -- the node and those in progress would be more nodes than there are
    have hwithin' : ∀ u ∈ v :: path, u < g.size := List.forall_mem_cons.mpr ⟨hlt, hwithin⟩
    have hsub : v :: path ⊆ List.range g.size := fun u hu => List.mem_range.mpr (hwithin' u hu)
    have hlength := (List.nodup_cons.mpr ⟨hv, hpath⟩).length_le_of_subset hsub
    simp only [List.length_cons, List.length_range] at hlength
    omega
  | succ budget ih =>
    have hmark : (of g.size path s).marks[v]? = some (markOf path s v) := tabulate_getElem? hlt _
    rw [visit?, hmark, Schedule.visit]
    by_cases hdone : v ∈ s.order
    · simp [markOf, hdone]
    · have hback' : ∀ u ∈ v :: path, ReflTransGen (fun a b => a ∈ g.needs b) v u :=
        List.forall_mem_cons.mpr ⟨.refl, hback⟩
      have hwithin' : ∀ u ∈ v :: path, u < g.size := List.forall_mem_cons.mpr ⟨hlt, hwithin⟩
      have hnodup' : (v :: path).Nodup := List.nodup_cons.mpr ⟨hv, hpath⟩
      have hbudget' : g.size ≤ budget + (v :: path).length := by
        rw [List.length_cons]
        omega
      have hwork : ∀ d ∈ g.needs v, ∀ s, Schedule.Sound g.size g.needs (v :: path) s →
          d ∉ v :: path →
          visit? g.adjacency budget d (of g.size (v :: path) s) =
            some (of g.size (v :: path) (Schedule.visit g.needs budget (v :: path) d s)) ∧
          Schedule.Sound g.size g.needs (v :: path)
            (Schedule.visit g.needs budget (v :: path) d s) := by
        intro d hd s hs hfree
        have hd' := hneeds v hlt d hd
        have hbackd : ∀ u ∈ v :: path, ReflTransGen (fun a b => a ∈ g.needs b) d u :=
          fun u hu => .head hd (hback' u hu)
        have hadvance :=
          Schedule.visit_advance hneeds budget hbudget' hnodup' hwithin' hd' hfree hbackd hs
        exact ⟨ih hbudget' hnodup' hwithin' hd' hfree hbackd hs, hadvance.1.sound⟩
      have hloop := foldlM_meet? hback' (g.needs v) (hneeds v hlt) (List.Subset.refl _) hwork
        (hsound.push hdone)
      have hdependencies : g.adjacency.dependencies[v]? = some (g.dependencies v) :=
        tabulate_getElem? hlt _
      have hpredecessors : g.adjacency.predecessors[v]? = some (g.predecessors v) :=
        tabulate_getElem? hlt _
      have hfresh : markOf path s v = .fresh := by simp [markOf, hdone, hv]
      have hskip : ¬ (path.contains v || s.order.contains v) = true := by simp [hdone, hv]
      rw [hfresh, if_neg hskip]
      dsimp only
      rw [mark?_inProgress hlt hdone, hdependencies, hpredecessors]
      change Option.bind
        ((g.needs v).foldlM (meet? (visit? g.adjacency budget) v) (of g.size (v :: path) s)) _ = _
      rw [hloop, Option.bind_some]
      exact mark?_done hlt

end Marking

namespace FlowGraph

variable {g : FlowGraph}

/-- The schedule of a graph with the rows of its nodes, a mark for every node, and all accesses
checked. -/
def schedule? (g : FlowGraph) (a : Adjacency) : Option Schedule :=
  (g.positions.foldlM (fun m v => Marking.visit? a g.size v m) (Marking.of g.size [] ⟨[], []⟩)).map
    Marking.schedule

/-- All accesses of the schedule are to entries that are there. -/
theorem WellFormed.schedule?_eq (hg : g.WellFormed) : g.schedule? g.adjacency = some g.schedule := by
  have hfold (vs : List Nat) (hvs : ∀ v ∈ vs, v < g.size) (s : Schedule)
      (hs : Schedule.Sound g.size g.needs [] s) :
      vs.foldlM (fun m v => Marking.visit? g.adjacency g.size v m) (.of g.size [] s) =
        some (.of g.size [] (vs.foldl (fun s v => Schedule.visit g.needs g.size [] v s) s)) := by
    induction vs generalizing s with
    | nil => rfl
    | cons v vs ih =>
      have hv := hvs v List.mem_cons_self
      have hnext := (Schedule.visit_advance hg.needs_lt g.size (Nat.le_add_right _ _) List.nodup_nil
        (by simp) hv List.not_mem_nil (by simp) hs).1.sound
      rw [List.foldlM_cons, Marking.visit?_eq hg g.size (Nat.le_add_right _ _) List.nodup_nil
        (by simp) hv List.not_mem_nil (by simp) hs]
      exact ih (fun u hu => hvs u (List.mem_cons_of_mem _ hu)) _ hnext
  rw [schedule?, hfold g.positions (fun v => mem_positions.mp) _ Schedule.sound_empty]
  rfl

end FlowGraph

/-- A group in progress: which group every node is assigned to, and the members so far. -/
structure Gathering where
  assigned : List (Option Nat)
  members : List Nat

namespace Gathering

/-- Assign a node to the group with the given number. -/
def take? (m : Gathering) (group v : Nat) : Option Gathering :=
  (change? m.assigned v fun _ => some group).map fun assigned => ⟨assigned, m.members ++ [v]⟩

/-- Add a node and the values it reads, unless it is assigned already. A budget that does not suffice
is a failure. -/
def data? (a : Adjacency) (group : Nat) : Nat → Nat → Gathering → Option Gathering
  | 0, v, m => if m.assigned[v]?.any Option.isSome then some m else none
  | budget + 1, v, m =>
    match m.assigned[v]? with
    | none => none
    | some (some _) => some m
    | some none => do
      let m ← m.take? group v
      let dependencies ← a.dependencies[v]?
      dependencies.foldlM (fun m d => data? a group budget d m) m

/-- Add a node, the values it reads and what runs after it, unless it is assigned already. -/
def flow? (a : Adjacency) (size group : Nat) : Nat → Nat → Gathering → Option Gathering
  | 0, v, m => if m.assigned[v]?.any Option.isSome then some m else none
  | budget + 1, v, m =>
    match m.assigned[v]? with
    | none => none
    | some (some _) => some m
    | some none => do
      let m ← m.take? group v
      let dependencies ← a.dependencies[v]?
      let m ← dependencies.foldlM (fun m d => data? a group size d m) m
      let successors ← a.successors[v]?
      successors.foldlM (fun m w => flow? a size group budget w m) m

end Gathering

namespace FlowGraph

variable {g : FlowGraph} {groups : List Group} {entry : Option Nat} {members : List Nat} {v : Nat}

/-- The number of the group that a node is assigned to. -/
def assignedTo (groups : List Group) (v : Nat) : Option Nat :=
  groups.findIdx? (·.members.contains v)

/-- A node is assigned to no group exactly if no group holds it. -/
theorem assignedTo_eq_none : assignedTo groups v = none ↔ v ∉ taken groups := by
  simp [assignedTo, taken]

/-- The nodes that neither earlier groups nor the present one hold. -/
def free (g : FlowGraph) (taken members : List Nat) : Nat :=
  g.positions.countP fun v => !taken.contains v && !members.contains v

/-- There are no more free nodes than nodes. -/
theorem free_le_size (g : FlowGraph) (taken members : List Nat) : g.free taken members ≤ g.size := by
  have hle := List.countP_le_length (p := fun v => !taken.contains v && !members.contains v)
    (l := g.positions)
  rwa [positions, List.length_range] at hle

/-- With more members, no more nodes are free. -/
theorem free_mono {taken members' : List Nat} (h : members ⊆ members') :
    g.free taken members' ≤ g.free taken members := by
  refine List.countP_mono_left fun v _ hv => ?_
  simp only [List.contains_eq_mem, Bool.and_eq_true, Bool.not_eq_true', decide_eq_false_iff_not] at hv ⊢
  exact ⟨hv.1, fun hin => hv.2 (h hin)⟩

/-- A new member is one free node less. -/
theorem free_concat {taken : List Nat} (hv : v < g.size) (htaken : v ∉ taken) (hnew : v ∉ members) :
    g.free taken (members ++ [v]) < g.free taken members := by
  have hperm := List.perm_cons_erase (mem_positions.mpr hv)
  have hmono : (g.positions.erase v).countP (fun u => !taken.contains u && !(members ++ [v]).contains u) ≤
      (g.positions.erase v).countP fun u => !taken.contains u && !members.contains u := by
    refine List.countP_mono_left fun u _ hu => ?_
    simp only [List.contains_eq_mem, Bool.and_eq_true, Bool.not_eq_true', decide_eq_false_iff_not,
      List.mem_append, not_or] at hu ⊢
    exact ⟨hu.1, hu.2.1⟩
  rw [free, free, hperm.countP_eq, hperm.countP_eq, List.countP_cons, List.countP_cons]
  simp only [List.contains_eq_mem, htaken, hnew, List.mem_append, List.mem_singleton, or_true,
    decide_true, decide_false, Bool.not_true, Bool.not_false, Bool.and_false, Bool.and_self,
    Bool.false_eq_true, if_false, if_true] at hmono ⊢
  omega

/-- Without free nodes, every node is taken or a member. -/
theorem taken_of_free_zero {taken : List Nat} (h : g.free taken members ≤ 0) (hv : v < g.size) :
    v ∈ taken ∨ v ∈ members := by
  by_contra hnew
  obtain ⟨htaken, hmembers⟩ := not_or.mp hnew
  have hlt := free_concat hv htaken hmembers
  omega

end FlowGraph

namespace Gathering

open FlowGraph (taken assignedTo free)

variable {g : FlowGraph} {groups : List Group} {entry : Option Nat} {members : List Nat} {v : Nat}

/-- The table of a group in progress after earlier groups. -/
def of (size : Nat) (groups : List Group) (entry : Option Nat) (members : List Nat) : Gathering :=
  ⟨tabulate size (assignedTo (groups ++ [⟨entry, members⟩])), members⟩

/-- A node is not assigned exactly if no earlier group holds it and it is no member. -/
theorem assignedTo_concat : assignedTo (groups ++ [⟨entry, members⟩]) v = none ↔
    v ∉ taken groups ∧ v ∉ members := by
  rw [FlowGraph.assignedTo_eq_none, taken, List.flatMap_append]
  simp [taken]

/-- A free node is assigned to the group in progress. -/
theorem take?_of (hv : v < g.size) (hfree : v ∉ taken groups) :
    (of g.size groups entry members).take? groups.length v =
      some (of g.size groups entry (members ++ [v])) := by
  have hchange : change? (of g.size groups entry members).assigned v (fun _ => some groups.length) =
      some (tabulate g.size (assignedTo (groups ++ [⟨entry, members ++ [v]⟩]))) := by
    refine change?_tabulate hv ?_ fun u hu => ?_
    · have hnone := FlowGraph.assignedTo_eq_none.mpr hfree
      rw [assignedTo] at hnone
      rw [assignedTo, List.findIdx?_append, hnone]
      simp
    · have hsame : (members ++ [v]).contains u = members.contains u := by simp [hu]
      rw [assignedTo, List.findIdx?_append, assignedTo, List.findIdx?_append, List.findIdx?_singleton,
        List.findIdx?_singleton, hsame]
  rw [take?, hchange]
  rfl

/-- A loop that gathers nodes one after the other, as long as what bounds the free nodes holds. -/
theorem foldlM_of {step? : Nat → Gathering → Option Gathering} {f : Nat → List Nat → List Nat}
    {P : List Nat → Prop} (vs : List Nat)
    (hstep : ∀ v ∈ vs, ∀ ms, P ms → step? v (of g.size groups entry ms) =
      some (of g.size groups entry (f v ms)) ∧ P (f v ms)) (hmembers : P members) :
    vs.foldlM (fun m v => step? v m) (of g.size groups entry members) =
      some (of g.size groups entry (vs.foldl (fun ms v => f v ms) members)) ∧
      P (vs.foldl (fun ms v => f v ms) members) := by
  induction vs generalizing members with
  | nil => exact ⟨rfl, hmembers⟩
  | cons v vs ih =>
    obtain ⟨hfirst, hnext⟩ := hstep v List.mem_cons_self members hmembers
    rw [List.foldlM_cons, List.foldl_cons, hfirst]
    exact ih (fun u hu => hstep u (List.mem_cons_of_mem _ hu)) hnext

/-- A node without a free one left is assigned. -/
theorem any_isSome_of (hv : v < g.size) (hbudget : g.free (taken groups) members ≤ 0) :
    (of g.size groups entry members).assigned[v]?.any Option.isSome = true := by
  have hassigned : assignedTo (groups ++ [⟨entry, members⟩]) v ≠ none := by
    intro hnone
    obtain ⟨htaken, hnew⟩ := assignedTo_concat.mp hnone
    exact (FlowGraph.taken_of_free_zero hbudget hv).elim htaken hnew
  rw [of, tabulate_getElem? hv, Option.any_some]
  exact Option.isSome_iff_ne_none.mpr hassigned

/-- A node that is assigned is taken or a member. -/
theorem contains_of_assignedTo {k : Nat} (h : assignedTo (groups ++ [⟨entry, members⟩]) v = some k) :
    ((taken groups).contains v || members.contains v) = true := by
  by_contra hfree
  simp only [List.contains_eq_mem, Bool.or_eq_true, decide_eq_true_eq, not_or] at hfree
  cases h.symm.trans (assignedTo_concat.mpr hfree)

section Walks

variable (hg : g.WellFormed) (hv : v < g.size)

include hg hv

/-- Values are gathered with the table as without it. -/
theorem data?_of (budget : Nat) (hbudget : g.free (taken groups) members ≤ budget) :
    data? g.adjacency groups.length budget v (of g.size groups entry members) =
      some (of g.size groups entry (g.gatherData (taken groups) budget v members)) := by
  induction budget generalizing v members with
  | zero =>
    rw [data?, if_pos (any_isSome_of hv hbudget)]
    rfl
  | succ budget ih =>
    have hentry : (of g.size groups entry members).assigned[v]? =
        some (assignedTo (groups ++ [⟨entry, members⟩]) v) := tabulate_getElem? hv _
    rw [data?, hentry, FlowGraph.gatherData]
    cases hassigned : assignedTo (groups ++ [⟨entry, members⟩]) v with
    | some k => rw [if_pos (contains_of_assignedTo hassigned)]
    | none =>
      obtain ⟨htaken, hnew⟩ := assignedTo_concat.mp hassigned
      have hrow : g.adjacency.dependencies[v]? = some (g.dependencies v) := tabulate_getElem? hv _
      have hless := FlowGraph.free_concat hv htaken hnew
      rw [if_neg (by simp [htaken, hnew]), take?_of hv htaken, hrow]
      refine (foldlM_of (P := fun ms => g.free (taken groups) ms ≤ budget) (g.dependencies v)
        (fun d hd ms hms => ⟨ih (hg.feeds_lt (FlowGraph.mem_dependencies.mp hd)).1 hms, ?_⟩) (by omega)).1
      exact Nat.le_trans (FlowGraph.free_mono (g.prefix_gatherData _ _ _ _).subset) hms

/-- The flow is gathered with the table as without it. -/
theorem flow?_of (budget : Nat) (hbudget : g.free (taken groups) members ≤ budget) :
    flow? g.adjacency g.size groups.length budget v (of g.size groups entry members) =
      some (of g.size groups entry (g.gatherFlow (taken groups) budget v members)) := by
  induction budget generalizing v members with
  | zero =>
    rw [flow?, if_pos (any_isSome_of hv hbudget)]
    rfl
  | succ budget ih =>
    have hentry : (of g.size groups entry members).assigned[v]? =
        some (assignedTo (groups ++ [⟨entry, members⟩]) v) := tabulate_getElem? hv _
    rw [flow?, hentry, FlowGraph.gatherFlow]
    cases hassigned : assignedTo (groups ++ [⟨entry, members⟩]) v with
    | some k => rw [if_pos (contains_of_assignedTo hassigned)]
    | none =>
      obtain ⟨htaken, hnew⟩ := assignedTo_concat.mp hassigned
      have hdependencies : g.adjacency.dependencies[v]? = some (g.dependencies v) :=
        tabulate_getElem? hv _
      have hsuccessors : g.adjacency.successors[v]? = some (g.successors v) := tabulate_getElem? hv _
      have hless := FlowGraph.free_concat hv htaken hnew
      have hstep : ∀ d ∈ g.dependencies v, ∀ ms, g.free (taken groups) ms ≤ budget →
          data? g.adjacency groups.length g.size d (of g.size groups entry ms) =
            some (of g.size groups entry (g.gatherData (taken groups) g.size d ms)) ∧
          g.free (taken groups) (g.gatherData (taken groups) g.size d ms) ≤ budget := by
        intro d hd ms hms
        have hd' := (hg.feeds_lt (FlowGraph.mem_dependencies.mp hd)).1
        exact ⟨data?_of hg hd' g.size (FlowGraph.free_le_size g _ ms),
          Nat.le_trans (FlowGraph.free_mono (g.prefix_gatherData _ _ _ _).subset) hms⟩
      obtain ⟨hdata, hfew⟩ := foldlM_of (P := fun ms => g.free (taken groups) ms ≤ budget)
        (g.dependencies v) hstep (show g.free (taken groups) (members ++ [v]) ≤ budget by omega)
      rw [if_neg (by simp [htaken, hnew]), take?_of hv htaken, hdependencies]
      change Option.bind ((g.dependencies v).foldlM _ _) _ = _
      rw [hdata, Option.bind_some, hsuccessors]
      exact (foldlM_of (P := fun ms => g.free (taken groups) ms ≤ budget) (g.successors v)
        (fun w hw ms hms => ⟨ih (hg.leads_lt (FlowGraph.mem_successors.mp hw)).2 hms,
          Nat.le_trans (FlowGraph.free_mono (g.prefix_gatherFlow _ _ _ _).subset) hms⟩) hfew).1

end Walks

end Gathering

namespace FlowGraph

/-- Add the group of an entry point, unless it is assigned already. -/
def addFlowGroup? (a : Adjacency) (size : Nat) (r : List Group × List (Option Nat)) (entry : Nat) :
    Option (List Group × List (Option Nat)) :=
  match r.2[entry]? with
  | none => none
  | some (some _) => some r
  | some none => (Gathering.flow? a size r.1.length size entry ⟨r.2, []⟩).map fun m =>
      (r.1 ++ [⟨some entry, m.members⟩], m.assigned)

/-- Add a group for a single node, unless it is assigned already. -/
def addSingleGroup? (r : List Group × List (Option Nat)) (v : Nat) :
    Option (List Group × List (Option Nat)) :=
  match r.2[v]? with
  | none => none
  | some (some _) => some r
  | some none => (change? r.2 v fun _ => some r.1.length).map fun assigned =>
      (r.1 ++ [⟨none, [v]⟩], assigned)

/-- The groups of a graph, and the number of the group of every node. -/
def groups? (g : FlowGraph) (a : Adjacency) (entries : List Nat) :
    Option (List Group × List (Option Nat)) := do
  let r ← entries.foldlM (addFlowGroup? a g.size) ([], tabulate g.size fun _ => none)
  g.positions.foldlM addSingleGroup? r

variable {g : FlowGraph} {groups : List Group} {v : Nat}

/-- Groups with the table of their nodes. -/
def tabled (size : Nat) (groups : List Group) : List Group × List (Option Nat) :=
  (groups, tabulate size (assignedTo groups))

/-- A node that is assigned is taken. -/
theorem taken_of_assignedTo {k : Nat} (h : assignedTo groups v = some k) :
    (taken groups).contains v = true := by
  by_contra hfree
  cases h.symm.trans (assignedTo_eq_none.mpr (by simpa using hfree))

theorem WellFormed.addFlowGroup?_eq (hg : g.WellFormed) (hv : v < g.size) :
    addFlowGroup? g.adjacency g.size (tabled g.size groups) v =
      some (tabled g.size (g.addFlowGroup groups v)) := by
  have hentry : (tabled g.size groups).2[v]? = some (assignedTo groups v) := tabulate_getElem? hv _
  rw [addFlowGroup?, hentry, addFlowGroup]
  cases hassigned : assignedTo groups v with
  | some k => rw [if_pos (taken_of_assignedTo hassigned)]
  | none =>
    have htaken := assignedTo_eq_none.mp hassigned
    -- a group without members holds no node
    have hempty : assignedTo (groups ++ [⟨some v, []⟩]) = assignedTo groups := by
      funext u
      rw [assignedTo, List.findIdx?_append, assignedTo]
      simp
    have hflow := @Gathering.flow?_of g groups (some v) [] v hg hv g.size (free_le_size g _ [])
    rw [Gathering.of, hempty] at hflow
    rw [if_neg (by simpa using htaken)]
    dsimp only [tabled]
    rw [hflow]
    rfl

theorem addSingleGroup?_eq (hv : v < g.size) :
    addSingleGroup? (tabled g.size groups) v = some (tabled g.size (addSingleGroup groups v)) := by
  have hentry : (tabled g.size groups).2[v]? = some (assignedTo groups v) := tabulate_getElem? hv _
  rw [addSingleGroup?, hentry, addSingleGroup]
  cases hassigned : assignedTo groups v with
  | some k => rw [if_pos (taken_of_assignedTo hassigned)]
  | none =>
    have htaken := assignedTo_eq_none.mp hassigned
    have hchange : change? (tabled g.size groups).2 v (fun _ => some groups.length) =
        some (tabulate g.size (assignedTo (groups ++ [⟨none, [v]⟩]))) := by
      rw [assignedTo] at hassigned
      refine change?_tabulate hv ?_ fun u hu => ?_
      · rw [assignedTo, List.findIdx?_append, hassigned]
        simp
      · rw [assignedTo, List.findIdx?_append, assignedTo]
        simp [hu]
    rw [if_neg (by simpa using htaken)]
    exact congrArg (Option.map _) hchange

/-- All accesses of the groups are to entries that are there. -/
theorem WellFormed.groups?_eq (hg : g.WellFormed) :
    g.groups? g.adjacency g.entryPoints = some (tabled g.size g.groups) := by
  have hflows (vs : List Nat) (hvs : ∀ v ∈ vs, v < g.size) (groups : List Group) :
      vs.foldlM (addFlowGroup? g.adjacency g.size) (tabled g.size groups) =
        some (tabled g.size (vs.foldl g.addFlowGroup groups)) := by
    induction vs generalizing groups with
    | nil => rfl
    | cons v vs ih =>
      rw [List.foldlM_cons, hg.addFlowGroup?_eq (hvs v List.mem_cons_self)]
      exact ih (fun u hu => hvs u (List.mem_cons_of_mem _ hu)) _
  have hsingles (vs : List Nat) (hvs : ∀ v ∈ vs, v < g.size) (groups : List Group) :
      vs.foldlM addSingleGroup? (tabled g.size groups) =
        some (tabled g.size (vs.foldl addSingleGroup groups)) := by
    induction vs generalizing groups with
    | nil => rfl
    | cons v vs ih =>
      rw [List.foldlM_cons, addSingleGroup?_eq (hvs v List.mem_cons_self)]
      exact ih (fun u hu => hvs u (List.mem_cons_of_mem _ hu)) _
  have hentries := hflows g.entryPoints (fun v => entryPoints_lt) []
  rw [groups?]
  change Option.bind (g.entryPoints.foldlM _ (tabled g.size [])) _ = _
  rw [hentries]
  exact hsingles g.positions (fun v => mem_positions.mp) _

/-- The nodes that pass a test, each of which may look into a table. -/
def select? (test : Nat → Option Bool) : List Nat → Option (List Nat)
  | [] => some []
  | v :: vs => do
    let passes ← test v
    let rest ← select? test vs
    some (if passes then v :: rest else rest)

/-- Tests that look at entries that are there select as those without a table. -/
theorem select?_eq {test : Nat → Option Bool} {p : Nat → Bool} {vs : List Nat}
    (h : ∀ v ∈ vs, test v = some (p v)) : select? test vs = some (vs.filter p) := by
  induction vs with
  | nil => rfl
  | cons v vs ih =>
    rw [select?, h v List.mem_cons_self, ih fun u hu => h u (List.mem_cons_of_mem _ hu)]
    cases hp : p v <;> simp [hp]

/-- The nodes of the flow of execution whose row is empty. -/
def unlinked? (g : FlowGraph) (rows : List (List Nat)) : Option (List Nat) :=
  select? (fun v => (rows[v]?).map fun row => g.hasExecutionPorts v && row.isEmpty) g.positions

/-- The entry points of a graph. -/
def entryPoints? (g : FlowGraph) (a : Adjacency) : Option (List Nat) :=
  if g.anyExecutionPorts then g.unlinked? a.predecessors
  else some (g.positions.filter fun v => (g.node? v).any (·.kind == .input))

/-- All that is known about the links of a graph, in tables. -/
structure Resolution where
  adjacency : Adjacency
  entryPoints : List Nat
  exitPoints : List Nat
  groups : List Group
  assigned : List (Option Nat)
  schedule : Schedule

/-- Resolve a graph with tables; an access outside a table is a failure. -/
def resolve? (g : FlowGraph) : Option Resolution := do
  let a ← g.adjacency?
  let entries ← g.entryPoints? a
  let exits ← g.unlinked? a.successors
  let (groups, assigned) ← g.groups? a entries
  let schedule ← g.schedule? a
  some ⟨a, entries, exits, groups, assigned, schedule⟩

/-- Rows of nodes are there for every node. -/
theorem unlinked?_eq (links : Nat → List Nat) : g.unlinked? (tabulate g.size links) =
    some (g.positions.filter fun v => g.hasExecutionPorts v && (links v).isEmpty) :=
  select?_eq fun v hv => by rw [tabulate_getElem? (mem_positions.mp hv)]; rfl

/-- No access is outside a table, and the tables hold what the functions on graphs give. -/
theorem WellFormed.resolve?_eq (hg : g.WellFormed) : g.resolve? =
    some ⟨g.adjacency, g.entryPoints, g.exitPoints, g.groups, tabulate g.size (assignedTo g.groups),
      g.schedule⟩ := by
  have hentries : g.entryPoints? g.adjacency = some g.entryPoints := by
    rw [entryPoints?, entryPoints]
    split
    · exact unlinked?_eq g.predecessors
    · rfl
  have hexits : g.unlinked? g.adjacency.successors = some g.exitPoints := unlinked?_eq g.successors
  simp only [resolve?, hg.adjacency?_eq, hentries, hexits, hg.groups?_eq, hg.schedule?_eq,
    Option.bind_eq_bind, Option.bind_some, tabled]

end FlowGraph

end FlowScript
