import FlowScript.Proofs.Dominance
import FlowScript.Proofs.Regions

/-!
# What runs after a block

The branches of a conditional or a loop claim some of its successors, and the others run after its
block. So does what two different successors lead to. In a graph that is written the way structured
programs are, each branch has one target, and all that runs after a block is behind one node: the
successor that no branch claims, if there is one, and else the first node where branches meet.
-/

namespace FlowScript

open Relation (ReflTransGen TransGen)

/-- The labels of the branches of a node, one list for each branch. -/
def Kind.branchLabels : Kind → List (List String)
  | .conditional => [thenLabels, elseLabels]
  | .loop => [bodyLabels]
  | _ => []

namespace FlowGraph

variable {g : FlowGraph} {c v w : Nat}

/-- A branch of a node leads to another. -/
def Claims (g : FlowGraph) (c w : Nat) : Prop :=
  ∃ n labels, g.node? c = some n ∧ labels ∈ n.kind.branchLabels ∧ w ∈ g.branchTargets c labels

/-- A successor that no branch claims. -/
def Continues (g : FlowGraph) (c w : Nat) : Prop :=
  g.Leads c w ∧ ¬ g.Claims c w

/-- Each branch of a node has at most one target, and no branch claims any but one of the others. -/
structure Narrow (g : FlowGraph) (c : Nat) : Prop where
  branches : ∀ n labels, g.node? c = some n → labels ∈ n.kind.branchLabels →
    ∀ w ∈ g.branchTargets c labels, ∀ w' ∈ g.branchTargets c labels, w = w'
  rest : ∀ w w', g.Continues c w → g.Continues c w' → w = w'

/-- Two different successors of a node lead to another. -/
def Forks (g : FlowGraph) (c v : Nat) : Prop :=
  ∃ w w', w ≠ w' ∧ g.Leads c w ∧ g.Leads c w' ∧ ReflTransGen g.Leads w v ∧ ReflTransGen g.Leads w' v

/-- What runs after the block of a node. -/
def After (g : FlowGraph) (c v : Nat) : Prop :=
  g.Forks c v ∨ ∃ w, g.Continues c w ∧ ReflTransGen g.Leads w v

/-- What runs after the block of a node has one beginning, which is the successor that no branch
claims if there is one. -/
def Resumes (g : FlowGraph) (c : Nat) : Prop :=
  ∀ v, g.After c v → ∃ p, g.After c p ∧ (∀ u, g.After c u → ReflTransGen g.Leads p u) ∧
    ∀ w, g.Continues c w → w = p

/-- What two successors lead to, they lead to further on. -/
theorem Forks.trans (h : g.Forks c v) (hvw : ReflTransGen g.Leads v w) : g.Forks c w := by
  obtain ⟨x, y, hne, hx, hy, hxv, hyv⟩ := h
  exact ⟨x, y, hne, hx, hy, hxv.trans hvw, hyv.trans hvw⟩

/-- What two successors lead to lies behind the node. -/
theorem Forks.leads (h : g.Forks c v) : TransGen g.Leads c v := by
  obtain ⟨w, -, -, hw, -, hpath, -⟩ := h
  exact .head' hw hpath

/-- The nodes that a node leads to, itself included. -/
def behind (g : FlowGraph) (w : Nat) : List Nat :=
  reach g.size g.successors (fun _ => true) [w]

/-- The targets of the branches of a node. -/
def claimed (g : FlowGraph) (c : Nat) : List Nat :=
  ((g.node? c).map fun n => n.kind.branchLabels.flatMap (g.branchTargets c)).getD []

/-- The successors of a node that no branch claims. -/
def continuation (g : FlowGraph) (c : Nat) : List Nat :=
  (g.successors c).filter fun w => !(g.claimed c).contains w

/-- The nodes that run after the block of a node. -/
def afterBlock (g : FlowGraph) (c : Nat) : List Nat :=
  g.positions.filter fun v => (g.continuation c).any (fun w => (g.behind w).contains v) ||
    (g.successors c).any fun w => (g.successors c).any fun w' =>
      w != w' && (g.behind w).contains v && (g.behind w').contains v

/-- The search finds all that a node leads to. -/
theorem WellFormed.mem_behind (hg : g.WellFormed) (hw : w < g.size) :
    v ∈ g.behind w ↔ ReflTransGen g.Leads w v := by
  rw [behind, mem_reach (fun _ _ _ hu => (hg.leads_lt (mem_successors.mp hu)).2) (by simpa using hw)]
  simp [Reachable]

/-- The targets of the branches are claimed. -/
theorem mem_claimed : w ∈ g.claimed c ↔ g.Claims c w := by
  cases hn : g.node? c with
  | none => simp [claimed, Claims, hn]
  | some n => simp [claimed, Claims, hn]

/-- The other successors continue. -/
theorem mem_continuation : w ∈ g.continuation c ↔ g.Continues c w := by
  simp [continuation, Continues, List.mem_filter, mem_claimed]

/-- The nodes that run after the block of a node, found by search. -/
theorem WellFormed.mem_afterBlock (hg : g.WellFormed) : v ∈ g.afterBlock c ↔ g.After c v := by
  have hbehind {w : Nat} (hw : g.Leads c w) : v ∈ g.behind w ↔ ReflTransGen g.Leads w v :=
    hg.mem_behind (hg.leads_lt hw).2
  have hlt {w : Nat} (hw : g.Leads c w) (hpath : ReflTransGen g.Leads w v) : v < g.size := by
    cases hpath with
    | refl => exact (hg.leads_lt hw).2
    | tail _ hlast => exact (hg.leads_lt hlast).2
  simp only [afterBlock, List.mem_filter, mem_positions, Bool.or_eq_true, List.any_eq_true,
    Bool.and_eq_true, bne_iff_ne, List.contains_eq_mem, decide_eq_true_eq, mem_continuation,
    mem_successors]
  constructor
  · rintro ⟨-, ⟨w, hw, hv⟩ | ⟨w, hw, w', hw', ⟨hne, hv⟩, hv'⟩⟩
    · exact .inr ⟨w, hw, (hbehind hw.1).mp hv⟩
    · exact .inl ⟨w, w', hne, hw, hw', (hbehind hw).mp hv, (hbehind hw').mp hv'⟩
  · rintro (⟨w, w', hne, hw, hw', hv, hv'⟩ | ⟨w, hw, hv⟩)
    · exact ⟨hlt hw hv, .inr ⟨w, hw, w', hw', ⟨hne, (hbehind hw).mpr hv⟩, (hbehind hw').mpr hv'⟩⟩
    · exact ⟨hlt hw.1 hv, .inl ⟨w, hw, (hbehind hw.1).mpr hv⟩⟩

/-- Whether what runs after blocks has one beginning can be found by search. -/
theorem WellFormed.resumes_of_search (hg : g.WellFormed)
    (h : ∀ c < g.size, ∀ v ∈ g.afterBlock c, ∃ p ∈ g.afterBlock c,
      (∀ u ∈ g.afterBlock c, u ∈ g.behind p) ∧ ∀ w ∈ g.continuation c, w = p) (c : Nat) :
    g.Resumes c := by
  intro v hv
  have hc : c < g.size := by
    rcases hv with ⟨w, -, -, hw, -⟩ | ⟨w, hw, -⟩
    · exact (hg.leads_lt hw).1
    · exact (hg.leads_lt hw.1).1
  obtain ⟨p, hp, hall, honly⟩ := h c hc v (hg.mem_afterBlock.mpr hv)
  have hlt : p < g.size := mem_positions.mp (List.mem_filter.mp hp).1
  exact ⟨p, hg.mem_afterBlock.mp hp, fun u hu => (hg.mem_behind hlt).mp (hall u
    (hg.mem_afterBlock.mpr hu)), fun w hw => honly w (mem_continuation.mpr hw)⟩

/-- Whether branches have one target each can be read off the targets. -/
theorem WellFormed.narrow_of_search (hg : g.WellFormed)
    (h : ∀ c < g.size, (∀ n ∈ g.node? c, ∀ labels ∈ n.kind.branchLabels,
        (g.branchTargets c labels).length ≤ 1) ∧ (g.continuation c).length ≤ 1) (c : Nat) :
    g.Narrow c := by
  have hone {ws : List Nat} (hws : ws.length ≤ 1) : ∀ w ∈ ws, ∀ w' ∈ ws, w = w' := by
    match ws with
    | [] => simp
    | [x] => simp
    | x :: y :: zs => simp at hws
  constructor
  · intro n labels hn hlabels
    have hc : c < g.size := (List.getElem?_eq_some_iff.mp hn).1
    exact hone ((h c hc).1 n hn labels hlabels)
  · intro w w' hw hw'
    exact hone (h c (hg.leads_lt hw.1).1).2 w (mem_continuation.mpr hw) w' (mem_continuation.mpr hw')

/-- In the order of the schedule, no node stands before another that leads to it. -/
theorem Separated.order_forward (hsep : g.Separated) (hg : g.WellFormed) :
    g.schedule.order.Pairwise fun a b => ¬ TransGen g.Leads b a := by
  have hnodup := hg.schedule_sound.1.nodup
  rw [List.pairwise_iff_getElem]
  intro i j hi hj hlt hleads
  have hbefore : g.schedule.Before g.schedule.order[j] g.schedule.order[i] :=
    before_of_transGen (fun _ _ => hsep.before_of_leads hg) hleads
  rw [Schedule.Before, hnodup.idxOf_getElem, hnodup.idxOf_getElem] at hbefore
  omega

end FlowGraph

/-- The nodes that the arms of a block and what runs after it start from, the latter last. -/
def Block.targets (b : Block) : List (List Nat) :=
  b.arms.map Prod.snd ++ [b.rest]

/-- A block that goes on to the successors of a node, each of which it goes on to in one way. -/
structure Block.Divides (b : Block) (g : FlowGraph) (c : Nat) : Prop where
  leads : ∀ w, g.Leads c w ↔ w ∈ b.rest ∨ ∃ x ∈ b.arms, w ∈ x.2
  rest : ∀ w, w ∈ b.rest ↔ g.Continues c w
  single : ∀ ws ∈ b.targets, ∀ w ∈ ws, ∀ w' ∈ ws, w = w'
  disjoint : b.targets.Pairwise List.Disjoint

namespace Job

variable {job : Job} {d e : Draft} {b : Block} {c v : Nat}

/-- The starts of the arms and of what runs after the block. -/
theorem mem_targets {ws : List Nat} :
    ws ∈ b.targets ↔ ws = b.rest ∨ ∃ x ∈ b.arms, ws = x.2 := by
  simp only [Block.targets, List.mem_append, List.mem_map, List.mem_singleton]
  constructor
  · rintro (⟨x, hx, rfl⟩ | rfl)
    · exact .inr ⟨x, hx, rfl⟩
    · exact .inl rfl
  · rintro (rfl | ⟨x, hx, rfl⟩)
    · exact .inr rfl
    · exact .inl ⟨x, hx, rfl⟩

/-- A node is shared by the regions of a block exactly if it lies behind two of its starts. -/
theorem shared_regions_iff : shared (job.regions d b) v = true ↔
    ∃ ws ws', [ws, ws'].Sublist b.targets ∧ v ∈ job.flowRegion d ws ∧ v ∈ job.flowRegion d ws' := by
  have hregions : job.regions d b = b.targets.map (job.flowRegion d) := by
    simp [regions, Block.targets]
  rw [hregions, shared_iff]
  constructor
  · rintro ⟨r, r', hpair, hr, hr'⟩
    obtain ⟨xs, hxs, heq⟩ := List.sublist_map_iff.mp hpair
    have hlength : xs.length = 2 := by simpa using (congrArg List.length heq).symm
    obtain ⟨ws, ws', rfl⟩ := List.length_eq_two.mp hlength
    obtain ⟨rfl, rfl⟩ : r = job.flowRegion d ws ∧ r' = job.flowRegion d ws' := by simpa using heq
    exact ⟨ws, ws', hxs, hr, hr'⟩
  · rintro ⟨ws, ws', hpair, hws, hws'⟩
    exact ⟨_, _, hpair.map (job.flowRegion d), hws, hws'⟩

/-- Two different members of a list stand in it one after the other. -/
theorem pair_sublist {α : Type} {x y : α} {l : List α} (hx : x ∈ l) (hy : y ∈ l) (hne : x ≠ y) :
    [x, y].Sublist l ∨ [y, x].Sublist l := by
  induction l with
  | nil => cases hx
  | cons z l ih =>
    rcases List.mem_cons.mp hx with rfl | hx
    · have hy := (List.mem_cons.mp hy).resolve_left (Ne.symm hne)
      exact .inl ((List.singleton_sublist.mpr hy).cons_cons x)
    · rcases List.mem_cons.mp hy with heq | hy
      · exact .inr (heq ▸ (List.singleton_sublist.mpr hx).cons_cons y)
      · exact (ih hx hy).imp (.cons z) (.cons z)

/-- The block of a conditional whose branches have one target each divides its successors. -/
theorem divides_of_conditional {n : Node} (hnarrow : job.graph.Narrow c)
    (hn : job.graph.node? c = some n) (hkind : n.kind = .conditional)
    (h : job.conditionalBlock? d c n = some (b, e)) : b.Divides job.graph c := by
  obtain ⟨-, -, -, ⟨harms, hrest⟩, -⟩ := conditionalBlock?_eq_some h
  have hclaims (w : Nat) : job.graph.Claims c w ↔
      w ∈ job.graph.branchTargets c thenLabels ∨ w ∈ job.graph.branchTargets c elseLabels := by
    simp [FlowGraph.Claims, hn, hkind, Kind.branchLabels]
  have hyes := hnarrow.branches n thenLabels hn (by simp [hkind, Kind.branchLabels])
  have helse := hnarrow.branches n elseLabels hn (by simp [hkind, Kind.branchLabels])
  generalize job.graph.branchTargets c thenLabels = yes at harms hrest hclaims hyes
  generalize job.graph.branchTargets c elseLabels = other at harms hrest hclaims helse
  have hno : ∀ w ∈ other.filter fun w => !yes.contains w, w ∈ other ∧ w ∉ yes := by
    simp
  have hcontinues (w : Nat) : w ∈ b.rest ↔ job.graph.Continues c w := by
    rw [hrest, mem_unclaimed, FlowGraph.mem_successors, FlowGraph.Continues, hclaims]
    by_cases hin : w ∈ yes <;> simp [hin]
  have hunclaimed : ∀ w ∈ b.rest, w ∉ yes ∧ w ∉ other := by
    intro w hw
    have hnot := ((hcontinues w).mp hw).2
    rwa [hclaims, not_or] at hnot
  generalize other.filter (fun w => !yes.contains w) = no at harms hno
  have htargets : b.targets = yes :: ((if no.isEmpty then [] else [no]) ++ [b.rest]) := by
    rw [Block.targets, harms]
    split <;> rfl
  refine ⟨fun w => ?_, hcontinues, ?_, ?_⟩
  · rw [← FlowGraph.mem_successors]
    exact conditionalBlock?_targets h w
  · intro ws hws w hw w' hw'
    have hcases : ws = yes ∨ ws = no ∨ ws = b.rest := by
      rw [htargets] at hws
      split at hws <;> simp at hws <;> tauto
    rcases hcases with rfl | rfl | rfl
    · exact hyes w hw w' hw'
    · exact helse w (hno w hw).1 w' (hno w' hw').1
    · exact hnarrow.rest w w' ((hcontinues w).mp hw) ((hcontinues w').mp hw')
  · have hyesNo : yes.Disjoint no := fun w hw hw' => (hno w hw').2 hw
    have hyesRest : yes.Disjoint b.rest := fun w hw hw' => (hunclaimed w hw').1 hw
    have hnoRest : no.Disjoint b.rest := fun w hw hw' => (hunclaimed w hw').2 (hno w hw).1
    rw [htargets]
    split <;> simp [hyesNo, hyesRest, hnoRest]

/-- The block of a loop whose body has one target divides its successors. -/
theorem divides_of_loop {n : Node} (hnarrow : job.graph.Narrow c)
    (hn : job.graph.node? c = some n) (hkind : n.kind = .loop)
    (h : job.loopBlock? d c n = some (b, e)) : b.Divides job.graph c := by
  obtain ⟨-, -, -, -, harms, hrest, -⟩ := loopBlock?_eq_some h
  have hcontinues (w : Nat) : w ∈ b.rest ↔ job.graph.Continues c w := by
    rw [hrest, mem_unclaimed, FlowGraph.mem_successors]
    simp [FlowGraph.Continues, FlowGraph.Claims, hn, hkind, Kind.branchLabels]
  have htargets : b.targets = [job.graph.branchTargets c bodyLabels, b.rest] := by
    rw [Block.targets, harms]
    rfl
  refine ⟨fun w => ?_, hcontinues, ?_, ?_⟩
  · rw [← FlowGraph.mem_successors]
    exact loopBlock?_targets h w
  · intro ws hws w hw w' hw'
    rw [htargets, List.mem_pair] at hws
    rcases hws with rfl | rfl
    · exact hnarrow.branches n bodyLabels hn (by simp [hkind, Kind.branchLabels]) w hw w' hw'
    · exact hnarrow.rest w w' ((hcontinues w).mp hw) ((hcontinues w').mp hw')
  · have hdisjoint : (job.graph.branchTargets c bodyLabels).Disjoint b.rest := by
      intro w hw hw'
      rw [hrest, mem_unclaimed] at hw'
      exact hw'.2 hw
    simp [htargets, hdisjoint]

/-- A node whose branches have one target each becomes a block that divides its successors. -/
theorem divides_of_narrow (hnarrow : job.graph.Narrow c) (h : job.block? d c = some (b, e)) :
    b.Divides job.graph c := by
  obtain ⟨n, hn, ⟨hkind, hcond⟩ | ⟨hkind, hloop⟩⟩ := block?_eq_some h
  · exact divides_of_conditional hnarrow hn hkind hcond
  · exact divides_of_loop hnarrow hn hkind hloop

end Job

end FlowScript
