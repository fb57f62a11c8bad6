import FlowScript.Emission.Flow
import FlowScript.Proofs.Links

/-!
# What a node may change in a draft

The lines of a node leave the level, the entered nodes and the barriers of a draft alone. They
belong to the node, and the values that come with them are the node's variable. A node that becomes
a block claims each of its successors for an arm or for what runs after the block.
-/

namespace FlowScript

/-- The node that contributes what a step writes. -/
def Event.origin? : Event → Option Nat
  | .line origin _ _ => origin
  | .blank origin => origin
  | _ => none

/-- The node that a step enters. -/
def Event.entered? : Event → Option Nat
  | .enter v => some v
  | _ => none

/-- A step that belongs to the lines of some node enters no node. -/
theorem Event.entered?_of_origin? {x : Event} {v : Nat} (h : x.origin? = some v) :
    x.entered? = none := by
  cases x <;> simp_all [Event.origin?, Event.entered?]

/-- A trace writes lines and blank lines only. -/
theorem verbatim_not_mem_traceItems (trace : List Event) (text : String) :
    .verbatim text ∉ traceItems trace := by
  intro hin
  obtain ⟨x, -, hx⟩ := List.mem_filterMap.mp hin
  cases x <;> cases hx

/-- Lines and blank lines count for one line each. -/
theorem Listing.lineCount_eq_length {w : Listing} (h : ∀ t, .verbatim t ∉ w.items) :
    w.lineCount = w.items.length := by
  have hcount : ∀ (items : List Item) (count : Nat), (∀ t, .verbatim t ∉ items) →
      items.foldl (fun count item => count + item.lineCount) count = count + items.length := by
    intro items
    induction items with
    | nil => exact fun _ _ => rfl
    | cons x rest ih =>
      intro count hitems
      have hx : x.lineCount = 1 := by
        cases x with
        | line | blank => rfl
        | verbatim t => exact absurd List.mem_cons_self (hitems t)
      rw [List.foldl_cons, hx, ih _ fun t ht => hitems t (List.mem_cons_of_mem _ ht),
        List.length_cons]
      omega
  rw [lineCount, hcount w.items 0 h, Nat.zero_add]

/-- The lines written so far are those of the trace. -/
theorem Draft.written_eq (d : Draft) : d.written = (traceItems d.trace).length :=
  Listing.lineCount_eq_length (verbatim_not_mem_traceItems d.trace)

/-- What the lines of a node may change. -/
structure Draft.Writes (job : Job) (v : Nat) (d e : Draft) : Prop where
  level : e.level = d.level
  entered : e.entered = d.entered
  barriers : e.barriers = d.barriers
  trace : ∃ own, e.trace = d.trace ++ own ∧ ∀ x ∈ own, x.origin? = some v
  values : ∃ bound, e.values = bound ++ d.values ∧
    ∀ x ∈ bound, x.1.1 = v ∧ ∃ n, job.graph.node? v = some n ∧ x.2 = job.nameOf v n
  deferred : ∀ w ∈ e.deferred, w ∈ d.deferred ∨ w = v

/-- Drafts that differ in nothing that has been written or entered. -/
structure Draft.Alike (d e : Draft) : Prop where
  level : e.level = d.level
  entered : e.entered = d.entered
  barriers : e.barriers = d.barriers
  trace : e.trace = d.trace
  deferred : e.deferred = d.deferred

namespace Draft.Writes

variable {job : Job} {v : Nat} {d e f : Draft}

/-- A draft in which only reports, imports and returns at the end may differ. -/
theorem of_eq (hlevel : e.level = d.level) (hentered : e.entered = d.entered)
    (hbarriers : e.barriers = d.barriers) (htrace : e.trace = d.trace)
    (hvalues : e.values = d.values) (hdeferred : ∀ w ∈ e.deferred, w ∈ d.deferred ∨ w = v) :
    Writes job v d e :=
  ⟨hlevel, hentered, hbarriers, ⟨[], by rw [htrace, List.append_nil], by simp⟩,
    ⟨[], by rw [hvalues, List.nil_append], by simp⟩, hdeferred⟩

/-- Nothing changes. -/
theorem refl (d : Draft) : Writes job v d d :=
  of_eq rfl rfl rfl rfl rfl fun _ => Or.inl

/-- Lines of a node after lines of the same node. -/
theorem trans (h : Writes job v d e) (h' : Writes job v e f) : Writes job v d f := by
  obtain ⟨own, htrace, hown⟩ := h.trace
  obtain ⟨own', htrace', hown'⟩ := h'.trace
  obtain ⟨bound, hvalues, hbound⟩ := h.values
  obtain ⟨bound', hvalues', hbound'⟩ := h'.values
  refine ⟨h'.level.trans h.level, h'.entered.trans h.entered, h'.barriers.trans h.barriers,
    ⟨own ++ own', by rw [htrace', htrace, List.append_assoc], ?_⟩,
    ⟨bound' ++ bound, by rw [hvalues', hvalues, List.append_assoc], ?_⟩, ?_⟩
  · intro x hx
    exact (List.mem_append.mp hx).elim (hown x) (hown' x)
  · intro x hx
    exact (List.mem_append.mp hx).elim (hbound' x) (hbound x)
  · intro w hw
    rcases h'.deferred w hw with hw | hw
    · exact h.deferred w hw
    · exact Or.inr hw

/-- Reports are not part of the lines. -/
theorem report (d : Draft) (notes : List Diagnostic) : Writes job v d (d.report notes) :=
  of_eq rfl rfl rfl rfl rfl fun _ => Or.inl

/-- Imports are not part of the lines. -/
theorem require (d : Draft) (imports : List String) : Writes job v d (d.require imports) :=
  of_eq rfl rfl rfl rfl rfl fun _ => Or.inl

/-- A return at the end is not part of the lines. -/
theorem defer (d : Draft) : Writes job v d (d.defer v) :=
  of_eq rfl rfl rfl rfl rfl fun w hw => by
    rcases List.mem_append.mp hw with hw | hw
    · exact Or.inl hw
    · exact Or.inr (List.mem_singleton.mp hw)

/-- A line of the node. -/
theorem write (d : Draft) (text : String) : Writes job v d (d.write (some v) text) :=
  ⟨rfl, rfl, rfl, ⟨_, rfl, by simp [Event.origin?]⟩, ⟨[], rfl, by simp⟩, fun _ => Or.inl⟩

/-- The lines of a text of the node. -/
theorem writeLines (d : Draft) (text : String) : Writes job v d (d.writeLines (some v) text) := by
  refine ⟨rfl, rfl, rfl, ⟨_, rfl, ?_⟩, ⟨[], rfl, by simp⟩, fun _ => Or.inl⟩
  intro x hx
  obtain ⟨l, -, rfl⟩ := List.mem_map.mp hx
  rw [Draft.lineEvent]
  split <;> rfl

/-- The values of the node's ports are its variable. -/
theorem bindOutputs {n : Node} (hn : job.graph.node? v = some n) (d : Draft)
    (ports : List String) : Writes job v d (d.bindOutputs v ports (job.nameOf v n)) := by
  refine ⟨rfl, rfl, rfl, ⟨[], by simp [Draft.bindOutputs], by simp⟩, ⟨_, rfl, ?_⟩, fun _ => Or.inl⟩
  intro x hx
  obtain ⟨p, -, rfl⟩ := List.mem_map.mp hx
  exact ⟨rfl, n, hn, rfl⟩

end Draft.Writes

namespace Job

variable {job : Job} {d e : Draft} {v : Nat} {n : Node}

open Draft (Writes)

/-- The filled text of a pattern belongs to its node. -/
theorem writeFilled_writes (hn : job.graph.node? v = some n) (d : Draft) (kind : PatternKind)
    (text : String) : Writes job v d (job.writeFilled d v n kind text) := by
  cases kind with
  | expression => exact (Writes.writeLines d _).trans (.bindOutputs hn _ _)
  | statement =>
    change Writes job v d (List.foldl _ d _)
    generalize ((Text.lines text).map Text.trim).filter _ = lines
    induction lines generalizing d with
    | nil => exact .refl d
    | cons l rest ih => exact (Writes.write d l).trans (ih _)
  | block => exact .writeLines d _

/-- The lines of a pattern belong to its node. -/
theorem writePattern_writes (hn : job.graph.node? v = some n) (d : Draft) (p : Pattern) :
    Writes job v d (job.writePattern d v n p) :=
  (((Writes.report d _).trans (.report _ _)).trans (.require _ _)).trans
    (writeFilled_writes hn _ _ _)

/-- The declaration of an input belongs to its node. -/
theorem writeInput_writes (hn : job.graph.node? v = some n) (d : Draft) :
    Writes job v d (job.writeInput d v n) :=
  (Writes.write d _).trans (.bindOutputs hn _ _)

/-- The return of an output belongs to its node. -/
theorem writeOutput_writes (h : job.writeOutput d v n = .ok e) : Writes job v d e := by
  rw [writeOutput] at h
  split at h
  · obtain rfl := Except.ok.inj h
    exact .defer d
  · split_ifs at h with hnone
    · obtain rfl := Except.ok.inj h
      exact .write d _
    · split at h
      · obtain rfl := Except.ok.inj h
        exact (Writes.report d _).trans (.write _ _)
      · cases h

/-- What is written for a node belongs to it. -/
theorem writeNode_writes (h : job.writeNode d v = .ok e) : Writes job v d e := by
  rw [writeNode, node] at h
  cases hn : job.graph.node? v with
  | none => simp [hn] at h
  | some n =>
    simp only [hn] at h
    split at h
    · obtain rfl := Except.ok.inj h
      exact writePattern_writes hn d _
    · obtain rfl := Except.ok.inj h
      exact .write d _
    · split at h
      · obtain rfl := Except.ok.inj h
        exact writeInput_writes hn d
      · exact writeOutput_writes h
      · obtain rfl := Except.ok.inj h
        exact .refl d

/-- Whatever comes of writing a node, its lines belong to it. -/
theorem writeGuarded_writes (job : Job) (d : Draft) (v : Nat) :
    Writes job v d (job.writeGuarded d v) := by
  rw [writeGuarded]
  split
  · exact writeNode_writes ‹_›
  · exact (Writes.write d _).trans (.report _ _)

/-- The block of a conditional, spelled out. -/
theorem conditionalBlock?_eq_some {b : Block} (h : job.conditionalBlock? d v n = some (b, e)) :
    ∃ p, n.inputs.head? = some p ∧
      b.header = "if " ++ (job.argument d v n p).text ++ ":" ∧
      (let yes := job.graph.branchTargets v thenLabels
      let no := (job.graph.branchTargets v elseLabels).filter fun w => !yes.contains w
      b.arms = ((.thenArm, yes) :: if no.isEmpty then [] else [(.elseArm, no)]) ∧
        b.rest = job.unclaimed v (yes ++ no)) ∧
      e = d.report (job.argument d v n p).notes := by
  obtain ⟨p, hp, hb⟩ := Option.map_eq_some_iff.mp h
  obtain ⟨rfl, rfl⟩ := Prod.mk.inj hb
  exact ⟨p, hp, rfl, ⟨rfl, rfl⟩, rfl⟩

/-- The block of a loop, spelled out. -/
theorem loopBlock?_eq_some {b : Block} (h : job.loopBlock? d v n = some (b, e)) :
    ∃ name collection, job.loopHead? d v n = some (name, collection) ∧
      b.header = "for " ++ name.text ++ " in " ++ collection.text ++ ":" ∧
      b.arms = [(.loopBody, job.graph.branchTargets v bodyLabels)] ∧
      b.rest = job.unclaimed v (job.graph.branchTargets v bodyLabels) ∧
      e = (d.report (name.notes ++ collection.notes)).bindOutputs v (n.outputs.map (·.id))
        name.text := by
  obtain ⟨⟨name, collection⟩, hhead, hb⟩ := Option.map_eq_some_iff.mp h
  obtain ⟨rfl, rfl⟩ := Prod.mk.inj hb
  exact ⟨name, collection, hhead, rfl, rfl, rfl, rfl⟩

/-- A node that becomes a block is a conditional or a loop. -/
theorem block?_eq_some {b : Block} (h : job.block? d v = some (b, e)) :
    ∃ n, job.graph.node? v = some n ∧
      (n.kind = .conditional ∧ job.conditionalBlock? d v n = some (b, e) ∨
        n.kind = .loop ∧ job.loopBlock? d v n = some (b, e)) := by
  obtain ⟨n, hn, hblock⟩ := Option.bind_eq_some_iff.mp h
  refine ⟨n, hn, ?_⟩
  split at hblock
  · exact Or.inl ⟨‹_›, hblock⟩
  · exact Or.inr ⟨‹_›, hblock⟩
  · cases hblock

/-- To become the block of a conditional writes nothing yet. -/
theorem conditionalBlock?_alike {b : Block} (h : job.conditionalBlock? d v n = some (b, e)) :
    Draft.Alike d e := by
  obtain ⟨-, -, -, -, rfl⟩ := conditionalBlock?_eq_some h
  exact ⟨rfl, rfl, rfl, rfl, rfl⟩

/-- To become the block of a loop writes nothing yet. -/
theorem loopBlock?_alike {b : Block} (h : job.loopBlock? d v n = some (b, e)) :
    Draft.Alike d e := by
  obtain ⟨-, -, -, -, -, -, rfl⟩ := loopBlock?_eq_some h
  exact ⟨rfl, rfl, rfl, rfl, rfl⟩

/-- To become a block writes nothing yet. -/
theorem block?_alike {b : Block} (h : job.block? d v = some (b, e)) : Draft.Alike d e := by
  obtain ⟨n, -, ⟨-, hblock⟩ | ⟨-, hblock⟩⟩ := block?_eq_some h
  · exact conditionalBlock?_alike hblock
  · exact loopBlock?_alike hblock

/-- The successors that no arm claims. -/
theorem mem_unclaimed {claimed : List Nat} {w : Nat} :
    w ∈ job.unclaimed v claimed ↔ w ∈ job.graph.successors v ∧ w ∉ claimed := by
  simp [unclaimed, List.mem_filter]

/-- The block of a conditional leads exactly to the successors of its node. -/
theorem conditionalBlock?_targets {b : Block} (h : job.conditionalBlock? d v n = some (b, e))
    (w : Nat) : w ∈ job.graph.successors v ↔ w ∈ b.rest ∨ ∃ x ∈ b.arms, w ∈ x.2 := by
  obtain ⟨-, -, -, ⟨harms, hrest⟩, -⟩ := conditionalBlock?_eq_some h
  have hyes := @FlowGraph.branchTargets_subset job.graph v thenLabels
  have hno := @FlowGraph.branchTargets_subset job.graph v elseLabels
  generalize job.graph.branchTargets v thenLabels = yes at harms hrest hyes
  generalize job.graph.branchTargets v elseLabels = no at harms hrest hno
  have harm : (∃ x ∈ b.arms, w ∈ x.2) ↔ w ∈ yes ∨ w ∈ no ∧ w ∉ yes := by
    rw [harms]
    split
    · rename_i hnone
      have hsub : ∀ u ∈ no, u ∈ yes := by simpa using hnone
      simp only [List.mem_singleton, exists_eq_left]
      exact ⟨Or.inl, fun hw => hw.elim id fun hw => hsub w hw.1⟩
    · simp
  rw [hrest, mem_unclaimed, harm]
  constructor
  · intro hw
    by_cases hin : w ∈ yes ∨ w ∈ no ∧ w ∉ yes
    · exact Or.inr hin
    · refine Or.inl ⟨hw, ?_⟩
      simpa using hin
  · rintro (hw | hw | hw)
    · exact hw.1
    · exact hyes hw
    · exact hno hw.1

/-- The block of a loop leads exactly to the successors of its node. -/
theorem loopBlock?_targets {b : Block} (h : job.loopBlock? d v n = some (b, e)) (w : Nat) :
    w ∈ job.graph.successors v ↔ w ∈ b.rest ∨ ∃ x ∈ b.arms, w ∈ x.2 := by
  obtain ⟨-, -, -, -, harms, hrest, -⟩ := loopBlock?_eq_some h
  have hbody := @FlowGraph.branchTargets_subset job.graph v bodyLabels
  rw [harms, hrest, mem_unclaimed]
  simp only [List.mem_singleton, exists_eq_left]
  constructor
  · intro hw
    by_cases hin : w ∈ job.graph.branchTargets v bodyLabels
    · exact Or.inr hin
    · exact Or.inl ⟨hw, hin⟩
  · rintro (hw | hw)
    · exact hw.1
    · exact hbody hw

/-- A block leads exactly to the successors of its node. -/
theorem block?_targets {b : Block} (h : job.block? d v = some (b, e)) (w : Nat) :
    w ∈ job.graph.successors v ↔ w ∈ b.rest ∨ ∃ x ∈ b.arms, w ∈ x.2 := by
  obtain ⟨n, -, ⟨-, hblock⟩ | ⟨-, hblock⟩⟩ := block?_eq_some h
  · exact conditionalBlock?_targets hblock w
  · exact loopBlock?_targets hblock w

/-- A block has an arm. -/
theorem block?_arms_ne_nil {b : Block} (h : job.block? d v = some (b, e)) : b.arms ≠ [] := by
  obtain ⟨n, -, ⟨-, hblock⟩ | ⟨-, hblock⟩⟩ := block?_eq_some h
  · obtain ⟨-, -, -, ⟨harms, -⟩, -⟩ := conditionalBlock?_eq_some hblock
    simp [harms]
  · obtain ⟨-, -, -, -, harms, -, -⟩ := loopBlock?_eq_some hblock
    simp [harms]

end Job

end FlowScript
