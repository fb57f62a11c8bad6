import FlowScript.Proofs.Arms
import FlowScript.Proofs.Dominance

/-!
# The block of a branch

A conditional or a loop with an input becomes a block. One arm of the block has the targets of the
branch, and edges outside the branch lead to everything else that follows the block.
-/

namespace FlowScript

namespace FlowGraph

/-- A branch of a conditional or a loop with an input: its arm and the labels of its edges. -/
inductive Branch (g : FlowGraph) (c : Nat) : Arm → List String → Prop where
  | yes {n} : g.node? c = some n → n.kind = .conditional → n.inputs ≠ [] →
      Branch g c .thenArm thenLabels
  | no {n} : g.node? c = some n → n.kind = .conditional → n.inputs ≠ [] →
      Branch g c .elseArm elseLabels
  | body {n} : g.node? c = some n → n.kind = .loop → n.inputs ≠ [] →
      Branch g c .loopBody bodyLabels

variable {g : FlowGraph} {c w : Nat} {labels : List String}

/-- A successor that is no target of the branch is reached by an edge outside the branch. -/
theorem avoids_of_not_mem (hw : w ∈ g.successors c) (hnot : w ∉ g.branchTargets c labels) :
    g.Avoids c labels c w := by
  obtain ⟨e, he, hkind, hsource, htarget⟩ := mem_successors.mp hw
  refine ⟨e, he, hkind, hsource, htarget, fun hin => hnot ?_⟩
  exact mem_branchTargets.mpr ⟨e, he, hkind, hsource, htarget, hin.2⟩

/-- No label belongs to both branches of a conditional. -/
theorem labelIn_elseLabels {label : String} (h : Text.labelIn thenLabels label = true) :
    Text.labelIn elseLabels label = false := by
  simp only [Text.labelIn, thenLabels, elseLabels, List.contains_eq_mem, List.mem_cons,
    List.not_mem_nil, or_false, decide_eq_true_eq] at h ⊢
  rcases h with h | h | h <;> rw [h] <;> decide

/-- A target of the first branch of a conditional is reached by an edge outside the second. -/
theorem avoids_elseLabels (hw : w ∈ g.branchTargets c thenLabels) :
    g.Avoids c elseLabels c w := by
  obtain ⟨e, he, hkind, hsource, htarget, hlabel⟩ := mem_branchTargets.mp hw
  refine ⟨e, he, hkind, hsource, htarget, fun hin => ?_⟩
  obtain ⟨l, hl, hthen⟩ := Option.any_eq_true _ _ |>.mp hlabel
  obtain ⟨l', hl', helse⟩ := Option.any_eq_true _ _ |>.mp hin.2
  obtain rfl := Option.some.inj (hl.symm.trans hl')
  rw [labelIn_elseLabels hthen] at helse
  cases helse

end FlowGraph

/-- How a block holds a branch: one of its arms has the targets of the branch, and edges outside the
branch lead to everything else that follows the block. -/
structure Block.Holds (b : Block) (g : FlowGraph) (c : Nat) (arm : Arm) (labels : List String)
    (ys zs : List (Arm × List Nat)) (targets : List Nat) : Prop where
  arms : b.arms = ys ++ (arm, targets) :: zs
  inside : ∀ w ∈ g.branchTargets c labels, ¬ g.Avoids c labels c w → w ∈ targets
  others : ∀ y ∈ ys ++ zs, ∀ w ∈ y.2, g.Avoids c labels c w
  rest : ∀ w ∈ b.rest, g.Avoids c labels c w
  header : ys = [] ∧ (∀ level, IsHeader c arm (.line (some c) level b.header)) ∨
    ys ≠ [] ∧ arm = .elseArm

namespace Job

variable {job : Job} {c : Nat} {arm : Arm} {labels : List String} {w : Nat}

/-- A conditional with an input becomes a block. -/
theorem exists_conditionalBlock {n : Node} (hn : job.graph.node? c = some n)
    (hkind : n.kind = .conditional) (hinputs : n.inputs ≠ []) (d : Draft) :
    ∃ b s, job.block? d c = some (b, s) ∧ job.conditionalBlock? d c n = some (b, s) := by
  obtain ⟨p, ps, hp⟩ := List.exists_cons_of_ne_nil hinputs
  have hshape : job.block? d c = job.conditionalBlock? d c n := by simp [block?, hn, hkind]
  have hsome : (job.conditionalBlock? d c n).isSome := by simp [conditionalBlock?, hp]
  obtain ⟨x, hx⟩ := Option.isSome_iff_exists.mp hsome
  exact ⟨x.1, x.2, hshape.trans hx, hx⟩

/-- A loop with an input becomes a block. -/
theorem exists_loopBlock {n : Node} (hn : job.graph.node? c = some n) (hkind : n.kind = .loop)
    (hinputs : n.inputs ≠ []) (d : Draft) :
    ∃ b s, job.block? d c = some (b, s) ∧ job.loopBlock? d c n = some (b, s) := by
  obtain ⟨p, ps, hp⟩ := List.exists_cons_of_ne_nil hinputs
  have hshape : job.block? d c = job.loopBlock? d c n := by simp [block?, hn, hkind]
  have hsome : (job.loopBlock? d c n).isSome := by
    cases ps <;> simp [loopBlock?, loopHead?, hp]
  obtain ⟨x, hx⟩ := Option.isSome_iff_exists.mp hsome
  exact ⟨x.1, x.2, hshape.trans hx, hx⟩

/-- The node of a branch becomes a block that holds the branch, if the branch has a target that no
other edge leads to. -/
theorem exists_block_of_branch (h : job.graph.Branch c arm labels) (d : Draft)
    (hw : w ∈ job.graph.branchTargets c labels) (honly : ¬ job.graph.Avoids c labels c w) :
    ∃ b s ys zs targets, job.block? d c = some (b, s) ∧
      b.Holds job.graph c arm labels ys zs targets := by
  cases h with
  | @yes n hn hkind hinputs =>
    obtain ⟨b, s, hblock, hcond⟩ := exists_conditionalBlock hn hkind hinputs d
    obtain ⟨p, -, hheader, ⟨harms, hrest⟩, -⟩ := conditionalBlock?_eq_some hcond
    refine ⟨b, s, [], _, _, hblock, harms, fun u hu _ => hu, fun y hy u hu => ?_, fun u hu => ?_,
      .inl ⟨rfl, fun level => ⟨level, _, by rw [hheader]⟩⟩⟩
    · -- the second arm holds only what the first does not
      rw [List.nil_append] at hy
      split at hy
      · cases hy
      · obtain rfl := List.mem_singleton.mp hy
        obtain ⟨helse, hnot⟩ := List.mem_filter.mp hu
        exact FlowGraph.avoids_of_not_mem (FlowGraph.branchTargets_subset helse) (by simpa using hnot)
    · rw [hrest, mem_unclaimed, List.mem_append, not_or] at hu
      exact FlowGraph.avoids_of_not_mem hu.1 hu.2.1
  | @no n hn hkind hinputs =>
    obtain ⟨b, s, hblock, hcond⟩ := exists_conditionalBlock hn hkind hinputs d
    obtain ⟨p, -, -, ⟨harms, hrest⟩, -⟩ := conditionalBlock?_eq_some hcond
    -- a target that only the second branch leads to is none of the first
    have hno : ∀ u ∈ job.graph.branchTargets c elseLabels, ¬ job.graph.Avoids c elseLabels c u →
        u ∈ (job.graph.branchTargets c elseLabels).filter
          fun w => !(job.graph.branchTargets c thenLabels).contains w := by
      intro u hu hnot
      refine List.mem_filter.mpr ⟨hu, ?_⟩
      simpa using fun hthen => hnot (FlowGraph.avoids_elseLabels hthen)
    rw [if_neg (by simpa using List.ne_nil_of_mem (hno w hw honly))] at harms
    refine ⟨b, s, [(.thenArm, _)], [], _, hblock, harms, hno, fun y hy u hu => ?_, fun u hu => ?_,
      .inr ⟨List.cons_ne_nil _ _, rfl⟩⟩
    · rw [List.append_nil, List.mem_singleton] at hy
      subst hy
      exact FlowGraph.avoids_elseLabels hu
    · rw [hrest, mem_unclaimed, List.mem_append, not_or] at hu
      refine FlowGraph.avoids_of_not_mem hu.1 fun helse => hu.2.2 ?_
      refine List.mem_filter.mpr ⟨helse, ?_⟩
      simpa using hu.2.1
  | @body n hn hkind hinputs =>
    obtain ⟨b, s, hblock, hloop⟩ := exists_loopBlock hn hkind hinputs d
    obtain ⟨name, collection, -, hheader, harms, hrest, -⟩ := loopBlock?_eq_some hloop
    refine ⟨b, s, [], [], _, hblock, harms, fun u hu _ => hu, by simp, fun u hu => ?_,
      .inl ⟨rfl, fun level => ⟨level, _, _, by rw [hheader]⟩⟩⟩
    rw [hrest, mem_unclaimed] at hu
    exact FlowGraph.avoids_of_not_mem hu.1 hu.2

end Job

end FlowScript
