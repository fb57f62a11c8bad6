import FlowScript.Proofs.Emission

/-!
# The budget suffices

A walk whose budget covers the pending nodes is done by the rules that know no budget. The number of
pending nodes falls with every node that is entered and never rises, so the budget of a nested walk
covers the pending nodes again, at every place of the lists that the walks go through.
-/

namespace FlowScript.Job

variable {job : Job} {d : Draft} {budget : Nat}

/-- Entering values one after the other. -/
theorem values_emits {walk : Nat → Draft → Draft} (vs : List Nat)
    (hwalk : ∀ v ∈ vs, ∀ d, job.pending d ≤ budget → Emits job (.value v) d (walk v d))
    (hd : job.pending d ≤ budget) :
    Emits job (.values vs) d (vs.foldl (fun d v => walk v d) d) := by
  induction vs generalizing d with
  | nil => exact .values_nil
  | cons v vs ih =>
    have hfirst := hwalk v List.mem_cons_self d hd
    exact .values_cons hfirst (ih (fun u hu => hwalk u (List.mem_cons_of_mem _ hu))
      (Nat.le_trans (pending_le_of_extends hfirst.extends) hd))

/-- A budget that covers the pending nodes suffices to enter a value. -/
theorem standalone_emits (hg : job.graph.WellFormed) (budget : Nat) {v : Nat} {d : Draft}
    (hv : v < job.graph.size) (hd : job.pending d ≤ budget) :
    Emits job (.value v) d (job.standalone budget v d) := by
  induction budget generalizing v d with
  | zero => exact .value_skip (entered_of_pending_zero hd hv)
  | succ budget ih =>
    rw [standalone]
    split_ifs with hskip hscope
    · exact .value_skip (by simpa using hskip)
    all_goals
      have hnew : v ∉ d.entered := by simpa using hskip
      have hdeps := values_emits (job.graph.dependencies v)
        (fun u hu e he => ih (hg.feeds_lt (FlowGraph.mem_dependencies.mp hu)).1 he)
        (Nat.le_of_lt_succ (Nat.lt_of_lt_of_le (pending_enter hv hnew) hd))
      have hdone := Emits.value_enter hnew hdeps
      simpa only [writeAlone, hscope, if_true, if_false, Bool.false_eq_true] using hdone

/-- Entering a node enters everything it reads. -/
theorem enter_emits (hg : job.graph.WellFormed) (v : Nat) (d : Draft) :
    Emits job (.values (job.graph.dependencies v)) (d.enter v) (job.enter v d) :=
  values_emits _ (fun _ hu _ hd =>
    standalone_emits hg _ (hg.feeds_lt (FlowGraph.mem_dependencies.mp hu)).1 hd)
    (pending_le_size job _)

/-- Computing the values that regions share. -/
theorem hoist_emits (hg : job.graph.WellFormed) (owner : Nat) (needs : List (List Nat))
    (order : List Nat) (horder : ∀ v ∈ order, v < job.graph.size) (d : Draft) :
    Emits job (.hoists owner needs order) d (order.foldl (fun d v =>
      if shared needs v && job.hoistable d owner v then job.standalone job.graph.size v d
      else d) d) := by
  induction order generalizing d with
  | nil => exact .hoists_nil
  | cons v order ih =>
    have hrest := fun d => ih (fun u hu => horder u (List.mem_cons_of_mem _ hu)) d
    rw [List.foldl_cons]
    split
    · rename_i htake
      obtain ⟨hshared, hhoistable⟩ := Bool.and_eq_true_iff.mp htake
      exact .hoists_take hshared hhoistable
        (standalone_emits hg _ (horder v List.mem_cons_self) (pending_le_size job d)) (hrest _)
    · rename_i hleave
      exact .hoists_leave hleave (hrest d)

section Walk

variable {walk : Nat → Draft → Draft}

/-- Walking to nodes one after the other. -/
theorem walkAll_emits (vs : List Nat)
    (hwalk : ∀ v < job.graph.size, ∀ d, job.pending d ≤ budget → Emits job (.flow v) d (walk v d))
    (hvs : ∀ v ∈ vs, v < job.graph.size) (hd : job.pending d ≤ budget) :
    Emits job (.flows vs) d (walkAll walk vs d) := by
  induction vs generalizing d with
  | nil => exact .flows_nil
  | cons v vs ih =>
    have hfirst := hwalk v (hvs v List.mem_cons_self) d hd
    exact .flows_cons hfirst (ih (fun u hu => hvs u (List.mem_cons_of_mem _ hu))
      (Nat.le_trans (pending_le_of_extends hfirst.extends) hd))

/-- Writing the arms of a block. -/
theorem walkArms_emits (owner : Nat) (arms : List (Arm × List Nat))
    (hwalk : ∀ v < job.graph.size, ∀ d, job.pending d ≤ budget → Emits job (.flow v) d (walk v d))
    (harms : ∀ x ∈ arms, ∀ v ∈ x.2, v < job.graph.size) (hd : job.pending d ≤ budget) :
    Emits job (.arms owner arms) d (walkArms walk owner arms d) := by
  induction arms generalizing d with
  | nil => exact .arms_nil
  | cons x arms ih =>
    obtain ⟨arm, targets⟩ := x
    have hfirst : Emits job (.flows targets) (d.openArm owner arm)
        (walkAll walk targets (d.openArm owner arm)) :=
      walkAll_emits targets hwalk (harms _ List.mem_cons_self) hd
    refine .arms_cons hfirst (ih (fun y hy => harms y (List.mem_cons_of_mem _ hy)) ?_)
    have hended := (Draft.endArm_extends hfirst.extends).trans (Draft.nextArm_extends _ arms)
    exact Nat.le_trans (pending_le_of_extends hended) hd

/-- The regions of a block are split by computing what they share and holding back its joins. -/
theorem splitRegions_eq (hjob : job.WellFormed) (owner : Nat) (b : Block) (d : Draft) :
    let e := job.hoist owner (job.regionNeeds d b) d
    job.splitRegions owner (b.arms.map Prod.snd) b.rest d =
      (job.held d b, e.hold (job.held d b)) := by
  intro e
  have hhoist : Emits job (.hoists owner (job.regionNeeds d b) job.order) d e :=
    hoist_emits hjob.graph owner _ job.order (fun _ => hjob.mem_order.mp) d
  have hheld : (job.joins d b).filter (fun v => !e.barriers.contains v) = job.held d b := by
    rw [held, hhoist.extends.barriers]
  change ((job.joins d b).filter (fun v => !e.barriers.contains v),
    e.hold ((job.joins d b).filter fun v => !e.barriers.contains v)) = _
  rw [hheld]

/-- Writing a block and what runs after it. -/
theorem walkBlock_emits (hjob : job.WellFormed) (owner : Nat) (b : Block)
    (hwalk : ∀ v < job.graph.size, ∀ d, job.pending d ≤ budget → Emits job (.flow v) d (walk v d))
    (htargets : ∀ v, (v ∈ b.rest ∨ ∃ x ∈ b.arms, v ∈ x.2) → v < job.graph.size)
    (hd : job.pending d ≤ budget) :
    Emits job (.block owner b) d (job.walkBlock walk owner b d) := by
  have hhoist : Emits job (.hoists owner (job.regionNeeds d b) job.order) d
      (job.hoist owner (job.regionNeeds d b) d) :=
    hoist_emits hjob.graph owner _ job.order (fun _ => hjob.mem_order.mp) d
  rw [walkBlock, splitRegions_eq hjob]
  generalize job.hoist owner (job.regionNeeds d b) d = e at hhoist ⊢
  have he : job.pending e ≤ budget := Nat.le_trans (pending_le_of_extends hhoist.extends) hd
  have harms : Emits job (.arms owner b.arms)
      ((e.hold (job.held d b)).write (some owner) b.header) _ :=
    walkArms_emits owner b.arms hwalk (fun x hx v hv => htargets v (.inr ⟨x, hx, hv⟩)) he
  have hafter := Nat.le_trans (pending_le_of_extends harms.extends) he
  have hrest : Emits job (.flows b.rest) (Draft.letGo _ (job.held d b)) _ :=
    walkAll_emits b.rest hwalk (fun v hv => htargets v (.inl hv)) hafter
  have hheld : Emits job (.flows (job.held d b)) _ _ :=
    walkAll_emits (job.held d b) hwalk
      (fun v hv => hjob.mem_order.mp (List.mem_filter.mp (List.mem_filter.mp hv).1).1)
      (Nat.le_trans (pending_le_of_extends hrest.extends) hafter)
  exact .block hhoist harms hrest hheld

end Walk

/-- A budget that covers the pending nodes suffices to follow the flow. -/
theorem flow_emits (hjob : job.WellFormed) (budget : Nat) {v : Nat} {d : Draft}
    (hv : v < job.graph.size) (hd : job.pending d ≤ budget) :
    Emits job (.flow v) d (job.flow budget v d) := by
  induction budget generalizing v d with
  | zero => exact .flow_skip (.inr (entered_of_pending_zero hd hv))
  | succ budget ih =>
    rw [flow]
    split_ifs with hskip
    · exact .flow_skip (by simpa using hskip)
    · obtain ⟨hfree, hnew⟩ : v ∉ d.barriers ∧ v ∉ d.entered := by simpa using hskip
      have hdeps := enter_emits hjob.graph v d
      have hpending : job.pending (job.enter v d) ≤ budget :=
        Nat.le_trans (pending_le_of_extends hdeps.extends)
          (Nat.le_of_lt_succ (Nat.lt_of_lt_of_le (pending_enter hv hnew) hd))
      have hsuccessors : ∀ w ∈ job.graph.successors v, w < job.graph.size := fun w hw =>
        (hjob.graph.leads_lt (FlowGraph.mem_successors.mp hw)).2
      dsimp only
      split
      · rename_i b e hblock
        refine .flow_block hfree hnew hdeps hblock (walkBlock_emits hjob v b (fun v hv d => ih hv)
          (fun w hw => hsuccessors w ((block?_targets hblock w).mpr hw)) ?_)
        exact Nat.le_trans (pending_le_of_extends (block?_alike hblock).extends) hpending
      · rename_i hblock
        have hwritten := Nat.le_trans
          (pending_le_of_extends (writeGuarded_writes job (job.enter v d) v).extends) hpending
        simp only [walkPlain]
        split_ifs with hscope
        · exact .flow_scope hfree hnew hdeps hblock hscope
            (walkArms_emits v [(.scope, job.graph.successors v)] (fun v hv d => ih hv)
              (by simpa using hsuccessors) hwritten)
        · exact .flow_plain hfree hnew hdeps hblock (by simpa using hscope)
            (walkAll_emits _ (fun v hv d => ih hv) hsuccessors hwritten)

end FlowScript.Job
