import FlowScript.Proofs.Emission
import FlowScript.Proofs.Reach

/-!
# Regions of a block and the nodes that work comes to

A node of a region lies behind the targets of the region. So work that starts at nodes of some sort
comes to nodes of that sort only, as long as edges from nodes of the sort lead to nodes of the sort;
what a block holds back or computes ahead is no exception.
-/

namespace FlowScript.Job

variable {job : Job} {d e : Draft} {b : Block} {v : Nat}

/-- What holds of the targets and is kept along successors holds in a flow region. -/
theorem flowRegion_induction {P : Nat → Prop} {targets : List Nat}
    (hstart : ∀ w ∈ targets, w ∉ d.entered → w ∉ d.barriers → P w)
    (hstep : ∀ u, P u → ∀ w ∈ job.graph.successors u, w ∉ d.entered → w ∉ d.barriers → P w) :
    ∀ v ∈ job.flowRegion d targets, P v := by
  refine reachFrom_sound _ targets [] ?_ ?_ (by simp)
  · intro u hu w hw hadmits
    obtain ⟨hnew, hfree⟩ : w ∉ d.entered ∧ w ∉ d.barriers := by simpa using hadmits
    exact hstep u hu w hw hnew hfree
  · intro w hw hadmits
    obtain ⟨hnew, hfree⟩ : w ∉ d.entered ∧ w ∉ d.barriers := by simpa using hadmits
    exact hstart w hw hnew hfree

/-- The nodes of a flow region have not been entered and are not behind a barrier. -/
theorem flowRegion_free {targets : List Nat} (hv : v ∈ job.flowRegion d targets) :
    v ∉ d.entered ∧ v ∉ d.barriers := by
  refine @flowRegion_induction job d (fun v => v ∉ d.entered ∧ v ∉ d.barriers) targets ?_ ?_ v hv
  · exact fun w _ hnew hfree => ⟨hnew, hfree⟩
  · exact fun u _ w _ hnew hfree => ⟨hnew, hfree⟩

/-- A flow region holds exactly what can be reached through nodes that have not been entered and are
not behind a barrier. -/
theorem mem_flowRegion (hg : job.graph.WellFormed) {targets : List Nat}
    (htargets : ∀ w ∈ targets, w < job.graph.size) :
    v ∈ job.flowRegion d targets ↔ Reachable job.graph.successors
      (fun v => !d.entered.contains v && !d.barriers.contains v) targets v :=
  mem_reach (fun _ _ _ hw => (hg.leads_lt (FlowGraph.mem_successors.mp hw)).2) htargets v

/-- A target that is not met lies in the flow region of the targets. -/
theorem mem_flowRegion_of_target (hg : job.graph.WellFormed) {targets : List Nat}
    (htargets : ∀ w ∈ targets, w < job.graph.size) {w : Nat} (hw : w ∈ targets)
    (hfree : ¬ d.Meets w) : w ∈ job.flowRegion d targets :=
  (mem_flowRegion hg htargets).mpr ⟨w, hw, by simpa [Draft.Meets] using hfree, .refl⟩

/-- A flow region goes on to every successor that is not met. -/
theorem mem_flowRegion_of_leads (hg : job.graph.WellFormed) {targets : List Nat}
    (htargets : ∀ w ∈ targets, w < job.graph.size) {u w : Nat} (hu : u ∈ job.flowRegion d targets)
    (huw : job.graph.Leads u w) (hfree : ¬ d.Meets w) : w ∈ job.flowRegion d targets :=
  (mem_flowRegion hg htargets).mpr (((mem_flowRegion hg htargets).mp hu).tail
    (FlowGraph.mem_successors.mpr huw) (by simpa [Draft.Meets] using hfree))

/-- What holds of the values that a region reads and is kept along dependencies holds of the needs
of the region. -/
theorem dataNeeds_induction {P : Nat → Prop} {region : List Nat}
    (hstart : ∀ v ∈ region, ∀ u ∈ job.graph.dependencies v, job.graph.isDataOnly u = true → P u)
    (hstep : ∀ v, P v → ∀ u ∈ job.graph.dependencies v, job.graph.isDataOnly u = true → P u) :
    ∀ v ∈ job.dataNeeds d region, P v := by
  refine reachFrom_sound _ _ [] ?_ ?_ (by simp)
  · intro v hv u hu hadmits
    simp only [Bool.and_eq_true] at hadmits
    exact hstep v hv u hu hadmits.2
  · intro u hu hadmits
    obtain ⟨v, hv, huv⟩ := List.mem_flatMap.mp hu
    simp only [Bool.and_eq_true] at hadmits
    exact hstart v hv u huv hadmits.2

/-- A shared node lies in a region. -/
theorem exists_of_shared {regions : List (List Nat)} (h : shared regions v = true) :
    ∃ r ∈ regions, v ∈ r := by
  have hpos : 0 < (regions.filter (·.contains v)).length := by
    have hlt : 1 < (regions.filter (·.contains v)).length := by simpa [shared] using h
    omega
  obtain ⟨r, hr⟩ := List.exists_mem_of_length_pos hpos
  obtain ⟨hmem, hin⟩ := List.mem_filter.mp hr
  exact ⟨r, hmem, by simpa using hin⟩

/-- A node is shared exactly if two of the regions hold it. -/
theorem shared_iff {rs : List (List Nat)} :
    shared rs v = true ↔ ∃ r r', [r, r'].Sublist rs ∧ v ∈ r ∧ v ∈ r' := by
  rw [shared, decide_eq_true_eq]
  constructor
  · intro hlt
    match hfound : rs.filter (·.contains v) with
    | [] | [_] =>
      rw [hfound] at hlt
      simp at hlt
    | r :: r' :: more =>
      have hpair : [r, r'].Sublist (rs.filter (·.contains v)) := by
        rw [hfound]
        exact ((List.nil_sublist more).cons_cons r').cons_cons r
      refine ⟨r, r', hpair.trans List.filter_sublist, ?_, ?_⟩
      · simpa using (List.mem_filter.mp (hpair.subset List.mem_cons_self)).2
      · simpa using (List.mem_filter.mp (hpair.subset (List.mem_cons_of_mem _ List.mem_cons_self))).2
  · rintro ⟨r, r', hpair, hr, hr'⟩
    have hle := (hpair.filter (·.contains v)).length_le
    have hboth : [r, r'].filter (·.contains v) = [r, r'] := by simp [hr, hr']
    rw [hboth] at hle
    exact hle

/-- A node that lies in every region in which a shared node lies is shared. -/
theorem shared_of_shared {w : Nat} {regions : List (List Nat)} (hshared : shared regions v = true)
    (h : ∀ r ∈ regions, v ∈ r → w ∈ r) : shared regions w = true := by
  have hle : (regions.filter (·.contains v)).length ≤ (regions.filter (·.contains w)).length := by
    rw [← List.countP_eq_length_filter, ← List.countP_eq_length_filter]
    refine List.countP_mono_left fun r hr hvr => ?_
    simpa using h r hr (by simpa using hvr)
  have hlt : 1 < (regions.filter (·.contains v)).length := by simpa [shared] using hshared
  simpa [shared] using Nat.lt_of_lt_of_le hlt hle

/-- A node that lies in one region only is not shared. -/
theorem shared_append_cons {rs rs' : List (List Nat)} {r : List Nat}
    (h : ∀ s ∈ rs ++ rs', v ∉ s) : shared (rs ++ r :: rs') v = false := by
  have hnone {ss : List (List Nat)} (hss : ∀ s ∈ ss, v ∉ s) :
      ss.filter (·.contains v) = [] := by
    simpa [List.filter_eq_nil_iff] using hss
  have hrs := hnone fun s hs => h s (List.mem_append_left _ hs)
  have hrs' := hnone fun s hs => h s (List.mem_append_right _ hs)
  simp only [shared, List.filter_append, List.filter_cons, hrs, hrs', List.nil_append]
  split <;> simp

/-- The regions of a block are the flow regions of its arms and of what runs after it. -/
theorem mem_regions {r : List Nat} : r ∈ job.regions d b ↔
    r = job.flowRegion d b.rest ∨ ∃ x ∈ b.arms, r = job.flowRegion d x.2 := by
  simp only [regions, List.map_map, List.mem_append, List.mem_map, Function.comp_apply,
    List.mem_singleton]
  constructor
  · intro h
    rcases h with ⟨x, hx, rfl⟩ | rfl
    · exact Or.inr ⟨x, hx, rfl⟩
    · exact Or.inl rfl
  · intro h
    rcases h with rfl | ⟨x, hx, rfl⟩
    · exact Or.inr rfl
    · exact Or.inl ⟨x, hx, rfl⟩

/-- A join lies in a region. -/
theorem exists_of_mem_joins (hv : v ∈ job.joins d b) : ∃ r ∈ job.regions d b, v ∈ r :=
  exists_of_shared (List.mem_filter.mp hv).2

/-- A node that is walked for some region lies in a region. -/
theorem exists_of_mem_walked {r : List Nat}
    (hr : r ∈ walked ((b.arms.map Prod.snd).map (job.flowRegion d)) (job.flowRegion d b.rest)
      (job.joins d b)) (hv : v ∈ r) : ∃ s ∈ job.regions d b, v ∈ s := by
  simp only [walked, List.mem_append, List.mem_map, List.mem_singleton] at hr
  rcases hr with ⟨s, ⟨targets, ⟨x, hx, rfl⟩, rfl⟩, rfl⟩ | rfl
  · exact ⟨_, mem_regions.mpr (.inr ⟨x, hx, rfl⟩), (List.mem_filter.mp hv).1⟩
  · rcases List.mem_append.mp hv with hv | hv
    · exact ⟨_, mem_regions.mpr (.inl rfl), hv⟩
    · exact exists_of_mem_joins hv

/-- What the regions of a block need are values that nodes of the regions read, directly or through
other values. -/
theorem regionNeeds_induction {P : Nat → Prop}
    (hstart : ∀ r ∈ job.regions d b, ∀ v ∈ r, ∀ u ∈ job.graph.dependencies v,
      job.graph.isDataOnly u = true → P u)
    (hstep : ∀ v, P v → ∀ u ∈ job.graph.dependencies v, job.graph.isDataOnly u = true → P u) :
    ∀ r ∈ job.regionNeeds d b, ∀ v ∈ r, P v := by
  intro r hr
  obtain ⟨s, hs, rfl⟩ := List.mem_map.mp hr
  refine dataNeeds_induction (fun v hv => ?_) hstep
  obtain ⟨t, ht, hvt⟩ := exists_of_mem_walked hs hv
  exact hstart t ht v hvt

/-- What the regions of a block need takes no part in the flow of execution. -/
theorem regionNeeds_isDataOnly :
    ∀ r ∈ job.regionNeeds d b, ∀ v ∈ r, job.graph.isDataOnly v = true :=
  regionNeeds_induction (fun _ _ _ _ _ _ hdata => hdata) (fun _ _ _ _ hdata => hdata)

/-- Two sorts of nodes, values and nodes of the flow, that edges do not leave. What a node of the flow
reads and what follows it count only as long as it is not one of the old nodes. -/
structure Spread (job : Job) (old : List Nat) (V F : Nat → Prop) : Prop where
  values : ∀ v, V v → ∀ u ∈ job.graph.dependencies v, V u
  reads : ∀ v, F v → v ∉ old → ∀ u ∈ job.graph.dependencies v, V u
  flow : ∀ v, F v → v ∉ old → ∀ w ∈ job.graph.successors v, F w

end FlowScript.Job

namespace FlowScript

/-- A piece of work on values of one sort and on nodes of the flow of another. -/
def Task.Of (V F : Nat → Prop) : Task → Prop
  | .value v => V v
  | .values vs => ∀ v ∈ vs, V v
  | .hoists _ needs _ => ∀ r ∈ needs, ∀ v ∈ r, V v
  | .flow v => F v
  | .flows vs => ∀ v ∈ vs, F v
  | .arms _ xs => ∀ x ∈ xs, ∀ v ∈ x.2, F v
  | .block _ b => ∀ v, (v ∈ b.rest ∨ ∃ x ∈ b.arms, v ∈ x.2) → F v

namespace Job

variable {job : Job} {d e : Draft} {b : Block} {old : List Nat} {V F : Nat → Prop}

/-- The nodes of a flow region are of the sort of its targets, and none of them is old. -/
theorem Spread.flowRegion_new (h : Spread job old V F) (hold : ∀ v ∈ old, d.Meets v)
    {targets : List Nat} (htargets : ∀ w ∈ targets, F w) :
    ∀ v ∈ job.flowRegion d targets, F v ∧ v ∉ old := by
  have hnew {w : Nat} (hentered : w ∉ d.entered) (hfree : w ∉ d.barriers) : w ∉ old :=
    fun hin => (hold w hin).elim hentered hfree
  exact flowRegion_induction (fun w hw hentered hfree => ⟨htargets w hw, hnew hentered hfree⟩)
    (fun u hu w hw hentered hfree => ⟨h.flow u hu.1 hu.2 w hw, hnew hentered hfree⟩)

/-- The nodes of a flow region are of the sort of its targets. -/
theorem Spread.flowRegion (h : Spread job old V F) (hold : ∀ v ∈ old, d.Meets v)
    {targets : List Nat} (htargets : ∀ w ∈ targets, F w) : ∀ v ∈ job.flowRegion d targets, F v :=
  fun v hv => (h.flowRegion_new hold htargets v hv).1

/-- The nodes in the regions of a block are of the sort of its targets, and none of them is old. -/
theorem Spread.regions (h : Spread job old V F) (hold : ∀ v ∈ old, d.Meets v)
    (hb : ∀ v, (v ∈ b.rest ∨ ∃ x ∈ b.arms, v ∈ x.2) → F v) :
    ∀ r ∈ job.regions d b, ∀ v ∈ r, F v ∧ v ∉ old := by
  intro r hr
  rcases mem_regions.mp hr with rfl | ⟨x, hx, rfl⟩
  · exact h.flowRegion_new hold fun w hw => hb w (.inl hw)
  · exact h.flowRegion_new hold fun w hw => hb w (.inr ⟨x, hx, hw⟩)

/-- The nodes that a block holds back are of the sort of its targets. -/
theorem Spread.held (h : Spread job old V F) (hold : ∀ v ∈ old, d.Meets v)
    (hb : ∀ v, (v ∈ b.rest ∨ ∃ x ∈ b.arms, v ∈ x.2) → F v) : ∀ v ∈ job.held d b, F v := by
  intro v hv
  obtain ⟨r, hr, hvr⟩ := exists_of_mem_joins (List.mem_filter.mp hv).1
  exact (h.regions hold hb r hr v hvr).1

/-- What the regions of a block need are values of the sort that its targets read. -/
theorem Spread.regionNeeds (h : Spread job old V F) (hold : ∀ v ∈ old, d.Meets v)
    (hb : ∀ v, (v ∈ b.rest ∨ ∃ x ∈ b.arms, v ∈ x.2) → F v) :
    ∀ r ∈ job.regionNeeds d b, ∀ v ∈ r, V v := by
  refine regionNeeds_induction (fun r hr v hv u hu _ => ?_) (fun v hv u hu _ => h.values v hv u hu)
  obtain ⟨hflow, hnew⟩ := h.regions hold hb r hr v hv
  exact h.reads v hflow hnew u hu

/-- Work enters only values of the sort that it starts from, and of the nodes of the flow only such
that are not behind a barrier. -/
theorem Emits.enters_free {t : Task} (h : Emits job t d e) (hspread : Spread job old V F)
    (hold : ∀ v ∈ old, d.Meets v) (ht : t.Of V F) :
    ∀ v ∈ e.entered, v ∈ d.entered ∨ V v ∨ F v ∧ v ∉ d.barriers := by
  -- work after work, where the second starts from what the first has entered
  have hchain {d e f : Draft} (hext : Draft.Extends d e)
      (hfirst : ∀ v ∈ e.entered, v ∈ d.entered ∨ V v ∨ F v ∧ v ∉ d.barriers)
      (hsecond : (∀ v ∈ old, e.Meets v) →
        ∀ v ∈ f.entered, v ∈ e.entered ∨ V v ∨ F v ∧ v ∉ e.barriers)
      (hold : ∀ v ∈ old, d.Meets v) :
      ∀ v ∈ f.entered, v ∈ d.entered ∨ V v ∨ F v ∧ v ∉ d.barriers := by
    intro v hv
    rcases hsecond (fun u hu => (hold u hu).mono hext) v hv with hv | hv
    · exact hfirst v hv
    · exact .inr (hext.barriers ▸ hv)
  have hnewer {d : Draft} {v : Nat} (hnew : v ∉ d.entered) (hfree : v ∉ d.barriers)
      (hold : ∀ u ∈ old, d.Meets u) : v ∉ old := fun hin => (hold v hin).elim hnew hfree
  -- a node of the flow and what it reads
  have hread {d e : Draft} {v : Nat} (hfree : v ∉ d.barriers) (hnew : v ∉ d.entered) (hv : F v)
      (ih : (∀ u ∈ old, (d.enter v).Meets u) → (∀ u ∈ job.graph.dependencies v, V u) →
        ∀ u ∈ e.entered, u ∈ (d.enter v).entered ∨ V u ∨ F u ∧ u ∉ (d.enter v).barriers)
      (hold : ∀ u ∈ old, d.Meets u) :
      ∀ u ∈ e.entered, u ∈ d.entered ∨ V u ∨ F u ∧ u ∉ d.barriers := by
    refine hchain (Draft.enter_extends hnew) (fun u hu => ?_)
      (fun hold' => ih hold' (hspread.reads v hv (hnewer hnew hfree hold))) hold
    rcases Draft.mem_enter.mp hu with hu | rfl
    · exact .inl hu
    · exact .inr (.inr ⟨hv, hfree⟩)
  have hreads {d e : Draft} {v : Nat} (hnew : v ∉ d.entered)
      (hdeps : Emits job (.values (job.graph.dependencies v)) (d.enter v) e) : Draft.Extends d e :=
    (Draft.enter_extends hnew).trans hdeps.extends
  induction h with
  | value_skip | values_nil | hoists_nil | flow_skip | flows_nil | arms_nil =>
    exact fun v hv => .inl hv
  | @value_enter v d e hnew _ ih =>
    rw [writeAlone_entered]
    refine hchain (Draft.enter_extends hnew) (fun u hu => ?_)
      (fun hold => ih hold (hspread.values _ ht)) hold
    rcases Draft.mem_enter.mp hu with hu | rfl
    · exact .inl hu
    · exact .inr (.inl ht)
  | values_cons hfirst _ ih ih' | flows_cons hfirst _ ih ih' =>
    exact hchain hfirst.extends (ih hold (ht _ List.mem_cons_self))
      (fun hold => ih' hold fun u hu => ht u (List.mem_cons_of_mem _ hu)) hold
  | hoists_take hshared _ hfirst _ ih ih' =>
    obtain ⟨r, hr, hv⟩ := exists_of_shared hshared
    exact hchain hfirst.extends (ih hold (ht r hr _ hv)) (fun hold => ih' hold ht) hold
  | hoists_leave _ _ ih => exact ih hold ht
  | @flow_plain v d e f hfree hnew hdeps _ _ _ ihDeps ih =>
    have hwrites := writeGuarded_writes job e v
    exact hchain ((hreads hnew hdeps).trans hwrites.extends)
      (hwrites.entered ▸ hread hfree hnew ht ihDeps hold)
      (fun hold' => ih hold' (hspread.flow v ht (hnewer hnew hfree hold))) hold
  | @flow_scope v d e f hfree hnew hdeps _ _ _ ihDeps ih =>
    have hwrites := writeGuarded_writes job e v
    refine hchain ((hreads hnew hdeps).trans hwrites.extends)
      (hwrites.entered ▸ hread hfree hnew ht ihDeps hold) (fun hold' => ih hold' ?_) hold
    intro x hx
    obtain rfl := List.mem_singleton.mp hx
    exact hspread.flow v ht (hnewer hnew hfree hold)
  | @flow_block v d e b s f hfree hnew hdeps hblock _ ihDeps ih =>
    have halike := block?_alike hblock
    refine hchain ((hreads hnew hdeps).trans halike.extends)
      (halike.entered ▸ hread hfree hnew ht ihDeps hold) (fun hold' => ih hold' fun w hw => ?_) hold
    exact hspread.flow v ht (hnewer hnew hfree hold) w ((block?_targets hblock w).mpr hw)
  | @block owner b d e f h i hhoists harms hrest _ ihHoists ihArms ihRest ihHeld =>
    have hheld : ∀ v ∈ job.held d b, v ∉ e.barriers := hhoists.extends.barriers ▸ held_free
    have hletGo := Draft.letGo_extends hheld ((Draft.write_extends _ _ _).trans harms.extends)
    refine hchain hhoists.extends (ihHoists hold (hspread.regionNeeds hold ht))
      (fun holdArms => ?_) hold
    refine hchain hletGo (fun v hv => ?_) (fun holdRest => ?_) holdArms
    · -- while the arms are walked, more nodes are behind barriers
      rcases ihArms (fun u hu => (holdArms u hu).imp_right (List.mem_append_left _))
        (fun x hx v hv => ht v (.inr ⟨x, hx, hv⟩)) v hv with hv | hv | hv
      · exact .inl hv
      · exact .inr (.inl hv)
      · exact .inr (.inr ⟨hv.1, fun hin => hv.2 (List.mem_append_left _ hin)⟩)
    · exact hchain hrest.extends (ihRest holdRest fun v hv => ht v (.inl hv))
        (fun holdHeld => ihHeld holdHeld (hspread.held hold ht)) holdRest
  | @arms_cons owner arm targets rest d e f harm _ ihArm ihRest =>
    have hopened := ihArm hold (ht _ List.mem_cons_self)
    refine hchain ((Draft.endArm_extends harm.extends).trans (Draft.nextArm_extends _ _)) ?_
      (fun hold => ihRest hold fun x hx => ht x (List.mem_cons_of_mem _ hx)) hold
    rw [Draft.nextArm_entered, Draft.endArm_entered]
    exact hopened

/-- Work enters only nodes of the sorts that it starts from. -/
theorem Emits.enters_only {t : Task} (h : Emits job t d e) (hspread : Spread job old V F)
    (hold : ∀ v ∈ old, v ∈ d.entered) (ht : t.Of V F) :
    ∀ v ∈ e.entered, v ∈ d.entered ∨ V v ∨ F v := by
  intro v hv
  rcases h.enters_free hspread (fun u hu => .inl (hold u hu)) ht v hv with hv | hv | hv
  · exact .inl hv
  · exact .inr (.inl hv)
  · exact .inr (.inr hv.1)

end Job

end FlowScript
