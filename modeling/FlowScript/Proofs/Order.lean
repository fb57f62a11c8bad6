import FlowScript.Proofs.Links
import FlowScript.Schedule.Order
import Mathlib.Logic.Basic

/-!
# The order of the schedule

The depth-first walk puts every node in order once. A need of a node is either put in order before
it, or recorded as closing a cycle as often as it is listed, and never both. What carries the walk
is an invariant about the nodes in progress: none of them is in order yet, each of them depends on
the node that is worked on, and only needs of theirs are still open.
-/

namespace FlowScript.Schedule

open Relation (ReflTransGen TransGen)

variable {size : Nat} {needs : Nat → List Nat} {path : List Nat} {v : Nat} {s : Schedule}

/-- One node stands before another in the order of a schedule. -/
def Before (s : Schedule) (a b : Nat) : Prop :=
  s.order.idxOf a < s.order.idxOf b

instance (s : Schedule) (a b : Nat) : Decidable (s.Before a b) :=
  inferInstanceAs (Decidable (_ < _))

/-- What holds while the nodes of `path` are in progress. -/
structure Sound (size : Nat) (needs : Nat → List Nat) (path : List Nat) (s : Schedule) : Prop where
  nodup : s.order.Nodup
  within : ∀ v ∈ s.order, v < size
  open_path : ∀ v ∈ path, v ∉ s.order
  /-- A need of a node in order stands before it or is recorded each time it is listed. -/
  settled : ∀ v ∈ s.order, ∀ a,
    s.cycles.count ⟨a, v⟩ = if s.Before a v then 0 else (needs v).count a
  /-- A recorded edge is a need, and it lies on a cycle. -/
  closing : ∀ c ∈ s.cycles, c.node ∈ needs c.via ∧
    ReflTransGen (fun a b => a ∈ needs b) c.via c.node
  known : ∀ c ∈ s.cycles, c.via ∈ s.order ∨ c.via ∈ path

/-- The walk starts without any node. -/
theorem sound_empty : Sound size needs [] ⟨[], []⟩ where
  nodup := List.nodup_nil
  within := by simp
  open_path := by simp
  settled := by simp
  closing := by simp
  known := by simp

/-- A node goes into progress without any recorded need. -/
theorem Sound.push (h : Sound size needs path s)
    (hnew : v ∉ s.order) : Sound size needs (v :: path) s where
  nodup := h.nodup
  within := h.within
  open_path := by
    intro u hu
    rcases List.mem_cons.mp hu with rfl | hu
    · exact hnew
    · exact h.open_path u hu
  settled := h.settled
  closing := h.closing
  known c hc := (h.known c hc).imp_right (List.mem_cons_of_mem _)

/-- Recording an edge to a node in progress keeps the invariant. -/
theorem Sound.closeCycle {d : Nat} (h : Sound size needs path s) (hv : v ∈ path) (hneed : d ∈ needs v)
    (hback : ReflTransGen (fun a b => a ∈ needs b) v d) :
    Sound size needs path (s.closeCycle d v) where
  nodup := h.nodup
  within := h.within
  open_path := h.open_path
  settled := by
    intro w hw a
    have hne : (⟨d, v⟩ : BackEdge) ≠ ⟨a, w⟩ := by
      rintro ⟨⟩
      exact h.open_path v hv hw
    have hcount : (s.closeCycle d v).cycles.count ⟨a, w⟩ = s.cycles.count ⟨a, w⟩ := by
      simp [Schedule.closeCycle, List.count_append, hne]
    rw [hcount]
    exact h.settled w hw a
  closing := by
    intro c hc
    rcases List.mem_append.mp hc with hc | hc
    · exact h.closing c hc
    · obtain rfl := List.mem_singleton.mp hc
      exact ⟨hneed, hback⟩
  known := by
    intro c hc
    rcases List.mem_append.mp hc with hc | hc
    · exact h.known c hc
    · obtain rfl := List.mem_singleton.mp hc
      exact Or.inr hv

/-- Appending a node keeps the positions of the nodes in order, and what stands before them. -/
theorem before_append {order : List Nat} {new : List Nat} {a w : Nat} (hw : w ∈ order) :
    (order ++ new).idxOf a < (order ++ new).idxOf w ↔ order.idxOf a < order.idxOf w := by
  rw [List.idxOf_append_of_mem hw]
  have hlt := List.idxOf_lt_length_of_mem hw
  by_cases ha : a ∈ order
  · rw [List.idxOf_append_of_mem ha]
  · rw [List.idxOf_append_of_notMem ha, List.idxOf_eq_length ha]
    omega

/-- What stands before a node that is put at the end are the nodes in order. -/
theorem before_finish (hnew : v ∉ s.order) (a : Nat) :
    (s.finish v).Before a v ↔ a ∈ s.order := by
  simp only [Before, Schedule.finish]
  rw [List.idxOf_append_of_notMem hnew]
  by_cases ha : a ∈ s.order
  · have hlt := List.idxOf_lt_length_of_mem ha
    rw [List.idxOf_append_of_mem ha]
    simp only [ha, List.idxOf_cons_self, iff_true]
    omega
  · rw [List.idxOf_append_of_notMem ha]
    simp [ha]

/-- The recorded needs of a node in progress, after the part `seen` of its needs: each that is still
in progress as often as it occurs there. -/
def Tallied (path seen : List Nat) (v : Nat) (s : Schedule) : Prop :=
  (∀ a, s.cycles.count ⟨a, v⟩ = if a ∈ s.order then 0 else seen.count a) ∧
    ∀ a ∈ seen, a ∈ s.order ∨ a ∈ path

/-- A node whose needs are all tallied can be put in order. -/
theorem Sound.finish (h : Sound size needs (v :: path) s) (hlt : v < size) (hv : v ∉ path)
    (htally : Tallied (v :: path) (needs v) v s) :
    Sound size needs path (s.finish v) := by
  have hnew : v ∉ s.order := h.open_path v List.mem_cons_self
  constructor
  · rw [Schedule.finish, List.nodup_append]
    refine ⟨h.nodup, List.nodup_singleton v, fun a ha b hb => ?_⟩
    rintro rfl
    exact hnew (List.mem_singleton.mp hb ▸ ha)
  · intro u hu
    rcases List.mem_append.mp hu with hu | hu
    · exact h.within u hu
    · exact List.mem_singleton.mp hu ▸ hlt
  · intro u hu hmem
    rcases List.mem_append.mp hmem with hmem | hmem
    · exact h.open_path u (List.mem_cons_of_mem _ hu) hmem
    · exact hv (List.mem_singleton.mp hmem ▸ hu)
  · intro w hw a
    rcases List.mem_append.mp hw with hw | hw
    · have hbefore : (s.finish v).Before a w ↔ s.Before a w := before_append hw
      simp only [hbefore]
      exact h.settled w hw a
    · obtain rfl := List.mem_singleton.mp hw
      simp only [before_finish hnew]
      exact htally.1 a
  · exact h.closing
  · intro c hc
    rcases h.known c hc with hin | hin
    · exact Or.inl (List.mem_append_left _ hin)
    · rcases List.mem_cons.mp hin with heq | hin
      · exact Or.inl (List.mem_append_right _ (List.mem_singleton.mpr heq))
      · exact Or.inr hin

/-- What the work on needs of the nodes in `path` may change: the order grows, and nothing is
recorded about these nodes themselves. -/
structure Advance (size : Nat) (needs : Nat → List Nat) (path : List Nat) (s t : Schedule) :
    Prop where
  sound : Sound size needs path t
  grows : s.order <+: t.order
  frame : ∀ u ∈ path, ∀ a, t.cycles.count ⟨a, u⟩ = s.cycles.count ⟨a, u⟩

/-- A need that has been put in order is tallied. -/
theorem Tallied.advance {seen : List Nat} {d : Nat} {t : Schedule}
    (h : Tallied path seen v s) (hv : v ∈ path) (hstep : Advance size needs path s t)
    (hd : d ∈ t.order) : Tallied path (seen ++ [d]) v t := by
  obtain ⟨hcount, hseen⟩ := h
  constructor
  · intro a
    rw [hstep.frame v hv a, hcount a, List.count_append]
    by_cases hold : a ∈ s.order
    · rw [if_pos hold, if_pos (hstep.grows.subset hold)]
    · rw [if_neg hold]
      by_cases hin : a ∈ t.order
      · -- a node in progress is not in order, so what has come into order was not seen before
        rw [if_pos hin, List.count_eq_zero]
        intro hmem
        rcases hseen a hmem with hord | hpath
        · exact hold hord
        · exact hstep.sound.open_path a hpath hin
      · have hne : d ≠ a := fun heq => hin (heq ▸ hd)
        rw [if_neg hin, List.count_singleton]
        simp [hne]
  · intro a ha
    rcases List.mem_append.mp ha with ha | ha
    · exact (hseen a ha).imp_left fun hord => hstep.grows.subset hord
    · exact Or.inl (List.mem_singleton.mp ha ▸ hd)

/-- A need in progress that has been recorded is tallied. -/
theorem Tallied.closeCycle {seen : List Nat} {d : Nat} (h : Tallied path seen v s)
    (hnew : d ∉ s.order) (hd : d ∈ path) : Tallied path (seen ++ [d]) v (s.closeCycle d v) := by
  obtain ⟨hcount, hseen⟩ := h
  constructor
  · intro a
    simp only [Schedule.closeCycle, List.count_append, hcount a]
    by_cases heq : d = a
    · subst heq
      simp [hnew]
    · have hne : (⟨d, v⟩ : BackEdge) ≠ ⟨a, v⟩ := fun hb => heq (BackEdge.mk.inj hb).1
      simp [heq, hne]
  · intro a ha
    rcases List.mem_append.mp ha with ha | ha
    · exact hseen a ha
    · exact Or.inr (List.mem_singleton.mp ha ▸ hd)

/-- The loop over the needs of a node: whatever works off a need that is neither in order nor in
progress, afterwards all needs are tallied. -/
theorem tallied_foldl {f : Nat → Schedule → Schedule} (hv : v ∉ path)
    (hback : ∀ u ∈ v :: path, ReflTransGen (fun a b => a ∈ needs b) v u)
    (hwork : ∀ d ∈ needs v, ∀ s, Sound size needs (v :: path) s → d ∉ v :: path →
      Advance size needs (v :: path) s (f d s) ∧ d ∈ (f d s).order)
    (seen rest : List Nat) (hneeds : seen ++ rest = needs v)
    (hsound : Sound size needs (v :: path) s) (htally : Tallied (v :: path) seen v s) :
    let t := rest.foldl (fun s d => if s.order.contains d then s
      else if (v :: path).contains d then s.closeCycle d v else f d s) s
    Sound size needs (v :: path) t ∧ s.order <+: t.order ∧
      (∀ u ∈ path, ∀ a, t.cycles.count ⟨a, u⟩ = s.cycles.count ⟨a, u⟩) ∧
      Tallied (v :: path) (needs v) v t := by
  induction rest generalizing seen s with
  | nil =>
    rw [List.append_nil] at hneeds
    subst hneeds
    exact ⟨hsound, List.prefix_refl _, fun _ _ _ => rfl, htally⟩
  | cons d rest ih =>
    have hd : d ∈ needs v := hneeds ▸ List.mem_append_right _ List.mem_cons_self
    have hnext : (seen ++ [d]) ++ rest = needs v := by simpa using hneeds
    simp only [List.foldl_cons, List.contains_eq_mem, decide_eq_true_eq] at ih ⊢
    split_ifs with hord hpath
    · have hstay : Advance size needs (v :: path) s s :=
        ⟨hsound, List.prefix_refl _, fun _ _ _ => rfl⟩
      exact ih _ hnext hsound (htally.advance List.mem_cons_self hstay hord)
    · obtain ⟨ht, hgrows, hframe, hall⟩ := ih _ hnext
        (hsound.closeCycle List.mem_cons_self hd (hback d hpath)) (htally.closeCycle hord hpath)
      refine ⟨ht, hgrows, fun u hu a => ?_, hall⟩
      have hne : (⟨d, v⟩ : BackEdge) ≠ ⟨a, u⟩ := by
        rintro ⟨⟩
        exact hv hu
      rw [hframe u hu a]
      simp [Schedule.closeCycle, List.count_append, hne]
    · obtain ⟨hstep, hdone⟩ := hwork d hd s hsound hpath
      obtain ⟨ht, hgrows, hframe, hall⟩ := ih _ hnext hstep.sound
        (htally.advance List.mem_cons_self hstep hdone)
      refine ⟨ht, hstep.grows.trans hgrows, fun u hu a => ?_, hall⟩
      rw [hframe u hu a, hstep.frame u (List.mem_cons_of_mem _ hu) a]

/-- Working off a node puts it in order and keeps the invariant. The nodes in progress are
different nodes, so together with the budget they bound the number of nodes. -/
theorem visit_advance (hneeds : ∀ v < size, ∀ d ∈ needs v, d < size) (budget : Nat)
    (hbudget : size ≤ budget + path.length) (hpath : path.Nodup) (hwithin : ∀ u ∈ path, u < size)
    (hlt : v < size) (hv : v ∉ path)
    (hback : ∀ u ∈ path, ReflTransGen (fun a b => a ∈ needs b) v u)
    (hsound : Sound size needs path s) :
    Advance size needs path s (visit needs budget path v s) ∧
      v ∈ (visit needs budget path v s).order := by
  induction budget generalizing path v s with
  | zero =>
    have hnodup : (v :: path).Nodup := List.nodup_cons.mpr ⟨hv, hpath⟩
    have hsub : v :: path ⊆ List.range size := by
      intro u hu
      rcases List.mem_cons.mp hu with rfl | hu
      · exact List.mem_range.mpr hlt
      · exact List.mem_range.mpr (hwithin u hu)
    have hlen := hnodup.length_le_of_subset hsub
    simp only [List.length_cons, List.length_range] at hlen
    omega
  | succ budget ih =>
    rw [visit]
    split_ifs with hskip
    · simp only [List.contains_eq_mem, Bool.or_eq_true, decide_eq_true_eq, hv, false_or] at hskip
      exact ⟨⟨hsound, List.prefix_refl _, fun _ _ _ => rfl⟩, hskip⟩
    · simp only [List.contains_eq_mem, Bool.or_eq_true, decide_eq_true_eq, hv, false_or] at hskip
      have hpush := hsound.push hskip
      have hback' : ∀ u ∈ v :: path, ReflTransGen (fun a b => a ∈ needs b) v u := by
        intro u hu
        rcases List.mem_cons.mp hu with rfl | hu
        · exact .refl
        · exact hback u hu
      have hempty : Tallied (v :: path) [] v s := by
        refine ⟨fun a => ?_, by simp⟩
        rw [List.count_nil, ite_self, List.count_eq_zero]
        intro hmem
        rcases hsound.known _ hmem with hin | hin
        · exact hskip hin
        · exact hv hin
      obtain ⟨ht, hgrows, hframe, hall⟩ := tallied_foldl (f := visit needs budget (v :: path)) hv
        hback' (fun d hd s hs hfree => ih (by simp only [List.length_cons]; omega)
          (List.nodup_cons.mpr ⟨hv, hpath⟩) (by
            intro u hu
            rcases List.mem_cons.mp hu with rfl | hu
            · exact hlt
            · exact hwithin u hu)
          (hneeds v hlt d hd) hfree (fun u hu => .head hd (hback' u hu)) hs)
        [] (needs v) rfl hpush hempty
      refine ⟨⟨ht.finish hlt hv hall, hgrows.trans (List.prefix_append _ _), hframe⟩, ?_⟩
      exact List.mem_append_right _ (List.mem_singleton.mpr rfl)

/-- The walk over all nodes puts each of them in order. -/
theorem ofNeeds_sound (hneeds : ∀ v < size, ∀ d ∈ needs v, d < size) :
    Sound size needs [] (ofNeeds size needs) ∧ ∀ v < size, v ∈ (ofNeeds size needs).order := by
  have hfold (vs : List Nat) (hvs : ∀ v ∈ vs, v < size) (s : Schedule)
      (hs : Sound size needs [] s) :
      let t := vs.foldl (fun s v => visit needs size [] v s) s
      Sound size needs [] t ∧ s.order <+: t.order ∧ ∀ v ∈ vs, v ∈ t.order := by
    induction vs generalizing s with
    | nil => exact ⟨hs, List.prefix_refl _, by simp⟩
    | cons v vs ih =>
      obtain ⟨hstep, hmem⟩ := visit_advance hneeds size (Nat.le_add_right _ _) List.nodup_nil
        (by simp) (hvs v List.mem_cons_self) List.not_mem_nil (by simp) hs
      obtain ⟨ht, hgrows, hall⟩ := ih (fun u hu => hvs u (List.mem_cons_of_mem _ hu)) _ hstep.sound
      refine ⟨ht, hstep.grows.trans hgrows, fun u hu => ?_⟩
      rcases List.mem_cons.mp hu with rfl | hu
      · exact hgrows.subset hmem
      · exact hall u hu
  obtain ⟨hsound, -, hall⟩ := hfold (List.range size) (fun v => List.mem_range.mp) _ sound_empty
  exact ⟨hsound, fun v hv => hall v (List.mem_range.mpr hv)⟩

end FlowScript.Schedule

namespace FlowScript.FlowGraph

open Relation (ReflTransGen TransGen)

variable {g : FlowGraph} {a b : Nat}

/-- A node needs the nodes that an edge leads from. -/
@[simp] theorem mem_needs : a ∈ g.needs b ↔ g.Linked a b := by
  rw [needs, List.mem_append, mem_dependencies, mem_predecessors, Linked]

/-- A node is listed among the needs of another once for each kind of edge between them. -/
theorem count_needs : (g.needs b).count a =
    (g.dependencies b).count a + (g.predecessors b).count a := by
  rw [needs, List.count_append]

/-- The invariant of the walk, for the schedule of a graph. -/
theorem WellFormed.schedule_sound (hg : g.WellFormed) :
    Schedule.Sound g.size g.needs [] g.schedule ∧ ∀ v < g.size, v ∈ g.schedule.order :=
  Schedule.ofNeeds_sound fun _ _ _ hd => (hg.linked_lt (mem_needs.mp hd)).1

/-- The order of the schedule holds every node once. -/
theorem WellFormed.order_perm (hg : g.WellFormed) : g.schedule.order.Perm g.positions := by
  obtain ⟨hsound, hall⟩ := hg.schedule_sound
  have hpositions : g.positions.Nodup := List.nodup_range
  rw [List.perm_ext_iff_of_nodup hsound.nodup hpositions]
  intro v
  rw [mem_positions]
  exact ⟨hsound.within v, hall v⟩

/-- A node is in order exactly if it is one. -/
theorem WellFormed.mem_order (hg : g.WellFormed) : a ∈ g.schedule.order ↔ a < g.size :=
  hg.order_perm.mem_iff.trans mem_positions

/-- A node either stands before a node it is linked to, or the link closes a cycle. -/
theorem WellFormed.before_iff (hg : g.WellFormed) (h : g.Linked a b) :
    g.schedule.Before a b ↔ ⟨a, b⟩ ∉ g.schedule.cycles := by
  have hb := hg.mem_order.mpr (hg.linked_lt h).2
  have hcount := hg.schedule_sound.1.settled b hb a
  rw [← List.count_eq_zero, hcount]
  split
  · simp_all
  · have hpos := List.count_pos_iff.mpr (mem_needs.mpr h)
    exact ⟨fun hbefore => absurd hbefore ‹_›, fun hzero => by omega⟩

/-- A recorded link lies on a cycle. -/
theorem WellFormed.cycles_closing (hg : g.WellFormed) {c : BackEdge}
    (hc : c ∈ g.schedule.cycles) : g.Linked c.node c.via ∧ ReflTransGen g.Linked c.via c.node := by
  have h := hg.schedule_sound.1.closing c hc
  simp only [mem_needs] at h
  exact h

/-- A recorded link is recorded once for each kind of edge. -/
theorem WellFormed.count_cycles (hg : g.WellFormed) {c : BackEdge}
    (hc : c ∈ g.schedule.cycles) :
    (g.Feeds c.node c.via ∧ g.Leads c.node c.via → g.schedule.cycles.count c = 2) ∧
      (¬ (g.Feeds c.node c.via ∧ g.Leads c.node c.via) → g.schedule.cycles.count c = 1) := by
  have hlink := (hg.cycles_closing hc).1
  have hvia := hg.mem_order.mpr (hg.linked_lt hlink).2
  have hnot : ¬ g.schedule.Before c.node c.via := fun h => (hg.before_iff hlink).mp h hc
  have hcount := hg.schedule_sound.1.settled c.via hvia c.node
  rw [if_neg hnot, count_needs] at hcount
  have hdata := count_of_nodup (g.dependencies_nodup c.via) c.node
  have hexec := count_of_nodup (g.predecessors_nodup c.via) c.node
  rw [mem_dependencies] at hdata
  rw [mem_predecessors] at hexec
  constructor
  · rintro ⟨hfeeds, hleads⟩
    rw [hcount, hdata.1 hfeeds, hexec.1 hleads]
  · intro hnotBoth
    rw [hcount]
    rcases hlink with hfeeds | hleads
    · rw [hdata.1 hfeeds, hexec.2 fun hleads => hnotBoth ⟨hfeeds, hleads⟩]
    · rw [hdata.2 fun hfeeds => hnotBoth ⟨hfeeds, hleads⟩, hexec.1 hleads]

/-- Along links that close no cycle the order only goes forward. -/
theorem before_of_transGen {s : Schedule} {r : Nat → Nat → Prop}
    (hr : ∀ a b, r a b → s.Before a b) (h : TransGen r a b) : s.Before a b := by
  induction h with
  | single h => exact hr _ _ h
  | tail _ h ih => exact Nat.lt_trans ih (hr _ _ h)

/-- Nothing is recorded exactly if no node is linked to itself through others. -/
theorem WellFormed.cycles_eq_nil_iff (hg : g.WellFormed) :
    g.schedule.cycles = [] ↔ ∀ a, ¬ TransGen g.Linked a a := by
  constructor
  · intro hnil a hcycle
    have hall : ∀ a b, g.Linked a b → g.schedule.Before a b := by
      intro a b hab
      rw [hg.before_iff hab, hnil]
      exact List.not_mem_nil
    exact Nat.lt_irrefl _ (before_of_transGen hall hcycle)
  · intro hacyclic
    rw [List.eq_nil_iff_forall_not_mem]
    intro c hc
    obtain ⟨hlink, hback⟩ := hg.cycles_closing hc
    exact hacyclic c.node (.head' hlink hback)

/-- The warnings about links that close a cycle, by the ids of the node met again and of the node
that depends on it. -/
def cycleWarnings (g : FlowGraph) : List (String × String) :=
  g.schedule.cycles.map fun c => (g.idAt c.node, g.idAt c.via)

/-- The ids of a warning belong to one recorded link only. -/
theorem WellFormed.cycle_ids_inj (hg : g.WellFormed) (ha : a < g.size) (hb : b < g.size)
    {c : BackEdge} (hc : c ∈ g.schedule.cycles)
    (h : (g.idAt c.node, g.idAt c.via) = (g.idAt a, g.idAt b)) : c = ⟨a, b⟩ := by
  obtain ⟨hnode, hvia⟩ := hg.linked_lt (hg.cycles_closing hc).1
  obtain ⟨hidNode, hidVia⟩ := Prod.mk.inj h
  have hnodeEq := hg.idAt_inj hnode ha hidNode
  have hviaEq := hg.idAt_inj hvia hb hidVia
  subst hnodeEq hviaEq
  rfl

/-- There is a warning about a pair of nodes exactly if the link between them is recorded. -/
theorem WellFormed.mem_cycleWarnings (hg : g.WellFormed) (ha : a < g.size) (hb : b < g.size) :
    (g.idAt a, g.idAt b) ∈ g.cycleWarnings ↔ ⟨a, b⟩ ∈ g.schedule.cycles := by
  constructor
  · intro h
    obtain ⟨c, hc, hids⟩ := List.mem_map.mp h
    exact hg.cycle_ids_inj ha hb hc hids ▸ hc
  · exact fun h => List.mem_map.mpr ⟨_, h, rfl⟩

/-- There are as many warnings about a pair of nodes as records of the link between them. -/
theorem WellFormed.count_cycleWarnings (hg : g.WellFormed) (ha : a < g.size) (hb : b < g.size) :
    g.cycleWarnings.count (g.idAt a, g.idAt b) = g.schedule.cycles.count ⟨a, b⟩ := by
  rw [cycleWarnings, List.count_eq_countP, List.countP_map, List.count_eq_countP]
  apply List.countP_congr
  intro c hc
  simp only [Function.comp_apply, beq_iff_eq]
  exact ⟨hg.cycle_ids_inj ha hb hc, fun h => by rw [h]⟩

/-- The order of the schedule and its warnings account for every edge of a graph. The order holds
each node once. An edge goes forward in the order, or there is a warning about it, and not both. A
warning is about an edge on a cycle, and there is one for each kind of edge between the two nodes.
So there are none exactly if the graph has no cycle, and then all edges go forward. -/
theorem schedule_accounts_for_edges (doc : Document) :
    let g := ofDocument doc
    g.schedule.order.Perm g.positions ∧
    (∀ a b, g.Linked a b →
      Xor (g.schedule.Before a b) ((g.idAt a, g.idAt b) ∈ g.cycleWarnings)) ∧
    (∀ w ∈ g.cycleWarnings, ∃ a b, w = (g.idAt a, g.idAt b) ∧
      g.Linked a b ∧ ReflTransGen g.Linked b a ∧
      (g.Feeds a b ∧ g.Leads a b → g.cycleWarnings.count w = 2) ∧
      (¬ (g.Feeds a b ∧ g.Leads a b) → g.cycleWarnings.count w = 1)) ∧
    (g.cycleWarnings = [] ↔ ∀ a, ¬ TransGen g.Linked a a) ∧
    ((∀ a, ¬ TransGen g.Linked a a) → ∀ a b, g.Linked a b → g.schedule.Before a b) := by
  intro g
  have hg : g.WellFormed := ofDocument_wellFormed doc
  refine ⟨hg.order_perm, fun a b hab => ?_, fun w hw => ?_, ?_, fun hacyclic a b hab => ?_⟩
  · obtain ⟨ha, hb⟩ := hg.linked_lt hab
    rw [hg.mem_cycleWarnings ha hb, hg.before_iff hab]
    by_cases hc : ⟨a, b⟩ ∈ g.schedule.cycles
    · exact Or.inr ⟨hc, fun hnot => hnot hc⟩
    · exact Or.inl ⟨hc, hc⟩
  · obtain ⟨c, hc, rfl⟩ := List.mem_map.mp hw
    obtain ⟨hlink, hback⟩ := hg.cycles_closing hc
    obtain ⟨hnode, hvia⟩ := hg.linked_lt hlink
    refine ⟨c.node, c.via, rfl, hlink, hback, ?_⟩
    rw [hg.count_cycleWarnings hnode hvia]
    exact hg.count_cycles hc
  · rw [cycleWarnings, List.map_eq_nil_iff]
    exact hg.cycles_eq_nil_iff
  · rw [hg.before_iff hab, hg.cycles_eq_nil_iff.mpr hacyclic]
    exact List.not_mem_nil

end FlowScript.FlowGraph
