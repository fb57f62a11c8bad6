import FlowScript.Proofs.Drafts
import FlowScript.Emission.Body

/-!
# Emission without a budget

The walks of an emission recurse on a budget. The rules here say the same without one: each rule is
one way in which a piece of work is done, and a piece of work that has a derivation comes to an end.
Every walk whose budget covers the nodes that have not been entered has a derivation, because each
nested walk has entered one node more. What holds of all emissions is then shown by induction on
derivations, with one case for each rule.
-/

namespace FlowScript

/-- A piece of the work of an emission. -/
inductive Task where
  /-- Enter a node that is reached through a data edge. -/
  | value (v : Nat)
  | values (vs : List Nat)
  /-- Compute the values that regions share, as far as they are still to come in the order. -/
  | hoists (owner : Nat) (needs : List (List Nat)) (order : List Nat)
  /-- Follow the flow of execution. -/
  | flow (v : Nat)
  | flows (vs : List Nat)
  | arms (owner : Nat) (arms : List (Arm × List Nat))
  /-- Write a block, then what runs after it and what it held back. -/
  | block (owner : Nat) (b : Block)

/-- The nodes that a trace enters, in order. -/
def entries (trace : List Event) : List Nat :=
  trace.filterMap Event.entered?

namespace Draft

variable {d e f : Draft} {v : Nat}

/-- Close an arm that was opened in `d`, with a `pass` in it if nothing else was written. -/
def endArm (owner : Nat) (arm : Arm) (d e : Draft) : Draft :=
  (if e.written = d.written then e.write none "pass" else e).closeArm owner arm

/-- Announce the next arm of a block, if there is one. -/
def nextArm (rest : List (Arm × List Nat)) (d : Draft) : Draft :=
  if rest.isEmpty then d else d.write none "else:"

/-- Closing an arm enters nothing. -/
@[simp] theorem endArm_entered (owner : Nat) (arm : Arm) (d e : Draft) :
    (d.endArm owner arm e).entered = e.entered := by
  rw [endArm]
  split <;> rfl

/-- Closing an arm lets nothing go. -/
@[simp] theorem endArm_barriers (owner : Nat) (arm : Arm) (d e : Draft) :
    (d.endArm owner arm e).barriers = e.barriers := by
  rw [endArm]
  split <;> rfl

/-- The trace of an arm ends with its closing, after a `pass` if there is one. -/
theorem endArm_trace (owner : Nat) (arm : Arm) (d e : Draft) :
    ∃ pass, (d.endArm owner arm e).trace = e.trace ++ pass ++ [.closed owner arm] ∧
      ∀ x ∈ pass, x = .line none e.level "pass" := by
  rw [endArm]
  split
  · exact ⟨_, rfl, by simp⟩
  · exact ⟨[], by simp [closeArm], by simp⟩

/-- The line between two arms. -/
theorem nextArm_trace (rest : List (Arm × List Nat)) (d : Draft) :
    (d.nextArm rest).trace =
      d.trace ++ if rest.isEmpty then [] else [.line none d.level "else:"] := by
  rw [nextArm]
  split
  · rw [List.append_nil]
  · rfl

/-- What was written in an arm stays when the arm is closed and the next one announced. -/
theorem trace_nextArm_endArm (owner : Nat) (arm : Arm) (rest : List (Arm × List Nat))
    (d e : Draft) : e.trace <+: ((d.endArm owner arm e).nextArm rest).trace := by
  obtain ⟨pass, htrace, -⟩ := endArm_trace owner arm d e
  rw [nextArm_trace, htrace, List.append_assoc, List.append_assoc]
  exact List.prefix_append _ _

/-- Announcing an arm enters nothing. -/
@[simp] theorem nextArm_entered (rest : List (Arm × List Nat)) (d : Draft) :
    (d.nextArm rest).entered = d.entered := by
  rw [nextArm]
  split <;> rfl

/-- Announcing an arm lets nothing go. -/
@[simp] theorem nextArm_barriers (rest : List (Arm × List Nat)) (d : Draft) :
    (d.nextArm rest).barriers = d.barriers := by
  rw [nextArm]
  split <;> rfl

/-- The nodes that have been entered after one more. -/
theorem mem_enter {u : Nat} : u ∈ (d.enter v).entered ↔ u ∈ d.entered ∨ u = v := by
  simp [enter]

/-- What every piece of work keeps: the level and the barriers are as before, the trace and the
entered nodes only grow, and the nodes that are entered are new and each in the trace once. -/
structure Extends (d e : Draft) : Prop where
  level : e.level = d.level
  barriers : e.barriers = d.barriers
  trace : d.trace <+: e.trace
  entered : ∃ new, e.entered = d.entered ++ new ∧ new.Nodup ∧ (∀ v ∈ new, v ∉ d.entered) ∧
    entries e.trace = entries d.trace ++ new

/-- A draft that enters nothing, and whose trace grows by steps that enter nothing. -/
theorem Extends.of_trace {new : List Event} (hlevel : e.level = d.level)
    (hbarriers : e.barriers = d.barriers) (hentered : e.entered = d.entered)
    (htrace : e.trace = d.trace ++ new) (hnew : ∀ x ∈ new, x.entered? = none) : Extends d e := by
  refine ⟨hlevel, hbarriers, htrace ▸ List.prefix_append _ _, [], ?_, List.nodup_nil, by simp, ?_⟩
  · rw [hentered, List.append_nil]
  · have hnone : entries new = [] := List.filterMap_eq_nil_iff.mpr hnew
    rw [htrace, entries, List.filterMap_append]
    exact congrArg _ hnone

/-- Nothing changes. -/
theorem Extends.refl (d : Draft) : Extends d d :=
  .of_trace rfl rfl rfl (List.append_nil _).symm (by simp)

/-- One piece of work after the other. -/
theorem Extends.trans (h : Extends d e) (h' : Extends e f) : Extends d f := by
  obtain ⟨new, hentered, hnodup, hfresh, hentries⟩ := h.entered
  obtain ⟨new', hentered', hnodup', hfresh', hentries'⟩ := h'.entered
  refine ⟨h'.level.trans h.level, h'.barriers.trans h.barriers, h.trace.trans h'.trace,
    new ++ new', ?_, ?_, ?_, ?_⟩
  · rw [hentered', hentered, List.append_assoc]
  · rw [List.nodup_append]
    refine ⟨hnodup, hnodup', fun u hu w hw => ?_⟩
    rintro rfl
    exact hfresh' u hw (hentered ▸ List.mem_append_right _ hu)
  · intro u hu
    rcases List.mem_append.mp hu with hu | hu
    · exact hfresh u hu
    · exact fun hin => hfresh' u hu (hentered ▸ List.mem_append_left _ hin)
  · rw [hentries', hentries, List.append_assoc]

/-- What was entered stays entered. -/
theorem Extends.subset (h : Extends d e) : d.entered ⊆ e.entered := by
  obtain ⟨new, hentered, -⟩ := h.entered
  exact hentered ▸ List.subset_append_left _ _

/-- A node has been entered or is behind a barrier. -/
def Meets (d : Draft) (w : Nat) : Prop :=
  w ∈ d.entered ∨ w ∈ d.barriers

/-- What is met stays met. -/
theorem Meets.mono {w : Nat} (h : d.Meets w) (hext : Extends d e) : e.Meets w :=
  h.imp (hext.subset ·) (hext.barriers ▸ ·)

/-- Entering a node extends a draft. -/
theorem enter_extends (h : v ∉ d.entered) : Extends d (d.enter v) :=
  ⟨rfl, rfl, List.prefix_append _ _, [v], rfl, List.nodup_singleton v, by simpa using h,
    List.filterMap_append⟩

/-- The lines of a node extend a draft. -/
theorem Writes.extends {job : Job} (h : Writes job v d e) : Extends d e := by
  obtain ⟨own, htrace, hown⟩ := h.trace
  exact .of_trace h.level h.barriers h.entered htrace fun x hx =>
    Event.entered?_of_origin? (hown x hx)

/-- A draft in which nothing is written or entered extends the one before. -/
theorem Alike.extends (h : Alike d e) : Extends d e :=
  .of_trace h.level h.barriers h.entered (h.trace.trans (List.append_nil _).symm) (by simp)

/-- A line that completes a block extends a draft. -/
theorem write_extends (d : Draft) (origin : Option Nat) (text : String) :
    Extends d (d.write origin text) :=
  .of_trace rfl rfl rfl rfl (by simp [Event.entered?])

/-- Announcing the next arm extends a draft. -/
theorem nextArm_extends (d : Draft) (rest : List (Arm × List Nat)) : Extends d (d.nextArm rest) := by
  rw [nextArm]
  split
  · exact .refl d
  · exact write_extends d none _

/-- An arm that has been opened, filled and closed extends a draft. -/
theorem endArm_extends {owner : Nat} {arm : Arm} (h : Extends (d.openArm owner arm) e) :
    Extends d ((d.openArm owner arm).endArm owner arm e) := by
  have hfilled : Extends (d.openArm owner arm)
      (if e.written = (d.openArm owner arm).written then e.write none "pass" else e) := by
    split
    · exact h.trans (write_extends e none _)
    · exact h
  rw [endArm]
  generalize (if e.written = (d.openArm owner arm).written then e.write none "pass" else e) = f
    at hfilled
  obtain ⟨new, hentered, hnodup, hfresh, hentries⟩ := hfilled.entered
  have hopen : d.trace <+: (d.openArm owner arm).trace := List.prefix_append _ _
  have hclose : f.trace <+: (f.closeArm owner arm).trace := List.prefix_append _ _
  have hentriesOpen : entries (d.openArm owner arm).trace = entries d.trace := by
    simp [entries, openArm, Event.entered?]
  have hentriesClose : entries (f.closeArm owner arm).trace = entries f.trace := by
    simp [entries, closeArm, Event.entered?]
  refine ⟨?_, hfilled.barriers, (hopen.trans hfilled.trace).trans hclose, new, hentered, hnodup,
    hfresh, ?_⟩
  · have hlevel : f.level = d.level + 1 := hfilled.level
    change f.level - 1 = d.level
    omega
  · rw [hentriesClose, hentries, hentriesOpen]

/-- Work between holding nodes back and letting them go extends a draft: nodes that were held back
before are not let go. -/
theorem letGo_extends {held : List Nat} (hheld : ∀ v ∈ held, v ∉ d.barriers)
    (h : Extends (d.hold held) e) : Extends d (e.letGo held) := by
  refine ⟨h.level, ?_, h.trace, h.entered⟩
  change e.barriers.filter _ = d.barriers
  have hbarriers : e.barriers = d.barriers ++ held := h.barriers
  rw [hbarriers, List.filter_append]
  have hkeep : d.barriers.filter (fun v => !held.contains v) = d.barriers := by
    rw [List.filter_eq_self]
    intro v hv
    simpa using fun hin => hheld v hin hv
  have hdrop : held.filter (fun v => !held.contains v) = [] := by
    simp [List.filter_eq_nil_iff]
  rw [hkeep, hdrop, List.append_nil]

end Draft

namespace Job

variable {job : Job}

/-- Write a node whose successors are left alone. -/
def writeAlone (job : Job) (v : Nat) (d : Draft) : Draft :=
  let e := job.writeGuarded d v
  if job.opensScope v then ((e.openArm v .scope).write none "pass").closeArm v .scope else e

/-- The regions that a block splits the flow into, what runs after it last. -/
def regions (job : Job) (d : Draft) (b : Block) : List (List Nat) :=
  (b.arms.map Prod.snd).map (job.flowRegion d) ++ [job.flowRegion d b.rest]

/-- The nodes that more than one region of a block holds. -/
def joins (job : Job) (d : Draft) (b : Block) : List Nat :=
  job.order.filter (shared (job.regions d b))

/-- The values that the regions of a block read. -/
def regionNeeds (job : Job) (d : Draft) (b : Block) : List (List Nat) :=
  (walked ((b.arms.map Prod.snd).map (job.flowRegion d)) (job.flowRegion d b.rest)
    (job.joins d b)).map (job.dataNeeds d)

/-- The joins of a block that are not held back already. -/
def held (job : Job) (d : Draft) (b : Block) : List Nat :=
  (job.joins d b).filter fun v => !d.barriers.contains v

/-- How the pieces of work are done. -/
inductive Emits (job : Job) : Task → Draft → Draft → Prop where
  | value_skip {v d} : v ∈ d.entered → Emits job (.value v) d d
  | value_enter {v d e} : v ∉ d.entered →
      Emits job (.values (job.graph.dependencies v)) (d.enter v) e →
      Emits job (.value v) d (job.writeAlone v e)
  | values_nil {d} : Emits job (.values []) d d
  | values_cons {v vs d e f} : Emits job (.value v) d e → Emits job (.values vs) e f →
      Emits job (.values (v :: vs)) d f
  | hoists_nil {owner needs d} : Emits job (.hoists owner needs []) d d
  | hoists_take {owner needs v vs d e f} :
      shared needs v = true → job.hoistable d owner v = true → Emits job (.value v) d e →
      Emits job (.hoists owner needs vs) e f → Emits job (.hoists owner needs (v :: vs)) d f
  | hoists_leave {owner needs v vs d e} : ¬ (shared needs v && job.hoistable d owner v) = true →
      Emits job (.hoists owner needs vs) d e → Emits job (.hoists owner needs (v :: vs)) d e
  | flow_skip {v d} : v ∈ d.barriers ∨ v ∈ d.entered → Emits job (.flow v) d d
  | flow_plain {v d e f} : v ∉ d.barriers → v ∉ d.entered →
      Emits job (.values (job.graph.dependencies v)) (d.enter v) e → job.block? e v = none →
      job.opensScope v = false →
      Emits job (.flows (job.graph.successors v)) (job.writeGuarded e v) f →
      Emits job (.flow v) d f
  | flow_scope {v d e f} : v ∉ d.barriers → v ∉ d.entered →
      Emits job (.values (job.graph.dependencies v)) (d.enter v) e → job.block? e v = none →
      job.opensScope v = true →
      Emits job (.arms v [(.scope, job.graph.successors v)]) (job.writeGuarded e v) f →
      Emits job (.flow v) d f
  | flow_block {v d e b s f} : v ∉ d.barriers → v ∉ d.entered →
      Emits job (.values (job.graph.dependencies v)) (d.enter v) e →
      job.block? e v = some (b, s) → Emits job (.block v b) s f → Emits job (.flow v) d f
  | block {owner b d e f h i} :
      Emits job (.hoists owner (job.regionNeeds d b) job.order) d e →
      Emits job (.arms owner b.arms) ((e.hold (job.held d b)).write (some owner) b.header) f →
      Emits job (.flows b.rest) (f.letGo (job.held d b)) h →
      Emits job (.flows (job.held d b)) h i → Emits job (.block owner b) d i
  | flows_nil {d} : Emits job (.flows []) d d
  | flows_cons {v vs d e f} : Emits job (.flow v) d e → Emits job (.flows vs) e f →
      Emits job (.flows (v :: vs)) d f
  | arms_nil {owner d} : Emits job (.arms owner []) d d
  | arms_cons {owner arm targets rest d e f} : Emits job (.flows targets) (d.openArm owner arm) e →
      Emits job (.arms owner rest)
        (((d.openArm owner arm).endArm owner arm e).nextArm rest) f →
      Emits job (.arms owner ((arm, targets) :: rest)) d f

/-- Writing a node enters nothing. -/
@[simp] theorem writeAlone_entered (job : Job) (v : Nat) (d : Draft) :
    (job.writeAlone v d).entered = d.entered := by
  have hwrites := (writeGuarded_writes job d v).entered
  rw [writeAlone]
  split <;> exact hwrites

/-- Writing a node whose successors are left alone extends a draft. -/
theorem writeAlone_extends (job : Job) (v : Nat) (d : Draft) :
    Draft.Extends d (job.writeAlone v d) := by
  have hwrites := (writeGuarded_writes job d v).extends
  rw [writeAlone]
  split
  · refine hwrites.trans ?_
    have harm := Draft.endArm_extends (.refl ((job.writeGuarded d v).openArm v .scope))
    rwa [Draft.endArm, if_pos rfl] at harm
  · exact hwrites

/-- The nodes that a block holds back were not held back before. -/
theorem held_free {d : Draft} {b : Block} : ∀ v ∈ job.held d b, v ∉ d.barriers := by
  intro v hv
  simpa using (List.mem_filter.mp hv).2

/-- Every piece of work extends the draft. -/
theorem Emits.extends {t : Task} {d e : Draft} (h : Emits job t d e) : Draft.Extends d e := by
  induction h with
  | value_skip | values_nil | hoists_nil | flow_skip | flows_nil | arms_nil => exact .refl _
  | value_enter hnew _ ih =>
    exact ((Draft.enter_extends hnew).trans ih).trans (writeAlone_extends job _ _)
  | values_cons _ _ ih ih' | flows_cons _ _ ih ih' => exact ih.trans ih'
  | hoists_take _ _ _ _ ih ih' => exact ih.trans ih'
  | hoists_leave _ _ ih => exact ih
  | flow_plain _ hnew _ _ _ _ ihDeps ih | flow_scope _ hnew _ _ _ _ ihDeps ih =>
    exact (((Draft.enter_extends hnew).trans ihDeps).trans
      (writeGuarded_writes job _ _).extends).trans ih
  | flow_block _ hnew _ hblock _ ihDeps ih =>
    exact (((Draft.enter_extends hnew).trans ihDeps).trans (block?_alike hblock).extends).trans ih
  | @block owner b d e f h i _ _ _ _ ihHoists ihArms ihRest ihHeld =>
    have hinside : Draft.Extends (e.hold (job.held d b)) f :=
      (Draft.write_extends _ _ _).trans ihArms
    have hfree : ∀ v ∈ job.held d b, v ∉ e.barriers := by
      rw [ihHoists.barriers]
      exact held_free
    exact (ihHoists.trans (Draft.letGo_extends hfree hinside)).trans (ihRest.trans ihHeld)
  | arms_cons _ _ ihArm ihRest =>
    exact ((Draft.endArm_extends ihArm).trans (Draft.nextArm_extends _ _)).trans ihRest

/-- Values that are to be entered have been entered then. -/
theorem Emits.values_mem {vs : List Nat} {d e : Draft} (h : Emits job (.values vs) d e) :
    ∀ v ∈ vs, v ∈ e.entered := by
  induction vs generalizing d with
  | nil => simp
  | cons v vs ih =>
    cases h with
    | values_cons hfirst hrest =>
      intro u hu
      rcases List.mem_cons.mp hu with rfl | hu
      · cases hfirst with
        | value_skip hin => exact hrest.extends.subset hin
        | value_enter _ hdeps =>
          refine hrest.extends.subset ?_
          rw [writeAlone_entered]
          exact hdeps.extends.subset (Draft.mem_enter.mpr (.inr rfl))
      · exact ih hrest u hu

/-- Following the flow enters a node that is not held back. -/
theorem Emits.flow_mem {v : Nat} {d e : Draft} (h : Emits job (.flow v) d e)
    (hfree : v ∉ d.barriers) : v ∈ e.entered := by
  have hentered : v ∈ (d.enter v).entered := Draft.mem_enter.mpr (.inr rfl)
  cases h with
  | flow_skip hskip => exact hskip.resolve_left hfree
  | flow_plain _ _ hdeps _ _ hnext | flow_scope _ _ hdeps _ _ hnext =>
    exact ((hdeps.extends.trans (writeGuarded_writes job _ v).extends).trans hnext.extends).subset
      hentered
  | flow_block _ _ hdeps hblock hnext =>
    exact ((hdeps.extends.trans (block?_alike hblock).extends).trans hnext.extends).subset hentered

/-- Following the flow enters all nodes that are not held back. -/
theorem Emits.flows_mem {vs : List Nat} {d e : Draft} (h : Emits job (.flows vs) d e) :
    ∀ v ∈ vs, v ∉ d.barriers → v ∈ e.entered := by
  induction vs generalizing d with
  | nil => simp
  | cons v vs ih =>
    cases h with
    | flows_cons hfirst hrest =>
      intro u hu hfree
      rcases List.mem_cons.mp hu with rfl | hu
      · exact hrest.extends.subset (hfirst.flow_mem hfree)
      · exact ih hrest u hu (hfirst.extends.barriers ▸ hfree)

/-- A piece of work is done in one way only. -/
theorem Emits.unique {t : Task} {d e f : Draft} (h : Emits job t d e) (h' : Emits job t d f) :
    e = f := by
  induction h generalizing f with
  | value_skip hin =>
    cases h' with
    | value_skip => rfl
    | value_enter hnew => exact absurd hin hnew
  | value_enter hnew _ ih =>
    cases h' with
    | value_skip hin => exact absurd hin hnew
    | value_enter _ hdeps => rw [ih hdeps]
  | values_nil | hoists_nil | flows_nil | arms_nil =>
    cases h'
    rfl
  | values_cons _ _ ih ih' =>
    cases h' with
    | values_cons hfirst hrest =>
      obtain rfl := ih hfirst
      exact ih' hrest
  | hoists_take hshared hhoistable _ _ ih ih' =>
    cases h' with
    | hoists_take _ _ hfirst hrest =>
      obtain rfl := ih hfirst
      exact ih' hrest
    | hoists_leave hleave => exact absurd (by rw [hshared, hhoistable]; rfl) hleave
  | hoists_leave hleave _ ih =>
    cases h' with
    | hoists_take hshared hhoistable => exact absurd (by rw [hshared, hhoistable]; rfl) hleave
    | hoists_leave _ hrest => exact ih hrest
  | flow_skip hskip =>
    cases h' with
    | flow_skip => rfl
    | flow_plain hfree hnew | flow_scope hfree hnew | flow_block hfree hnew =>
      exact absurd hskip (not_or.mpr ⟨hfree, hnew⟩)
  | flow_plain hfree hnew _ hnone hscope _ ihDeps ih =>
    cases h' with
    | flow_skip hskip => exact absurd hskip (not_or.mpr ⟨hfree, hnew⟩)
    | flow_plain _ _ hdeps _ _ hnext =>
      obtain rfl := ihDeps hdeps
      exact ih hnext
    | flow_scope _ _ _ _ hscope' => exact absurd hscope' (by rw [hscope]; decide)
    | flow_block _ _ hdeps hblock =>
      obtain rfl := ihDeps hdeps
      cases hnone.symm.trans hblock
  | flow_scope hfree hnew _ hnone hscope _ ihDeps ih =>
    cases h' with
    | flow_skip hskip => exact absurd hskip (not_or.mpr ⟨hfree, hnew⟩)
    | flow_plain _ _ _ _ hscope' => exact absurd hscope (by rw [hscope']; decide)
    | flow_scope _ _ hdeps _ _ hnext =>
      obtain rfl := ihDeps hdeps
      exact ih hnext
    | flow_block _ _ hdeps hblock =>
      obtain rfl := ihDeps hdeps
      cases hnone.symm.trans hblock
  | flow_block hfree hnew _ hblock _ ihDeps ih =>
    cases h' with
    | flow_skip hskip => exact absurd hskip (not_or.mpr ⟨hfree, hnew⟩)
    | flow_plain _ _ hdeps hnone | flow_scope _ _ hdeps hnone =>
      obtain rfl := ihDeps hdeps
      cases hnone.symm.trans hblock
    | flow_block _ _ hdeps hblock' hnext =>
      obtain rfl := ihDeps hdeps
      obtain ⟨rfl, rfl⟩ := Prod.mk.inj (Option.some.inj (hblock.symm.trans hblock'))
      exact ih hnext
  | block _ _ _ _ ihHoists ihArms ihRest ihHeld =>
    cases h' with
    | block hhoists harms hrest hheld =>
      obtain rfl := ihHoists hhoists
      obtain rfl := ihArms harms
      obtain rfl := ihRest hrest
      exact ihHeld hheld
  | flows_cons _ _ ih ih' =>
    cases h' with
    | flows_cons hfirst hrest =>
      obtain rfl := ih hfirst
      exact ih' hrest
  | arms_cons _ _ ih ih' =>
    cases h' with
    | arms_cons hfirst hrest =>
      obtain rfl := ih hfirst
      exact ih' hrest

/-- What the job of a graph satisfies: its order holds every node of a well-formed graph once. -/
structure WellFormed (job : Job) : Prop where
  graph : job.graph.WellFormed
  order : job.order.Perm job.graph.positions

/-- The nodes in order are the nodes of the graph. -/
theorem WellFormed.mem_order (hjob : job.WellFormed) {v : Nat} :
    v ∈ job.order ↔ v < job.graph.size :=
  hjob.order.mem_iff.trans FlowGraph.mem_positions

/-- The number of nodes that have not been entered. -/
def pending (job : Job) (d : Draft) : Nat :=
  (job.graph.positions.filter fun v => !d.entered.contains v).length

/-- A node is pending exactly if it has not been entered. -/
theorem mem_pending {d : Draft} {v : Nat} :
    v ∈ job.graph.positions.filter (fun v => !d.entered.contains v) ↔
      v < job.graph.size ∧ v ∉ d.entered := by
  simp [List.mem_filter]

/-- The pending nodes are different nodes. -/
theorem pending_nodup (job : Job) (d : Draft) :
    (job.graph.positions.filter fun v => !d.entered.contains v).Nodup :=
  List.Nodup.filter _ List.nodup_range

/-- There are no more pending nodes than nodes. -/
theorem pending_le_size (job : Job) (d : Draft) : job.pending d ≤ job.graph.size := by
  have hle := List.length_filter_le (fun v => !d.entered.contains v) job.graph.positions
  rwa [FlowGraph.positions, List.length_range] at hle

/-- Work leaves no more nodes pending than before. -/
theorem pending_le_of_extends {d e : Draft} (h : Draft.Extends d e) :
    job.pending e ≤ job.pending d := by
  refine (pending_nodup job e).length_le_of_subset fun v hv => ?_
  obtain ⟨hlt, hnew⟩ := mem_pending.mp hv
  exact mem_pending.mpr ⟨hlt, fun hin => hnew (h.subset hin)⟩

/-- Entering a node leaves one node less pending. -/
theorem pending_enter {d : Draft} {v : Nat} (hlt : v < job.graph.size) (hnew : v ∉ d.entered) :
    job.pending (d.enter v) < job.pending d := by
  have hentered : (d.enter v).entered = d.entered ++ [v] := rfl
  have hnodup : (v :: job.graph.positions.filter
      fun w => !(d.enter v).entered.contains w).Nodup := by
    refine List.nodup_cons.mpr ⟨fun hin => ?_, pending_nodup job _⟩
    exact (mem_pending.mp hin).2 (hentered ▸ List.mem_append_right _ (List.mem_singleton.mpr rfl))
  refine hnodup.length_le_of_subset fun w hw => ?_
  rcases List.mem_cons.mp hw with rfl | hw
  · exact mem_pending.mpr ⟨hlt, hnew⟩
  · obtain ⟨hwlt, hwnew⟩ := mem_pending.mp hw
    exact mem_pending.mpr ⟨hwlt, fun hin => hwnew (hentered ▸ List.mem_append_left _ hin)⟩

/-- Without pending nodes every node has been entered. -/
theorem entered_of_pending_zero {d : Draft} {v : Nat} (h : job.pending d ≤ 0)
    (hlt : v < job.graph.size) : v ∈ d.entered := by
  by_contra hnew
  have hpos := List.length_pos_of_mem (mem_pending.mpr ⟨hlt, hnew⟩)
  rw [pending] at h
  omega

end Job

end FlowScript
