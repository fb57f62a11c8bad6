import FlowScript.Proofs.Body
import FlowScript.Proofs.Dominance

/-!
# Work that leaves nothing behind

Where data and execution are kept apart, following the flow comes to an end only when every
successor of a node that was entered on the way has been entered too or waits behind a barrier that
was there before. What a block holds back for its own time is entered when the block is closed. The
work for the entry points of a graph therefore enters all that the flow comes to.
-/

namespace FlowScript

/-- The nodes of the flow that a piece of work starts from. -/
def Task.Starts (w : Nat) : Task → Prop
  | .flow v => w = v
  | .flows vs => w ∈ vs
  | .arms _ xs => ∃ x ∈ xs, w ∈ x.2
  | .block _ b => w ∈ b.rest ∨ ∃ x ∈ b.arms, w ∈ x.2
  | _ => False

namespace Job

variable {job : Job} {d e f : Draft} {t : Task} {u v w : Nat}

/-- Whether a node is none of the flow of execution. -/
def DataOnly (job : Job) (v : Nat) : Prop :=
  job.graph.hasExecutionPorts v = false

/-- What nodes read lies outside the flow of execution. -/
theorem spread_dataOnly (hsep : job.graph.Separated) (F : Nat → Prop)
    (hflow : ∀ v, F v → ∀ w ∈ job.graph.successors v, F w) : Spread job [] job.DataOnly F where
  values _ _ _ hu := hsep.sources _ _ (FlowGraph.mem_dependencies.mp hu)
  reads _ _ _ _ hu := hsep.sources _ _ (FlowGraph.mem_dependencies.mp hu)
  flow v hv _ := hflow v hv

/-- What a node reads lies outside the flow of execution. -/
theorem dependencies_dataOnly (hsep : job.graph.Separated) :
    ∀ u ∈ job.graph.dependencies v, job.DataOnly u :=
  fun u hu => hsep.sources u v (FlowGraph.mem_dependencies.mp hu)

/-- What the regions of a block need lies outside the flow of execution. -/
theorem regionNeeds_dataOnly (hsep : job.graph.Separated) {b : Block} :
    ∀ r ∈ job.regionNeeds d b, ∀ v ∈ r, job.DataOnly v :=
  (spread_dataOnly hsep (fun _ => True) fun _ _ _ _ => trivial).regionNeeds (by simp)
    fun _ _ => trivial

/-- A node outside the flow of execution has no successors. -/
theorem DataOnly.not_leads (hsep : job.graph.Separated) (hv : job.DataOnly v) :
    ¬ job.graph.Leads v w := by
  intro hleads
  have hports := (hsep.ends v w hleads).1
  rw [DataOnly] at hv
  rw [hv] at hports
  cases hports

/-- A node outside the flow of execution lies behind no other. -/
theorem DataOnly.not_behind (hsep : job.graph.Separated) (hv : job.DataOnly v) :
    ¬ Relation.TransGen job.graph.Leads u v :=
  fun hpath => Bool.false_ne_true (hv.symm.trans (hsep.ports_of_path hpath).2)

/-- Work on values enters only nodes outside the flow of execution. -/
theorem Emits.enters_dataOnly (hsep : job.graph.Separated) (h : Emits job t d e)
    (ht : t.Of job.DataOnly fun _ => False) : ∀ v ∈ e.entered, v ∈ d.entered ∨ job.DataOnly v := by
  intro v hv
  have hspread := spread_dataOnly hsep (fun _ => False) fun _ => False.elim
  rcases h.enters_only hspread (by simp) ht v hv with hv | hv | hv
  · exact .inl hv
  · exact .inr hv
  · exact hv.elim

/-- Entering a node and then what it reads enters nothing else of the flow of execution. -/
theorem Emits.enters_read (hsep : job.graph.Separated)
    (h : Emits job (.values (job.graph.dependencies v)) (d.enter v) e) :
    ∀ u ∈ e.entered, u ∈ d.entered ∨ u = v ∨ job.DataOnly u := by
  intro u hu
  rcases h.enters_dataOnly hsep (dependencies_dataOnly hsep) u hu with hin | hdata
  · exact (Draft.mem_enter.mp hin).imp_right .inl
  · exact .inr (.inr hdata)

/-- Successors of nodes that have been entered since `d` are met. -/
def ClosedSince (job : Job) (d e : Draft) : Prop :=
  ∀ u ∈ e.entered, u ∉ d.entered → ∀ w, job.graph.Leads u w → e.Meets w

/-- Work after work. -/
theorem ClosedSince.trans (h : job.ClosedSince d e) (hext : Draft.Extends e f)
    (h' : job.ClosedSince e f) : job.ClosedSince d f := by
  intro u hu hnew w hleads
  by_cases hin : u ∈ e.entered
  · exact (h u hin hnew w hleads).mono hext
  · exact h' u hu hin w hleads

/-- Every node of the flow that the work starts from is met in the end, and so is every successor of
a node that it enters. -/
structure Closes (job : Job) (t : Task) (d e : Draft) : Prop where
  starts : ∀ w, t.Starts w → e.Meets w
  since : job.ClosedSince d e

/-- Work on values has no part in the flow of execution. -/
theorem Emits.closes_dataOnly (hsep : job.graph.Separated) (h : Emits job t d e)
    (ht : t.Of job.DataOnly fun _ => False) (hstarts : ∀ w, ¬ t.Starts w) : job.Closes t d e where
  starts w hw := absurd hw (hstarts w)
  since u hu hnew w hleads := by
    have hdata := (h.enters_dataOnly hsep ht u hu).resolve_left hnew
    exact absurd hleads (hdata.not_leads hsep)

/-- A node is entered, then what it reads, and then its successors are met. -/
theorem Closes.read (hsep : job.graph.Separated)
    (hdeps : Emits job (.values (job.graph.dependencies v)) (d.enter v) e) {s : Draft}
    (hs : s.entered = e.entered) (hnext : Draft.Extends s f) (h : job.Closes t s f)
    (hstarts : ∀ w, job.graph.Leads v w → t.Starts w) : job.Closes (.flow v) d f where
  starts w hw := by
    have hv : v ∈ s.entered := hs ▸ hdeps.extends.subset (Draft.mem_enter.mpr (.inr rfl))
    exact .inl (hnext.subset (hw ▸ hv))
  since u hu hnew w hleads := by
    by_cases hus : u ∈ s.entered
    · rcases hdeps.enters_read hsep u (hs ▸ hus) with hin | rfl | hdata
      · exact absurd hin hnew
      · exact h.starts w (hstarts w hleads)
      · exact absurd hleads (hdata.not_leads hsep)
    · exact h.since u hu hus w hleads

/-- Work that follows the flow leaves nothing behind. -/
theorem Emits.closes (hsep : job.graph.Separated) (h : Emits job t d e)
    (ht : t.Of job.DataOnly fun _ => True) : job.Closes t d e := by
  have hnothing (d : Draft) : job.ClosedSince d d := fun u hu hnew => absurd hu hnew
  induction h with
  | value_skip hin => exact (Emits.value_skip hin).closes_dataOnly hsep ht fun _ => id
  | value_enter hnew hdeps =>
    exact (Emits.value_enter hnew hdeps).closes_dataOnly hsep ht fun _ => id
  | values_nil => exact Emits.values_nil.closes_dataOnly hsep ht fun _ => id
  | values_cons hfirst hrest =>
    exact (Emits.values_cons hfirst hrest).closes_dataOnly hsep ht fun _ => id
  | hoists_nil => exact Emits.hoists_nil.closes_dataOnly hsep ht fun _ => id
  | hoists_take hshared hhoistable hfirst hrest =>
    exact (Emits.hoists_take hshared hhoistable hfirst hrest).closes_dataOnly hsep ht fun _ => id
  | hoists_leave hleave hrest =>
    exact (Emits.hoists_leave hleave hrest).closes_dataOnly hsep ht fun _ => id
  | flow_skip hskip => exact ⟨fun w hw => hw ▸ hskip.symm, hnothing _⟩
  | @flow_plain v d e f _ _ hdeps _ _ hnext _ ih =>
    exact .read hsep hdeps (writeGuarded_writes job e v).entered hnext.extends
      (ih fun _ _ => trivial) fun w hw => FlowGraph.mem_successors.mpr hw
  | @flow_scope v d e f _ _ hdeps _ _ hnext _ ih =>
    exact .read hsep hdeps (writeGuarded_writes job e v).entered hnext.extends
      (ih fun _ _ _ _ => trivial)
      fun w hw => ⟨_, List.mem_singleton.mpr rfl, FlowGraph.mem_successors.mpr hw⟩
  | @flow_block v d e b s f _ _ hdeps hblock hnext _ ih =>
    exact .read hsep hdeps (block?_alike hblock).entered hnext.extends (ih fun _ _ => trivial)
      fun w hw => (block?_targets hblock w).mp (FlowGraph.mem_successors.mpr hw)
  | @block owner b d e f h i hhoists harms hrest hheld _ ihArms ihRest ihHeld =>
    have harms' := ihArms fun _ _ _ _ => trivial
    have hrest' := ihRest fun _ _ => trivial
    have hheld' := ihHeld fun _ _ => trivial
    -- what the arms leave behind the barriers of the block is let go and followed after it
    have hlet : (f.letGo (job.held d b)).barriers = e.barriers := by
      have hfree : ∀ v ∈ job.held d b, v ∉ e.barriers := hhoists.extends.barriers ▸ held_free
      exact (Draft.letGo_extends hfree ((Draft.write_extends _ _ _).trans harms.extends)).barriers
    have hlast := hrest.extends.trans hheld.extends
    have hafter {w : Nat} (hw : f.Meets w) : i.Meets w := by
      rcases hw with hw | hw
      · exact .inl (hlast.subset hw)
      · have hbarriers : f.barriers = e.barriers ++ job.held d b := harms.extends.barriers
        rw [hbarriers, List.mem_append] at hw
        rcases hw with hw | hw
        · exact .inr (hlast.barriers ▸ hlet ▸ hw)
        · exact hheld'.starts w hw
    have hrests : job.ClosedSince (f.letGo (job.held d b)) i :=
      hrest'.since.trans hheld.extends hheld'.since
    constructor
    · intro w hw
      rcases hw with hw | hw
      · exact (hrest'.starts w hw).mono hheld.extends
      · exact hafter (harms'.starts w hw)
    · intro u hu hnew w hleads
      by_cases hue : u ∈ e.entered
      · have hdata := hhoists.enters_dataOnly hsep (regionNeeds_dataOnly hsep) u hue
        exact absurd hleads ((hdata.resolve_left hnew).not_leads hsep)
      by_cases huf : u ∈ f.entered
      · exact hafter (harms'.since u huf hue w hleads)
      · exact hrests u hu huf w hleads
  | flows_nil => exact ⟨fun w hw => absurd hw List.not_mem_nil, hnothing _⟩
  | @flows_cons v vs d e f hfirst hrest ih ih' =>
    have hfirst' := ih trivial
    have hrest' := ih' fun _ _ => trivial
    refine ⟨fun w hw => ?_, hfirst'.since.trans hrest.extends hrest'.since⟩
    rcases List.mem_cons.mp hw with rfl | hw
    · exact (hfirst'.starts w rfl).mono hrest.extends
    · exact hrest'.starts w hw
  | arms_nil => exact ⟨fun w ⟨x, hx, _⟩ => absurd hx List.not_mem_nil, hnothing _⟩
  | @arms_cons owner arm targets rest d e f harm hrest ihArm ihRest =>
    have harm' := ihArm fun _ _ => trivial
    have hrest' := ihRest fun _ _ _ _ => trivial
    have hsame {w : Nat} (hw : e.Meets w) :
        (((d.openArm owner arm).endArm owner arm e).nextArm rest).Meets w := by
      simpa [Draft.Meets] using hw
    have hsince : job.ClosedSince d (((d.openArm owner arm).endArm owner arm e).nextArm rest) :=
      fun u hu hnew w hleads => hsame (harm'.since u (by simpa using hu) hnew w hleads)
    refine ⟨fun w hw => ?_, hsince.trans hrest.extends hrest'.since⟩
    obtain ⟨x, hx, hwx⟩ := hw
    rcases List.mem_cons.mp hx with rfl | hx
    · exact (hsame (harm'.starts w hwx)).mono hrest.extends
    · exact hrest'.starts w ⟨x, hx, hwx⟩

/-- A plain input takes no part in the flow of execution. -/
theorem dataOnly_of_isPlainInput (hv : job.isPlainInput v = true) : job.DataOnly v := by
  rw [isPlainInput] at hv
  rw [DataOnly, FlowGraph.hasExecutionPorts]
  cases hnode : job.graph.node? v with
  | none => rfl
  | some n =>
    simp only [hnode, Option.any_some, decide_eq_true_eq] at hv
    simpa using hv.2

/-- The pieces of work for entry points are work on plain inputs and on entry points. -/
theorem entryTasks_of {F : Nat → Prop} (hF : ∀ entry ∈ job.graph.entryPoints, F entry) {t : Task}
    (ht : t ∈ job.graph.entryPoints.flatMap job.entryTasks) :
    (∃ vs, t = .values vs ∧ ∀ v ∈ vs, job.DataOnly v) ∨ ∃ v, t = .flow v ∧ F v := by
  obtain ⟨entry, hentry, ht⟩ := List.mem_flatMap.mp ht
  simp only [entryTasks, List.mem_cons, List.not_mem_nil, or_false] at ht
  rcases ht with rfl | rfl
  · exact .inl ⟨_, rfl, fun v hv => dataOnly_of_isPlainInput (List.mem_filter.mp hv).2⟩
  · exact .inr ⟨_, rfl, hF entry hentry⟩

/-- Pieces of work that follow the flow leave nothing behind. -/
theorem Performs.closedSince (hsep : job.graph.Separated) {ts : List Task}
    (h : Performs job ts d e) (hts : ∀ t ∈ ts, t.Of job.DataOnly fun _ => True) :
    job.ClosedSince d e := by
  induction h with
  | nil => exact fun u hu hnew => absurd hu hnew
  | cons hfirst hrest ih =>
    have hsince := (hfirst.closes hsep (hts _ List.mem_cons_self)).since
    exact hsince.trans hrest.extends (ih fun t ht => hts t (List.mem_cons_of_mem _ ht))

/-- From nothing, the work for the entry points enters every node that the flow comes to. -/
theorem Performs.reached_mem (hsep : job.graph.Separated)
    (h : Performs job (job.graph.entryPoints.flatMap job.entryTasks) d e)
    (hbarriers : d.barriers = []) (hentered : d.entered = []) (hv : job.graph.Reached v) :
    v ∈ e.entered := by
  obtain ⟨entry, hentry, hpath⟩ := hv
  have hsince := h.closedSince hsep fun t ht => by
    rcases entryTasks_of (F := fun _ => True) (fun _ _ => trivial) ht with
      ⟨vs, rfl, hvs⟩ | ⟨v, rfl, -⟩
    · exact hvs
    · trivial
  induction hpath with
  | refl =>
    refine h.flow_mem (List.mem_flatMap.mpr ⟨entry, hentry, ?_⟩) (by simp [hbarriers])
    exact List.mem_cons_of_mem _ List.mem_cons_self
  | @tail a b _ hlast ih =>
    refine (hsince a ih (by simp [hentered]) b hlast).resolve_right ?_
    simp [h.extends.barriers, hbarriers]

end Job

end FlowScript
