import FlowScript.Proofs.Arms
import FlowScript.Proofs.Body

/-!
# Where a node stands among the blocks

At each step of a trace some arms of conditionals and loops are open. A piece of work closes every arm
that it opens, so it leaves the open arms as they were, and all that it does is done inside of them.
A node that is entered writes its lines, or its header, where it was entered: what it reads comes in
between, and values open no arm of a conditional or a loop.
-/

namespace FlowScript

/-- The open arms after a step. The scope of a pattern is no arm of a conditional or a loop. -/
def Event.nest (stack : List (Nat × Arm)) : Event → List (Nat × Arm)
  | .opened c arm => if arm = .scope then stack else stack ++ [(c, arm)]
  | .closed _ arm => if arm = .scope then stack else stack.dropLast
  | _ => stack

/-- The arms of conditionals and loops that are open at the end of a trace, the innermost last. -/
def openArms (trace : List Event) : List (Nat × Arm) :=
  trace.foldl Event.nest []

/-- The arms that are open where a trace enters a node. -/
def armsAt (trace : List Event) (v : Nat) : List (Nat × Arm) :=
  openArms (trace.takeWhile fun x => x.entered? != some v)

/-- A trace enters a node, and does so and writes the lines of the node while the same arms are
open. -/
def Stands (trace : List Event) (v : Nat) (stack : List (Nat × Arm)) : Prop :=
  v ∈ entries trace ∧ ∀ before x after, trace = before ++ x :: after →
    x.entered? = some v ∨ x.origin? = some v → openArms before = stack

variable {trace new : List Event} {v : Nat}

/-- Steps after a trace go on from its open arms. -/
theorem openArms_append (trace new : List Event) :
    openArms (trace ++ new) = new.foldl Event.nest (openArms trace) :=
  List.foldl_append

/-- Steps that open and close nothing leave the open arms alone. -/
theorem openArms_append_of_owner? (hnew : ∀ x ∈ new, x.owner? = none) :
    openArms (trace ++ new) = openArms trace := by
  rw [openArms_append]
  induction new with
  | nil => rfl
  | cons x new ih =>
    have hx : Event.nest (openArms trace) x = openArms trace := by
      have howner := hnew x List.mem_cons_self
      cases x <;> simp_all [Event.nest, Event.owner?]
    rw [List.foldl_cons, hx]
    exact ih fun y hy => hnew y (List.mem_cons_of_mem _ hy)

/-- An arm that is opened and closed leaves the open arms as they were. -/
theorem nest_closed_opened (stack : List (Nat × Arm)) (c : Nat) (arm : Arm) :
    Event.nest (Event.nest stack (.opened c arm)) (.closed c arm) = stack := by
  by_cases harm : arm = .scope <;> simp [Event.nest, harm]

/-- Opening an arm leaves the arms around it open. -/
theorem prefix_nest_opened (stack : List (Nat × Arm)) (c : Nat) (arm : Arm) :
    stack <+: Event.nest stack (.opened c arm) := by
  by_cases harm : arm = .scope <;> simp [Event.nest, harm]

/-- A node is entered with the arms open that are open before its first entry. -/
theorem armsAt_eq_of_split {before after : List Event} (hbefore : v ∉ entries before) :
    armsAt (before ++ .enter v :: after) v = openArms before := by
  have hall : ∀ x ∈ before, (x.entered? != some v) = true := by
    intro x hx
    simp only [bne_iff_ne, ne_eq]
    exact fun hentered => hbefore (List.mem_filterMap.mpr ⟨x, hx, hentered⟩)
  rw [armsAt, List.takeWhile_append_of_pos hall]
  simp [Event.entered?]

namespace Draft

variable {d e f : Draft}

/-- The trace of a draft enters the nodes that the draft lists as entered. -/
def Recorded (d : Draft) : Prop :=
  entries d.trace = d.entered

/-- Work keeps the record. -/
theorem Recorded.extends (h : d.Recorded) (hext : Extends d e) : e.Recorded := by
  obtain ⟨new, hentered, -, -, hentries⟩ := hext.entered
  rw [Recorded, hentries, hentered, show entries d.trace = d.entered from h]

/-- Opening an arm keeps the record. -/
theorem Recorded.openArm (h : d.Recorded) (owner : Nat) (arm : Arm) :
    (d.openArm owner arm).Recorded := by
  have hentries : entries (d.openArm owner arm).trace = entries d.trace := by
    simp [entries, Draft.openArm, Event.entered?]
  exact hentries.trans h

/-- A node that is new is entered where the draft is. -/
theorem Recorded.armsAt_enter (h : d.Recorded) (hnew : v ∉ d.entered)
    (htrace : (d.enter v).trace <+: trace) : armsAt trace v = openArms d.trace := by
  obtain ⟨after, rfl⟩ := htrace
  have hbefore : v ∉ entries d.trace := by rwa [show entries d.trace = d.entered from h]
  rw [show (d.enter v).trace ++ after = d.trace ++ .enter v :: after by simp [enter]]
  exact armsAt_eq_of_split hbefore

/-- Entering a node opens nothing. -/
@[simp] theorem openArms_enter (d : Draft) (v : Nat) :
    openArms (d.enter v).trace = openArms d.trace :=
  openArms_append_of_owner? (by simp [Event.owner?])

/-- A line opens nothing. -/
@[simp] theorem openArms_write (d : Draft) (origin : Option Nat) (text : String) :
    openArms (d.write origin text).trace = openArms d.trace :=
  openArms_append_of_owner? (by simp [Event.owner?])

/-- Announcing an arm opens nothing yet. -/
@[simp] theorem openArms_nextArm (rest : List (Arm × List Nat)) (d : Draft) :
    openArms (d.nextArm rest).trace = openArms d.trace := by
  rw [nextArm]
  split
  · rfl
  · exact openArms_write d none _

/-- The lines of a node open nothing. -/
theorem Writes.openArms_eq {job : Job} (h : Writes job v d e) :
    openArms e.trace = openArms d.trace := by
  obtain ⟨own, htrace, hown⟩ := h.trace
  rw [htrace]
  exact openArms_append_of_owner? fun x hx => Event.owner?_of_origin? (hown x hx)

/-- Opening an arm. -/
theorem openArms_openArm (d : Draft) (owner : Nat) (arm : Arm) :
    openArms (d.openArm owner arm).trace = Event.nest (openArms d.trace) (.opened owner arm) :=
  openArms_append _ _

/-- When an arm is closed, the arms are open that were open before it. -/
theorem openArms_endArm {owner : Nat} {arm : Arm}
    (h : openArms e.trace = openArms (d.openArm owner arm).trace) :
    openArms ((d.openArm owner arm).endArm owner arm e).trace = openArms d.trace := by
  obtain ⟨pass, htrace, hpass⟩ := endArm_trace owner arm (d.openArm owner arm) e
  have hquiet : openArms (e.trace ++ pass) = openArms e.trace :=
    openArms_append_of_owner? fun x hx => by simp [hpass x hx, Event.owner?]
  rw [htrace, openArms_append, hquiet, h, openArms_openArm]
  exact nest_closed_opened _ _ _

/-- The lines that are written from one draft to the next stand where their nodes are entered in a
trace. -/
def Aligned (trace : List Event) (d e : Draft) : Prop :=
  ∀ part x v, d.trace <+: part → part ++ [x] <+: e.trace → x.origin? = some v →
    openArms part = armsAt trace v

namespace Aligned

/-- Work after work. -/
theorem trans (h : Aligned trace d e) (h' : Aligned trace e f) (hext : e.trace <+: f.trace) :
    Aligned trace d f := by
  intro part x v hpart hnext hx
  rcases List.prefix_or_prefix_of_prefix hnext hext with hin | hin
  · exact h part x v hpart hin hx
  · rcases List.prefix_concat_iff.mp hin with heq | hin
    · exact h part x v hpart (heq ▸ List.prefix_refl _) hx
    · exact h' part x v hin hnext hx

/-- Steps that write no line of a node. -/
theorem of_origin? (htrace : e.trace = d.trace ++ new) (hnew : ∀ x ∈ new, x.origin? = none) :
    Aligned trace d e := by
  rintro part x v ⟨first, rfl⟩ hnext hx
  rw [htrace, List.append_assoc, List.prefix_append_right_inj] at hnext
  rw [hnew x (hnext.subset (by simp))] at hx
  cases hx

/-- Lines of one node that are written where it was entered. -/
theorem of_own (htrace : e.trace = d.trace ++ new) (hnew : ∀ x ∈ new, x.origin? = some v)
    (hv : armsAt trace v = openArms d.trace) : Aligned trace d e := by
  rintro part x u ⟨first, rfl⟩ hnext hx
  rw [htrace, List.append_assoc, List.prefix_append_right_inj] at hnext
  obtain rfl : v = u := Option.some.inj ((hnew x (hnext.subset (by simp))).symm.trans hx)
  rw [hv]
  refine openArms_append_of_owner? fun y hy => Event.owner?_of_origin? (hnew y ?_)
  exact hnext.subset (List.mem_append_left _ hy)

/-- Nothing is written. -/
theorem of_eq (htrace : e.trace = d.trace) : Aligned trace d e :=
  of_origin? (htrace.trans (List.append_nil _).symm) (by simp)

/-- An arm is closed and the next one announced. -/
theorem endArm (owner : Nat) (arm : Arm) (rest : List (Arm × List Nat)) (d e : Draft) :
    Aligned trace e ((d.endArm owner arm e).nextArm rest) := by
  obtain ⟨pass, hended, hpass⟩ := endArm_trace owner arm d e
  have hclosed : Aligned trace e (d.endArm owner arm e) := by
    refine of_origin? (hended.trans (List.append_assoc ..)) fun x hx => ?_
    rcases List.mem_append.mp hx with hx | hx
    · simp [hpass x hx, Event.origin?]
    · simp [List.mem_singleton.mp hx, Event.origin?]
  refine hclosed.trans (of_origin? (nextArm_trace rest _) ?_) (nextArm_extends _ rest).trace
  split <;> simp [Event.origin?]

end Aligned

end Draft

/-- The node of a block was entered where the block begins. -/
def Task.Placed (trace : List Event) (d : Draft) : Task → Prop
  | .block c _ => armsAt trace c = openArms d.trace
  | _ => True

/-- Work on values only. -/
def Task.OnValues : Task → Prop
  | .value _ | .values _ | .hoists .. => True
  | _ => False

namespace Job

variable {job : Job} {t : Task} {d e f : Draft}

/-- Writing a node whose successors are left alone leaves the open arms as they were. -/
@[simp] theorem openArms_writeAlone (job : Job) (v : Nat) (d : Draft) :
    openArms (job.writeAlone v d).trace = openArms d.trace := by
  have hwrites := (writeGuarded_writes job d v).openArms_eq
  rw [writeAlone]
  split
  · refine Eq.trans ?_ hwrites
    simp [Draft.closeArm, Draft.write, Draft.openArm, openArms_append, Event.nest]
  · exact hwrites

/-- A piece of work leaves the open arms as they were. -/
theorem Emits.openArms_eq (h : Emits job t d e) : openArms e.trace = openArms d.trace := by
  induction h with
  | value_skip | values_nil | hoists_nil | flow_skip | flows_nil | arms_nil => rfl
  | value_enter _ _ ih => simpa using ih
  | values_cons _ _ ih ih' | flows_cons _ _ ih ih' => exact ih'.trans ih
  | hoists_take _ _ _ _ ih ih' => exact ih'.trans ih
  | hoists_leave _ _ ih => exact ih
  | @flow_plain v d e f _ _ _ _ _ _ ihDeps ih | @flow_scope v d e f _ _ _ _ _ _ ihDeps ih =>
    rw [ih, (writeGuarded_writes job e v).openArms_eq, ihDeps, Draft.openArms_enter]
  | flow_block _ _ _ hblock _ ihDeps ih =>
    rw [ih, (block?_alike hblock).trace, ihDeps, Draft.openArms_enter]
  | block _ _ _ _ ihHoists ihArms ihRest ihHeld =>
    rw [Draft.openArms_write] at ihArms
    exact ihHeld.trans (ihRest.trans (ihArms.trans ihHoists))
  | arms_cons _ _ ihArm ihRest =>
    rw [ihRest, Draft.openArms_nextArm, Draft.openArms_endArm ihArm]

/-- Work enters nodes inside of the arms that are open when it begins; values are entered in no
other. -/
theorem Emits.armsAt_new (h : Emits job t d e) (hd : d.Recorded) (htrace : e.trace <+: trace) :
    ∀ v ∈ e.entered, v ∉ d.entered → openArms d.trace <+: armsAt trace v ∧
      (t.OnValues → armsAt trace v = openArms d.trace) := by
  -- a node is entered, and then what it reads
  have hread {v : Nat} {d e : Draft} (hd : d.Recorded) (hnew : v ∉ d.entered)
      (hdeps : Emits job (.values (job.graph.dependencies v)) (d.enter v) e)
      (htrace : e.trace <+: trace)
      (ih : (d.enter v).Recorded → e.trace <+: trace → ∀ u ∈ e.entered, u ∉ (d.enter v).entered →
        openArms (d.enter v).trace <+: armsAt trace u ∧
          ((Task.values (job.graph.dependencies v)).OnValues →
            armsAt trace u = openArms (d.enter v).trace)) :
      ∀ u ∈ e.entered, u ∉ d.entered → armsAt trace u = openArms d.trace := by
    intro u hu hfresh
    by_cases hin : u ∈ (d.enter v).entered
    · obtain rfl := (Draft.mem_enter.mp hin).resolve_left hfresh
      exact hd.armsAt_enter hnew (hdeps.extends.trace.trans htrace)
    · have hvalue := (ih (hd.extends (Draft.enter_extends hnew)) htrace u hu hin).2 trivial
      rwa [Draft.openArms_enter] at hvalue
  have hexact {stack stack' : List (Nat × Arm)} {P : Prop} (heq : stack' = stack) :
      stack <+: stack' ∧ (P → stack' = stack) := ⟨heq ▸ List.prefix_refl _, fun _ => heq⟩
  induction h with
  | value_skip | values_nil | hoists_nil | flow_skip | flows_nil | arms_nil =>
    exact fun v hv hnew => absurd hv hnew
  | @value_enter v d e hnew hdeps ih =>
    intro u hu hfresh
    rw [writeAlone_entered] at hu
    have hbefore := (writeAlone_extends job v e).trace.trans htrace
    exact hexact (hread hd hnew hdeps hbefore ih u hu hfresh)
  | @values_cons v vs d e f hfirst hrest ih ih' =>
    intro u hu hfresh
    by_cases hin : u ∈ e.entered
    · exact hexact ((ih hd (hrest.extends.trace.trans htrace) u hin hfresh).2 trivial)
    · have hlater := (ih' (hd.extends hfirst.extends) htrace u hu hin).2 trivial
      exact hexact (hlater.trans hfirst.openArms_eq)
  | @hoists_take owner needs v vs d e f _ _ hfirst hrest ih ih' =>
    intro u hu hfresh
    by_cases hin : u ∈ e.entered
    · exact hexact ((ih hd (hrest.extends.trace.trans htrace) u hin hfresh).2 trivial)
    · have hlater := (ih' (hd.extends hfirst.extends) htrace u hu hin).2 trivial
      exact hexact (hlater.trans hfirst.openArms_eq)
  | hoists_leave _ _ ih => exact ih hd htrace
  | @flow_plain v d e f _ hnew hdeps _ _ hnext ihDeps ih
  | @flow_scope v d e f _ hnew hdeps _ _ hnext ihDeps ih =>
    have hwrites := writeGuarded_writes job e v
    have hbefore := (hwrites.extends.trans hnext.extends).trace.trans htrace
    have hrecorded := ((hd.extends (Draft.enter_extends hnew)).extends hdeps.extends).extends
      hwrites.extends
    intro u hu hfresh
    refine ⟨?_, False.elim⟩
    by_cases hin : u ∈ e.entered
    · exact (hexact (P := True) (hread hd hnew hdeps hbefore ihDeps u hin hfresh)).1
    · have hlater := (ih hrecorded htrace u hu (hwrites.entered ▸ hin)).1
      rwa [hwrites.openArms_eq, hdeps.openArms_eq, Draft.openArms_enter] at hlater
  | @flow_block v d e b s f _ hnew hdeps hblock hnext ihDeps ih =>
    have halike := block?_alike hblock
    have hbefore := (halike.extends.trans hnext.extends).trace.trans htrace
    have hrecorded := ((hd.extends (Draft.enter_extends hnew)).extends hdeps.extends).extends
      halike.extends
    intro u hu hfresh
    refine ⟨?_, False.elim⟩
    by_cases hin : u ∈ e.entered
    · exact (hexact (P := True) (hread hd hnew hdeps hbefore ihDeps u hin hfresh)).1
    · have hlater := (ih hrecorded htrace u hu (halike.entered ▸ hin)).1
      rwa [halike.trace, hdeps.openArms_eq, Draft.openArms_enter] at hlater
  | @block c b d e f h i hhoists harms hrest hheld ihHoists ihArms ihRest ihHeld =>
    have hinside : Draft.Extends (e.hold (job.held d b)) f :=
      (Draft.write_extends _ _ _).trans harms.extends
    have hafter := hheld.extends.trace.trans htrace
    have hduring : f.trace <+: trace := hrest.extends.trace.trans hafter
    have he := hd.extends hhoists.extends
    have hhold : (e.hold (job.held d b)).Recorded := he
    have hf : f.Recorded := hhold.extends hinside
    have hletGo : (f.letGo (job.held d b)).Recorded := hf
    have hstack : openArms f.trace = openArms d.trace := by
      rw [harms.openArms_eq, Draft.openArms_write]
      exact hhoists.openArms_eq
    intro u hu hfresh
    refine ⟨?_, False.elim⟩
    by_cases hinHoists : u ∈ e.entered
    · exact (ihHoists hd (hinside.trace.trans hduring) u hinHoists hfresh).1
    by_cases hinArms : u ∈ f.entered
    · have hlater := (ihArms (hhold.extends (Draft.write_extends _ _ _)) hduring u hinArms
        hinHoists).1
      rw [Draft.openArms_write] at hlater
      exact hhoists.openArms_eq ▸ hlater
    by_cases hinRest : u ∈ h.entered
    · exact hstack ▸ (ihRest hletGo hafter u hinRest hinArms).1
    · have hlater := (ihHeld (hletGo.extends hrest.extends) htrace u hu hinRest).1
      rw [hrest.openArms_eq] at hlater
      exact hstack ▸ hlater
  | @flows_cons v vs d e f hfirst hrest ih ih' =>
    intro u hu hfresh
    refine ⟨?_, False.elim⟩
    by_cases hin : u ∈ e.entered
    · exact (ih hd (hrest.extends.trace.trans htrace) u hin hfresh).1
    · exact hfirst.openArms_eq ▸ (ih' (hd.extends hfirst.extends) htrace u hu hin).1
  | @arms_cons owner arm targets rest d e f harm hrest ihArm ihRest =>
    have hclosed := (Draft.endArm_extends harm.extends).trans
      (Draft.nextArm_extends ((d.openArm owner arm).endArm owner arm e) rest)
    have hinside := (Draft.trace_nextArm_endArm owner arm rest (d.openArm owner arm) e).trans
      (hrest.extends.trace.trans htrace)
    intro u hu hfresh
    refine ⟨?_, False.elim⟩
    by_cases hin : u ∈ e.entered
    · have hlater := (ihArm (hd.openArm owner arm) hinside u hin hfresh).1
      rw [Draft.openArms_openArm] at hlater
      exact (prefix_nest_opened _ _ _).trans hlater
    · have hlater := (ihRest (hd.extends hclosed) htrace u hu (by simpa using hin)).1
      rwa [Draft.openArms_nextArm, Draft.openArms_endArm harm.openArms_eq] at hlater

/-- A header or the lines of a node are written where the node was entered; for a block, its node has
been. -/
theorem Emits.aligned (h : Emits job t d e) (hd : d.Recorded) (htrace : e.trace <+: trace)
    (ht : t.Placed trace d) : Draft.Aligned trace d e := by
  -- a node is entered, and then what it reads
  have hread {v : Nat} {d e : Draft} (hd : d.Recorded) (hnew : v ∉ d.entered)
      (hdeps : Emits job (.values (job.graph.dependencies v)) (d.enter v) e)
      (htrace : e.trace <+: trace) (ih : Draft.Aligned trace (d.enter v) e) :
      Draft.Aligned trace d e ∧ armsAt trace v = openArms e.trace := by
    refine ⟨(Draft.Aligned.of_origin? rfl (by simp [Event.origin?])).trans ih hdeps.extends.trace, ?_⟩
    rw [hd.armsAt_enter hnew (hdeps.extends.trace.trans htrace), hdeps.openArms_eq,
      Draft.openArms_enter]
  -- then its lines are written
  have hwritten {v : Nat} {d e : Draft} (hd : d.Recorded) (hnew : v ∉ d.entered)
      (hdeps : Emits job (.values (job.graph.dependencies v)) (d.enter v) e)
      (htrace : e.trace <+: trace) (ih : Draft.Aligned trace (d.enter v) e) :
      Draft.Aligned trace d (job.writeGuarded e v) := by
    obtain ⟨hvalues, hv⟩ := hread hd hnew hdeps htrace ih
    obtain ⟨own, hlines, hown⟩ := (writeGuarded_writes job e v).trace
    exact hvalues.trans (.of_own hlines hown hv) (writeGuarded_writes job e v).extends.trace
  have hentered {v : Nat} {d e : Draft} (hd : d.Recorded) (hnew : v ∉ d.entered)
      (hdeps : Emits job (.values (job.graph.dependencies v)) (d.enter v) e) : e.Recorded :=
    (hd.extends (Draft.enter_extends hnew)).extends hdeps.extends
  induction h with
  | value_skip | values_nil | hoists_nil | flow_skip | flows_nil | arms_nil => exact .of_eq rfl
  | @value_enter v d e hnew hdeps ih =>
    have hbefore := (writeAlone_extends job v e).trace.trans htrace
    have hlines := hwritten hd hnew hdeps hbefore
      (ih (hd.extends (Draft.enter_extends hnew)) hbefore trivial)
    rw [writeAlone]
    split
    · exact hlines.trans (.of_origin? (by simp [Draft.closeArm, Draft.write, Draft.openArm]; rfl)
        (by simp [Event.origin?])) (by simp [Draft.closeArm, Draft.write, Draft.openArm])
    · exact hlines
  | values_cons hfirst hrest ih ih' | flows_cons hfirst hrest ih ih' =>
    exact (ih hd (hrest.extends.trace.trans htrace) trivial).trans
      (ih' (hd.extends hfirst.extends) htrace trivial) hrest.extends.trace
  | hoists_take _ _ hfirst hrest ih ih' =>
    exact (ih hd (hrest.extends.trace.trans htrace) trivial).trans
      (ih' (hd.extends hfirst.extends) htrace trivial) hrest.extends.trace
  | hoists_leave _ _ ih => exact ih hd htrace trivial
  | @flow_plain v d e f _ hnew hdeps _ _ hnext ihDeps ih
  | @flow_scope v d e f _ hnew hdeps _ _ hnext ihDeps ih =>
    have hwrites := (writeGuarded_writes job e v).extends
    have hbefore := (hwrites.trans hnext.extends).trace.trans htrace
    have hlines := hwritten hd hnew hdeps hbefore
      (ihDeps (hd.extends (Draft.enter_extends hnew)) hbefore trivial)
    exact hlines.trans (ih ((hentered hd hnew hdeps).extends hwrites) htrace trivial)
      hnext.extends.trace
  | @flow_block v d e b s f _ hnew hdeps hblock hnext ihDeps ih =>
    have halike := block?_alike hblock
    have hbefore := (halike.extends.trans hnext.extends).trace.trans htrace
    obtain ⟨hvalues, hv⟩ := hread hd hnew hdeps hbefore
      (ihDeps (hd.extends (Draft.enter_extends hnew)) hbefore trivial)
    have hshaped := hvalues.trans (.of_eq halike.trace) halike.extends.trace
    have hplaced : armsAt trace v = openArms s.trace := by rw [halike.trace, hv]
    exact hshaped.trans (ih ((hentered hd hnew hdeps).extends halike.extends) htrace hplaced)
      hnext.extends.trace
  | @block c b d e f h i hhoists harms hrest hheld ihHoists ihArms ihRest ihHeld =>
    have hinside : Draft.Extends (e.hold (job.held d b)) f :=
      (Draft.write_extends _ _ _).trans harms.extends
    have hafter := hheld.extends.trace.trans htrace
    have hduring : f.trace <+: trace := hrest.extends.trace.trans hafter
    have he : e.Recorded := hd.extends hhoists.extends
    have hhold : (e.hold (job.held d b)).Recorded := he
    have hf : f.Recorded := hhold.extends hinside
    have hletGo : (f.letGo (job.held d b)).Recorded := hf
    have hheader : Draft.Aligned trace e ((e.hold (job.held d b)).write (some c) b.header) :=
      .of_own (v := c) rfl (by simp [Event.origin?]) (Eq.trans ht hhoists.openArms_eq.symm)
    have hopen := (ihHoists hd (hinside.trace.trans hduring) trivial).trans hheader
      (List.prefix_append _ _)
    have harmed := hopen.trans (ihArms (hhold.extends (Draft.write_extends _ _ _)) hduring trivial)
      harms.extends.trace
    have hrested : Draft.Aligned trace d h :=
      harmed.trans (ihRest hletGo hafter trivial) hrest.extends.trace
    exact hrested.trans (ihHeld (hletGo.extends hrest.extends) htrace trivial) hheld.extends.trace
  | @arms_cons owner arm targets rest d e f harm hrest ihArm ihRest =>
    have hclosed := (Draft.endArm_extends harm.extends).trans
      (Draft.nextArm_extends ((d.openArm owner arm).endArm owner arm e) rest)
    have hinside := (Draft.trace_nextArm_endArm owner arm rest (d.openArm owner arm) e).trans
      (hrest.extends.trace.trans htrace)
    have hopening : Draft.Aligned trace d (d.openArm owner arm) :=
      .of_origin? rfl (by simp [Event.origin?])
    have hfilled := hopening.trans (ihArm (hd.openArm owner arm) hinside trivial) harm.extends.trace
    exact (hfilled.trans (.endArm owner arm rest _ e) (Draft.trace_nextArm_endArm ..)).trans
      (ihRest (hd.extends hclosed) htrace trivial) hrest.extends.trace

/-- Pieces of work, none of them a block, write the lines of each node where it was entered. -/
theorem Performs.aligned {ts : List Task} (h : Performs job ts d e) (hd : d.Recorded)
    (htrace : e.trace <+: trace) (hts : ∀ t ∈ ts, ∀ c b, t ≠ .block c b) :
    Draft.Aligned trace d e := by
  induction h with
  | nil => exact .of_eq rfl
  | @cons t ts d e f hfirst hrest ih =>
    have hplaced : t.Placed trace d := by
      cases t with
      | block c b => exact absurd rfl (hts _ List.mem_cons_self c b)
      | value | values | hoists | flow | flows | arms => trivial
    exact (hfirst.aligned hd (hrest.extends.trace.trans htrace) hplaced).trans (ih (hd.extends hfirst.extends) htrace
      fun t ht => hts t (List.mem_cons_of_mem _ ht)) hrest.extends.trace

end Job

/-- Where the lines of all nodes are written where the nodes are entered, each node stands there. -/
theorem Draft.Aligned.stands {d e : Draft} (h : Aligned e.trace d e) (hd : d.trace = [])
    (hnodup : (entries e.trace).Nodup) (hv : v ∈ entries e.trace) :
    Stands e.trace v (armsAt e.trace v) := by
  refine ⟨hv, fun before x after hsplit hx => ?_⟩
  rcases hx with hx | hx
  · obtain rfl : x = .enter v := by cases x <;> simp_all [Event.entered?]
    have hbefore : v ∉ entries before := by
      intro hin
      rw [hsplit, entries, List.filterMap_append, List.nodup_append] at hnodup
      exact hnodup.2.2 v hin v (by simp [Event.entered?]) rfl
    rw [hsplit, armsAt_eq_of_split hbefore]
  · refine h before x v (hd ▸ List.nil_prefix) ?_ hx
    exact ⟨after, by rw [hsplit, List.append_assoc, List.singleton_append]⟩

end FlowScript
