import FlowScript.Proofs.Emission

/-!
# The steps of an emission

All work is made of a few steps: a node is entered, its lines are written, it becomes a block, a line
completes a block, an arm is opened or closed, nodes are held back or let go. What no step can break
holds throughout an emission.
-/

namespace FlowScript

/-- An arm of the node has been opened. -/
def Draft.Opened (d : Draft) (v : Nat) : Prop :=
  ∃ arm, .opened v arm ∈ d.trace

/-- Only arms of nodes in `S` have been opened. -/
def Draft.Opens (S : Nat → Prop) (d : Draft) : Prop :=
  ∀ v, d.Opened v → S v

/-- What only nodes in `S` have opened was opened only by nodes in `S` before. -/
theorem Draft.Opens.earlier {S : Nat → Prop} {d e : Draft} (h : e.Opens S)
    (htrace : d.trace <+: e.trace) : d.Opens S :=
  fun v hopened => h v (hopened.imp fun _ hin => htrace.subset hin)

namespace Job

open Relation (ReflTransGen)

variable {job : Job} {S : Nat → Prop} {d e : Draft}

/-- The steps of an emission in which only the nodes in `S` become blocks. -/
inductive Step (job : Job) (S : Nat → Prop) : Draft → Draft → Prop where
  | enter {v d} : v ∉ d.entered → Step job S d (d.enter v)
  | lines {v d} : v ∈ d.entered → Step job S d (job.writeGuarded d v)
  | shape {v d b e} : S v → job.block? d v = some (b, e) → Step job S d e
  | line {d origin text} : Step job S d (d.write origin text)
  | openArm {d owner arm} : Step job S d (d.openArm owner arm)
  | closeArm {d owner arm} : Step job S d (d.closeArm owner arm)
  | hold {d held} : Step job S d (d.hold held)
  | letGo {d held} : Step job S d (d.letGo held)

/-- The lines of a node whose successors are left alone are steps. -/
theorem writeAlone_steps {v : Nat} (hv : v ∈ d.entered) :
    ReflTransGen (Step job S) d (job.writeAlone v d) := by
  rw [writeAlone]
  split
  · exact (((ReflTransGen.single (.lines hv)).tail .openArm).tail .line).tail .closeArm
  · exact .single (.lines hv)

/-- The end of an arm is made of steps. -/
theorem endArm_steps {owner : Nat} {arm : Arm} :
    ReflTransGen (Step job S) e (d.endArm owner arm e) := by
  rw [Draft.endArm]
  split
  · exact (ReflTransGen.single .line).tail .closeArm
  · exact .single .closeArm

/-- Announcing the next arm is a step. -/
theorem nextArm_steps {rest : List (Arm × List Nat)} :
    ReflTransGen (Step job S) d (d.nextArm rest) := by
  rw [Draft.nextArm]
  split
  · exact .refl
  · exact .single .line

/-- The arms of a block are opened. -/
theorem Emits.opened {owner : Nat} {arms : List (Arm × List Nat)}
    (h : Emits job (.arms owner arms) d e) : ∀ x ∈ arms, .opened owner x.1 ∈ e.trace := by
  induction arms generalizing d with
  | nil => simp
  | cons x rest ih =>
    cases h with
    | @arms_cons _ arm _ _ _ f _ harm hrest =>
      intro y hy
      rcases List.mem_cons.mp hy with rfl | hy
      · have hended := Draft.trace_nextArm_endArm owner arm rest (d.openArm owner arm) f
        exact (harm.extends.trace.trans (hended.trans hrest.extends.trace)).subset
          (List.mem_append_right _ (List.mem_singleton.mpr rfl))
      · exact ih hrest y hy

/-- A node that becomes a block has an opened arm in the end. -/
theorem Emits.block_opened {owner : Nat} {b : Block} {s : Draft} (h : Emits job (.block owner b) s e)
    (hblock : job.block? d owner = some (b, s)) : e.Opened owner := by
  obtain ⟨x, hx⟩ := List.exists_mem_of_ne_nil _ (block?_arms_ne_nil hblock)
  cases h with
  | block _ harms hrest hheld =>
    exact ⟨x.1, (hrest.extends.trans hheld.extends).trace.subset (harms.opened x hx)⟩

/-- Work is made of steps, in which only nodes with an opened arm become blocks. -/
theorem Emits.steps {t : Task} (h : Emits job t d e) (hopened : e.Opens S) :
    ReflTransGen (Step job S) d e := by
  induction h with
  | value_skip | values_nil | hoists_nil | flow_skip | flows_nil | arms_nil => exact .refl
  | @value_enter v d e hnew hdeps ih =>
    have hv : v ∈ e.entered := hdeps.extends.subset (Draft.mem_enter.mpr (.inr rfl))
    have hread := ih (hopened.earlier (writeAlone_extends job v e).trace)
    exact (ReflTransGen.head (.enter hnew) hread).trans (writeAlone_steps hv)
  | values_cons _ hrest ih ih' | flows_cons _ hrest ih ih' =>
    exact (ih (hopened.earlier hrest.extends.trace)).trans (ih' hopened)
  | hoists_take _ _ _ hrest ih ih' =>
    exact (ih (hopened.earlier hrest.extends.trace)).trans (ih' hopened)
  | hoists_leave _ _ ih => exact ih hopened
  | @flow_plain v d e f _ hnew hdeps _ _ hnext ihDeps ih
  | @flow_scope v d e f _ hnew hdeps _ _ hnext ihDeps ih =>
    have hv : v ∈ e.entered := hdeps.extends.subset (Draft.mem_enter.mpr (.inr rfl))
    have hwrites := (writeGuarded_writes job e v).extends
    have hread := ihDeps (hopened.earlier (hwrites.trans hnext.extends).trace)
    exact ((ReflTransGen.head (.enter hnew) hread).tail (.lines hv)).trans (ih hopened)
  | @flow_block v d e b s f _ hnew hdeps hblock hnext ihDeps ih =>
    have hread := ihDeps (hopened.earlier ((block?_alike hblock).extends.trans hnext.extends).trace)
    have hshape := hopened v (hnext.block_opened hblock)
    exact ((ReflTransGen.head (.enter hnew) hread).tail (.shape hshape hblock)).trans (ih hopened)
  | @block owner b d e f h i hhoists harms hrest hheld ihHoists ihArms ihRest ihHeld =>
    have hafter := hopened.earlier hheld.extends.trace
    have hinside : f.Opens S := hafter.earlier hrest.extends.trace
    have hbefore := hinside.earlier ((Draft.write_extends _ _ _).trans harms.extends).trace
    exact ((((((ihHoists hbefore).tail .hold).tail .line).trans (ihArms hinside)).tail .letGo).trans
      (ihRest hafter)).trans (ihHeld hopened)
  | @arms_cons owner arm targets rest d e f harm hrest ihArm ihRest =>
    have hinside := hopened.earlier
      ((Draft.trace_nextArm_endArm owner arm rest _ e).trans hrest.extends.trace)
    exact (((ReflTransGen.head .openArm (ihArm hinside)).trans endArm_steps).trans
      nextArm_steps).trans (ihRest hopened)

/-- Steps keep what has been entered. -/
theorem Step.subset (h : Step job S d e) : d.entered ⊆ e.entered := by
  cases h with
  | enter => exact List.subset_append_left _ _
  | lines => exact (writeGuarded_writes job d _).extends.subset
  | shape _ hblock => exact (block?_alike hblock).extends.subset
  | line | openArm | closeArm | hold | letGo => exact List.Subset.refl _

/-- A node whose value is returned at the end has been entered. -/
theorem Step.deferred (h : Step job S d e) (hd : d.deferred ⊆ d.entered) :
    e.deferred ⊆ e.entered := by
  have hsubset := h.subset
  cases h with
  | enter => exact fun w hw => hsubset (hd hw)
  | lines hv =>
    intro w hw
    rcases (writeGuarded_writes job d _).deferred w hw with hw | rfl
    · exact hsubset (hd hw)
    · exact hsubset hv
  | shape _ hblock =>
    rw [(block?_alike hblock).deferred]
    exact fun w hw => hsubset (hd hw)
  | line | openArm | closeArm | hold | letGo => exact hd

/-- What every step keeps is kept by all steps together. -/
theorem keeps_of_step {P : Draft → Prop} (h : ReflTransGen (Step job S) d e)
    (hstep : ∀ d e, Step job S d e → P d → P e) (hd : P d) : P e := by
  induction h with
  | refl => exact hd
  | tail _ hlast ih => exact hstep _ _ hlast ih

/-- What was entered stays entered. -/
theorem subset_of_steps (h : ReflTransGen (Step job S) d e) : d.entered ⊆ e.entered :=
  fun _ hv => keeps_of_step h (fun _ _ hstep hin => hstep.subset hin) hv

end Job

end FlowScript
