import FlowScript.Proofs.Rendering

/-!
# The one visit to a node

An emission is made of steps, and among them a node has its turn once: its lines are written, or it
becomes a block. All other steps are about other nodes or complete a block. What a run says about a
node is therefore what the steps aside keep and what the one turn adds.
-/

namespace FlowScript.Job

open Relation (ReflTransGen)

/-- The steps of an emission that are not the turn of a node. -/
inductive Aside (job : Job) (v : Nat) : Draft → Draft → Prop where
  | enter {u d} : Aside job v d (d.enter u)
  | lines {u d} : u ≠ v → Aside job v d (job.writeGuarded d u)
  | shape {u d b e} : u ≠ v → job.block? d u = some (b, e) → Aside job v d e
  | line {d origin text} : Aside job v d (d.write origin text)
  | openArm {d owner arm} : Aside job v d (d.openArm owner arm)
  | closeArm {d owner arm} : Aside job v d (d.closeArm owner arm)
  | hold {d held} : Aside job v d (d.hold held)
  | letGo {d held} : Aside job v d (d.letGo held)

/-- The turn of a node: its lines are written, or it becomes a block. -/
inductive TakesTurn (job : Job) (v : Nat) (d : Draft) : Draft → Prop where
  | lines : TakesTurn job v d (job.writeGuarded d v)
  | shape {b e} : job.block? d v = some (b, e) → TakesTurn job v d e

/-- What work does about a node: it does not enter it, and all steps are aside, or it enters the
node, and one step is its turn. -/
inductive Visits (job : Job) (v : Nat) (d e : Draft) : Prop where
  | aside : (v ∈ e.entered → v ∈ d.entered) → ReflTransGen (Aside job v) d e → Visits job v d e
  | turn {w w'} : v ∉ d.entered → v ∈ e.entered → ReflTransGen (Aside job v) d w →
      TakesTurn job v w w' → ReflTransGen (Aside job v) w' e → Visits job v d e

variable {job : Job} {d e f : Draft} {t : Task} {u v : Nat}

/-- The turn of one node is a step aside for another. -/
theorem TakesTurn.aside (h : TakesTurn job u d e) (hne : u ≠ v) : Aside job v d e := by
  cases h with
  | lines => exact .lines hne
  | shape hblock => exact .shape hne hblock

/-- In its turn a node enters nothing. -/
theorem TakesTurn.entered (h : TakesTurn job u d e) : e.entered = d.entered := by
  cases h with
  | lines => exact (writeGuarded_writes job d u).entered
  | shape hblock => exact (block?_alike hblock).entered

/-- Nothing is done. -/
theorem Visits.refl (d : Draft) : Visits job v d d :=
  .aside id .refl

/-- Steps aside that enter nothing. -/
theorem Visits.of_aside (hentered : e.entered = d.entered) (h : ReflTransGen (Aside job v) d e) :
    Visits job v d e :=
  .aside (fun hin => hentered ▸ hin) h

/-- Work after the node was entered is aside. -/
theorem Visits.steps (h : Visits job v d e) (hv : v ∈ d.entered) :
    ReflTransGen (Aside job v) d e := by
  cases h with
  | aside _ hsteps => exact hsteps
  | turn hnew => exact absurd hv hnew

/-- Work after work. -/
theorem Visits.trans (h : Visits job v d e) (h' : Visits job v e f)
    (hsub : d.entered ⊆ e.entered) (hsub' : e.entered ⊆ f.entered) : Visits job v d f := by
  cases h with
  | turn hnew hin hbefore hturn hafter =>
    exact .turn hnew (hsub' hin) hbefore hturn (hafter.trans (h'.steps hin))
  | aside hentered hsteps =>
    cases h' with
    | aside hentered' hsteps' =>
      exact .aside (fun hin => hentered (hentered' hin)) (hsteps.trans hsteps')
    | turn hnew hin hbefore hturn hafter =>
      exact .turn (fun hold => hnew (hsub hold)) hin (hsteps.trans hbefore) hturn hafter

/-- What only completes the scope of a node is aside. -/
theorem writeAlone_aside :
    ReflTransGen (Aside job v) (job.writeGuarded d u) (job.writeAlone u d) := by
  rw [writeAlone]
  split
  · exact ((ReflTransGen.single .openArm).tail .line).tail .closeArm
  · exact .refl

/-- The end of an arm is aside. -/
theorem endArm_aside {owner : Nat} {arm : Arm} :
    ReflTransGen (Aside job v) e (d.endArm owner arm e) := by
  rw [Draft.endArm]
  split
  · exact (ReflTransGen.single .line).tail .closeArm
  · exact .single .closeArm

/-- Announcing the next arm is aside. -/
theorem nextArm_aside {rest : List (Arm × List Nat)} :
    ReflTransGen (Aside job v) d (d.nextArm rest) := by
  rw [Draft.nextArm]
  split
  · exact .refl
  · exact .single .line

/-- A node is entered, then all that it reads, and then it has its turn. -/
theorem TakesTurn.visits (h : TakesTurn job u e f) (hnew : u ∉ d.entered)
    (hdeps : Emits job (.values (job.graph.dependencies u)) (d.enter u) e)
    (hread : Visits job v (d.enter u) e) : Visits job v d f := by
  have hu : u ∈ (d.enter u).entered := Draft.mem_enter.mpr (.inr rfl)
  by_cases hne : u = v
  · subst hne
    refine .turn hnew ?_ (ReflTransGen.head .enter (hread.steps hu)) h .refl
    exact h.entered ▸ hdeps.extends.subset hu
  · have henter : Visits job v d (d.enter u) :=
      .aside (fun hin => (Draft.mem_enter.mp hin).resolve_right (Ne.symm hne)) (.single .enter)
    have hbefore : Visits job v d e :=
      henter.trans hread (Draft.enter_extends hnew).subset hdeps.extends.subset
    exact hbefore.trans (.of_aside h.entered (.single (h.aside hne)))
      ((Draft.enter_extends hnew).trans hdeps.extends).subset (h.entered ▸ List.Subset.refl _)

/-- Every piece of work visits a node at most once, and only one that it enters. -/
theorem Emits.visits (h : Emits job t d e) : Visits job v d e := by
  induction h with
  | value_skip | values_nil | hoists_nil | flow_skip | flows_nil | arms_nil => exact .refl _
  | @value_enter u d e hnew hdeps ih =>
    have hwrites := (writeGuarded_writes job e u).extends
    have hbefore := ((Draft.enter_extends hnew).trans hdeps.extends).trans hwrites
    have hentered : (job.writeAlone u e).entered = (job.writeGuarded e u).entered := by
      rw [writeAlone_entered, (writeGuarded_writes job e u).entered]
    exact (TakesTurn.lines.visits hnew hdeps ih).trans (.of_aside hentered writeAlone_aside)
      hbefore.subset (hentered ▸ List.Subset.refl _)
  | values_cons hfirst hrest ih ih' | flows_cons hfirst hrest ih ih' =>
    exact ih.trans ih' hfirst.extends.subset hrest.extends.subset
  | hoists_take _ _ hfirst hrest ih ih' =>
    exact ih.trans ih' hfirst.extends.subset hrest.extends.subset
  | hoists_leave _ _ ih => exact ih
  | @flow_plain u d e f _ hnew hdeps _ _ hnext ihDeps ih
  | @flow_scope u d e f _ hnew hdeps _ _ hnext ihDeps ih =>
    have hwrites := (writeGuarded_writes job e u).extends
    have hbefore := ((Draft.enter_extends hnew).trans hdeps.extends).trans hwrites
    exact (TakesTurn.lines.visits hnew hdeps ihDeps).trans ih hbefore.subset hnext.extends.subset
  | @flow_block u d e b s f _ hnew hdeps hblock hnext ihDeps ih =>
    have hshape := (block?_alike hblock).extends
    have hbefore := ((Draft.enter_extends hnew).trans hdeps.extends).trans hshape
    exact ((TakesTurn.shape hblock).visits hnew hdeps ihDeps).trans ih hbefore.subset
      hnext.extends.subset
  | @block owner b d e f h i hhoists harms hrest hheld ihHoists ihArms ihRest ihHeld =>
    have hopen : Visits job v e ((e.hold (job.held d b)).write (some owner) b.header) :=
      .of_aside rfl ((ReflTransGen.single .hold).tail .line)
    have hlet : Visits job v f (f.letGo (job.held d b)) := .of_aside rfl (.single .letGo)
    have hinside : e.entered ⊆ f.entered := harms.extends.subset
    have hfilled := ((ihHoists.trans hopen hhoists.extends.subset (List.Subset.refl _)).trans
      ihArms hhoists.extends.subset hinside).trans hlet
        (fun x hx => hinside (hhoists.extends.subset hx)) (List.Subset.refl _)
    have hclosed : d.entered ⊆ (f.letGo (job.held d b)).entered :=
      fun x hx => hinside (hhoists.extends.subset hx)
    exact (hfilled.trans ihRest hclosed hrest.extends.subset).trans ihHeld
      (fun x hx => hrest.extends.subset (hclosed hx)) hheld.extends.subset
  | @arms_cons owner arm targets rest d e f harm hrest ihArm ihRest =>
    have hopen : Visits job v d (d.openArm owner arm) := .of_aside rfl (.single .openArm)
    have hclose : Visits job v e (((d.openArm owner arm).endArm owner arm e).nextArm rest) :=
      .of_aside (by simp) (endArm_aside.trans nextArm_aside)
    have hinside : d.entered ⊆ e.entered := harm.extends.subset
    have hended :
        e.entered ⊆ (((d.openArm owner arm).endArm owner arm e).nextArm rest).entered := by
      simp
    exact ((hopen.trans ihArm (List.Subset.refl _) hinside).trans hclose hinside hended).trans
      ihRest (fun x hx => hended (hinside hx)) hrest.extends.subset

/-- Pieces of work visit a node at most once. -/
theorem Performs.visits {ts : List Task} (h : Performs job ts d e) : Visits job v d e := by
  induction h with
  | nil => exact .refl _
  | cons hfirst hrest ih =>
    exact hfirst.visits.trans ih hfirst.extends.subset hrest.extends.subset

/-- The body of a program gives every node of the graph its turn. -/
theorem Performs.takesTurn (hjob : job.WellFormed) (h : Performs job job.bodyTasks d e)
    (hbarriers : d.barriers = []) (hentered : d.entered = []) (hv : v < job.graph.size) :
    ∃ w w', ReflTransGen (Aside job v) d w ∧ TakesTurn job v w w' ∧
      ReflTransGen (Aside job v) w' e := by
  have hin : v ∈ e.entered := h.mem_entered hjob hbarriers hv
  cases h.visits with
  | aside hrests =>
    have hnone := hrests hin
    rw [hentered] at hnone
    exact absurd hnone List.not_mem_nil
  | turn _ _ hbefore hturn hafter => exact ⟨_, _, hbefore, hturn, hafter⟩

/-- What every step aside keeps is kept by all of them together. -/
theorem keeps_of_aside {P : Draft → Prop} (h : ReflTransGen (Aside job v) d e)
    (hstep : ∀ d e, Aside job v d e → P d → P e) (hd : P d) : P e := by
  induction h with
  | refl => exact hd
  | tail _ hlast ih => exact hstep _ _ hlast ih

end FlowScript.Job
