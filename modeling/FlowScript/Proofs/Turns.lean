import FlowScript.Proofs.Steps

/-!
# The turn of a node

A node contributes lines to a program only once, when it has been entered and has its turn: then it
writes the lines that its pattern or kind asks for, or the header of the block that it has become.
All other work leaves its lines alone.
-/

namespace FlowScript

open Relation (ReflTransGen)

/-- The lines of a trace that a node contributes. -/
def ownLines (trace : List Event) (v : Nat) : List Event :=
  trace.filter fun x => x.origin? = some v

namespace Job

variable {job : Job} {S : Nat → Prop} {d e f : Draft} {u v : Nat}

/-- What a node writes when it has its turn in a draft. Only the nodes in `S` become blocks. -/
inductive Turn (job : Job) (S : Nat → Prop) (v : Nat) (w : Draft) : List Event → Prop where
  | lines {own} : (job.writeGuarded w v).trace = w.trace ++ own → Turn job S v w own
  | header {b s} : S v → job.block? w v = some (b, s) →
      Turn job S v w [.line (some v) w.level b.header]

/-- What a piece of work does about the lines of a node: it leaves them alone, or it enters the node
and lets it have its turn. -/
inductive Treats (job : Job) (S : Nat → Prop) (v : Nat) (d e : Draft) : Prop where
  | rests : (v ∈ e.entered → v ∈ d.entered) → ownLines e.trace v = ownLines d.trace v →
      Treats job S v d e
  | writes {w own} : v ∉ d.entered → v ∈ e.entered → ReflTransGen (Step job S) d w →
      job.Turn S v w own → ownLines e.trace v = ownLines d.trace v ++ own → Treats job S v d e

/-- Steps that neither enter a node nor write lines of it leave its lines alone. -/
theorem Treats.of_trace {new : List Event} (hentered : v ∈ e.entered → v ∈ d.entered)
    (htrace : e.trace = d.trace ++ new) (hnew : ∀ x ∈ new, x.origin? ≠ some v) :
    Treats job S v d e := by
  refine .rests hentered ?_
  have hnone : ownLines new v = [] := by simpa [ownLines] using hnew
  rw [htrace, ownLines, List.filter_append]
  exact (congrArg _ hnone).trans (List.append_nil _)

/-- The lines of a node that has been entered are left alone. -/
theorem Treats.ownLines_eq (h : Treats job S v d e) (hv : v ∈ d.entered) :
    ownLines e.trace v = ownLines d.trace v := by
  cases h with
  | rests _ hlines => exact hlines
  | writes hnew => exact absurd hv hnew

/-- Work after work. -/
theorem Treats.trans (h : Treats job S v d e) (hsteps : ReflTransGen (Step job S) d e)
    (h' : Treats job S v e f) (hsteps' : ReflTransGen (Step job S) e f) :
    Treats job S v d f := by
  cases h with
  | rests hentered hlines =>
    cases h' with
    | rests hentered' hlines' =>
      exact .rests (fun hin => hentered (hentered' hin)) (hlines'.trans hlines)
    | writes hnew hin hturn hown hlines' =>
      exact .writes (fun hold => hnew (subset_of_steps hsteps hold)) hin (hsteps.trans hturn) hown
        (hlines ▸ hlines')
  | writes hnew hin hturn hown hlines =>
    exact .writes hnew (subset_of_steps hsteps' hin) hturn hown ((h'.ownLines_eq hin).trans hlines)

/-- Work that is followed by steps that leave the node alone. -/
theorem Treats.congr (h : Treats job S v d e) (hentered : f.entered = e.entered)
    (hlines : ownLines f.trace v = ownLines e.trace v) : Treats job S v d f := by
  cases h with
  | rests hrests hown => exact .rests (hentered ▸ hrests) (hlines.trans hown)
  | writes hnew hin hturn hown hwritten =>
    exact .writes hnew (hentered ▸ hin) hturn hown (hlines.trans hwritten)

/-- Nothing changes. -/
theorem Treats.refl (d : Draft) : Treats job S v d d :=
  .rests id rfl

/-- Entering one node leaves the lines of another alone. -/
theorem enter_treats (hne : u ≠ v) : Treats job S v d (d.enter u) :=
  .of_trace (fun hin => (Draft.mem_enter.mp hin).resolve_right (Ne.symm hne)) rfl
    (by simp [Event.origin?])

/-- The lines of one node leave those of another alone. -/
theorem writeGuarded_treats (hne : u ≠ v) : Treats job S v d (job.writeGuarded d u) := by
  have hwrites := writeGuarded_writes job d u
  obtain ⟨own, htrace, hown⟩ := hwrites.trace
  refine .of_trace (fun hin => hwrites.entered ▸ hin) htrace fun x hx => ?_
  rw [hown x hx]
  simpa using hne

/-- The lines of a node that is written alone, up to what only completes a scope. -/
theorem ownLines_writeAlone (job : Job) (d : Draft) (u v : Nat) :
    ownLines (job.writeAlone u d).trace v = ownLines (job.writeGuarded d u).trace v := by
  rw [writeAlone]
  split
  · simp [ownLines, Draft.closeArm, Draft.write, Draft.openArm, Event.origin?]
  · rfl

/-- The end of an arm leaves the lines of all nodes alone. -/
theorem ownLines_endArm (owner : Nat) (arm : Arm) (d e : Draft) (v : Nat) :
    ownLines (d.endArm owner arm e).trace v = ownLines e.trace v := by
  obtain ⟨pass, htrace, hpass⟩ := Draft.endArm_trace owner arm d e
  have hnone : ownLines pass v = [] := by
    rw [ownLines, List.filter_eq_nil_iff]
    intro x hx
    simp [hpass x hx, Event.origin?]
  rw [htrace, ownLines, List.filter_append, List.filter_append]
  simpa [Event.origin?, ownLines] using hnone

/-- Announcing an arm leaves the lines of all nodes alone. -/
theorem ownLines_nextArm (rest : List (Arm × List Nat)) (d : Draft) (v : Nat) :
    ownLines (d.nextArm rest).trace v = ownLines d.trace v := by
  rw [Draft.nextArm_trace]
  split <;> simp [ownLines, Event.origin?]

/-- The lines of a node in its turn are all its own. -/
theorem ownLines_append {trace own : List Event} (hown : ∀ x ∈ own, x.origin? = some v) :
    ownLines (trace ++ own) v = ownLines trace v ++ own := by
  rw [ownLines, List.filter_append]
  refine congrArg _ (List.filter_eq_self.mpr fun x hx => ?_)
  simpa using hown x hx

/-- A node is entered, and then all that it reads: the lines of another node are treated as the
reading treats them. -/
theorem read_treats (hnew : u ∉ d.entered) (hne : u ≠ v)
    (hdeps : Emits job (.values (job.graph.dependencies u)) (d.enter u) e) (hopened : e.Opens S)
    (h : Treats job S v (d.enter u) e) : Treats job S v d e :=
  (enter_treats hne).trans (.single (.enter hnew)) h (hdeps.steps hopened)

/-- A node that is entered writes no lines until all that it reads has been entered. -/
theorem ownLines_read (h : Treats job S v (d.enter v) e) :
    ownLines e.trace v = ownLines d.trace v := by
  rw [h.ownLines_eq (Draft.mem_enter.mpr (.inr rfl))]
  simp [ownLines, Draft.enter, Event.origin?]

/-- A node is entered, then all that it reads, and then the node has its turn. -/
theorem written_treats (hnew : u ∉ d.entered)
    (hdeps : Emits job (.values (job.graph.dependencies u)) (d.enter u) e) (hopened : e.Opens S)
    (h : Treats job S v (d.enter u) e) :
    ReflTransGen (Step job S) d (job.writeGuarded e u) ∧
      Treats job S v d (job.writeGuarded e u) := by
  have hu : u ∈ e.entered := hdeps.extends.subset (Draft.mem_enter.mpr (.inr rfl))
  have hsteps : ReflTransGen (Step job S) d e :=
    (ReflTransGen.single (.enter hnew)).trans (hdeps.steps hopened)
  refine ⟨hsteps.tail (.lines hu), ?_⟩
  by_cases hne : u = v
  · subst hne
    have hwrites := writeGuarded_writes job e u
    obtain ⟨own, htrace, hown⟩ := hwrites.trace
    refine .writes hnew (hwrites.entered ▸ hu) hsteps (.lines htrace) ?_
    rw [htrace, ownLines_append hown, ownLines_read h]
  · exact (read_treats hnew hne hdeps hopened h).trans hsteps (writeGuarded_treats hne)
      (.single (.lines hu))

/-- What each piece of work does about the lines of a node. A block that the node owns writes its
header; all other work treats the node as any. -/
def TreatsIn (job : Job) (S : Nat → Prop) (v : Nat) (d e : Draft) : Task → Prop
  | .block owner b =>
    if owner = v then v ∈ d.entered →
      ownLines e.trace v = ownLines d.trace v ++ [.line (some v) d.level b.header]
    else Treats job S v d e
  | _ => Treats job S v d e

/-- Work that is no block of the node treats it as any. -/
theorem TreatsIn.treats {t : Task} (h : TreatsIn job S v d e t) (ht : ∀ b, t ≠ .block v b) :
    Treats job S v d e := by
  cases t with
  | block owner b =>
    rw [TreatsIn] at h
    split at h
    · rename_i howner
      exact absurd (howner ▸ rfl) (ht b)
    · exact h
  | value | values | hoists | flow | flows | arms => exact h

/-- Every piece of work treats the lines of every node in this way. -/
theorem Emits.treats {t : Task} (h : Emits job t d e) (hopened : e.Opens S) :
    TreatsIn job S v d e t := by
  induction h with
  | value_skip | values_nil | hoists_nil | flow_skip | flows_nil | arms_nil => exact .refl _
  | @value_enter u d e hnew hdeps ih =>
    have hbefore := hopened.earlier (writeAlone_extends job u e).trace
    refine (written_treats hnew hdeps hbefore (ih hbefore)).2.congr ?_ (ownLines_writeAlone job e u v)
    rw [writeAlone_entered, (writeGuarded_writes job e u).entered]
  | values_cons hfirst hrest ih ih' | flows_cons hfirst hrest ih ih' =>
    have hbefore := hopened.earlier hrest.extends.trace
    exact Treats.trans (ih hbefore) (hfirst.steps hbefore) (ih' hopened) (hrest.steps hopened)
  | hoists_take _ _ hfirst hrest ih ih' =>
    have hbefore := hopened.earlier hrest.extends.trace
    exact Treats.trans (ih hbefore) (hfirst.steps hbefore) (ih' hopened) (hrest.steps hopened)
  | hoists_leave _ _ ih => exact ih hopened
  | @flow_plain u d e f _ hnew hdeps _ _ hnext ihDeps ih
  | @flow_scope u d e f _ hnew hdeps _ _ hnext ihDeps ih =>
    have hwrites := (writeGuarded_writes job e u).extends
    have hbefore := hopened.earlier (hwrites.trans hnext.extends).trace
    obtain ⟨hsteps, htreats⟩ := written_treats hnew hdeps hbefore (ihDeps hbefore)
    exact htreats.trans hsteps (ih hopened) (hnext.steps hopened)
  | @flow_block u d e b s f _ hnew hdeps hblock hnext ihDeps ih =>
    have halike := block?_alike hblock
    have hbefore := hopened.earlier (halike.extends.trans hnext.extends).trace
    have hsteps : ReflTransGen (Step job S) d e :=
      (ReflTransGen.single (.enter hnew)).trans (hdeps.steps hbefore)
    have hu : u ∈ e.entered := hdeps.extends.subset (Draft.mem_enter.mpr (.inr rfl))
    have hshape : S u := hopened u (hnext.block_opened hblock)
    have hinside := ih hopened
    rw [TreatsIn] at hinside
    split at hinside
    · rename_i heq
      subst heq
      refine .writes hnew (hnext.extends.subset (halike.entered ▸ hu)) hsteps
        (.header hshape hblock) ?_
      rw [hinside (halike.entered ▸ hu), halike.trace, halike.level, ownLines_read (ihDeps hbefore)]
    · rename_i hne
      have hshaped : Treats job S v d s :=
        (read_treats hnew hne hdeps hbefore (ihDeps hbefore)).congr halike.entered
          (by rw [halike.trace])
      exact hshaped.trans (hsteps.tail (.shape hshape hblock)) hinside (hnext.steps hopened)
  | @block owner b d e f h i hhoists harms hrest hheld ihHoists ihArms ihRest ihHeld =>
    have hafter := hopened.earlier hheld.extends.trace
    have hinside : f.Opens S := hafter.earlier hrest.extends.trace
    have hbefore := hinside.earlier ((Draft.write_extends _ _ _).trans harms.extends).trace
    rw [TreatsIn]
    split
    · rename_i heq
      subst heq
      intro hv
      have he := hhoists.extends.subset hv
      have hf := harms.extends.subset he
      have hheader : ownLines ((e.hold (job.held d b)).write (some owner) b.header).trace owner =
          ownLines e.trace owner ++ [.line (some owner) e.level b.header] :=
        ownLines_append (by simp [Event.origin?])
      have hrests : ownLines h.trace owner = ownLines f.trace owner :=
        (ihRest hafter).ownLines_eq hf
      rw [(ihHeld hopened).ownLines_eq (hrest.extends.subset hf), hrests,
        (ihArms hinside).ownLines_eq he, hheader, (ihHoists hbefore).ownLines_eq hv,
        hhoists.extends.level]
    · rename_i hne
      have hheader : Treats job S v e ((e.hold (job.held d b)).write (some owner) b.header) :=
        .of_trace id rfl (by simpa [Event.origin?] using hne)
      have hopen : ReflTransGen (Step job S) d
          ((e.hold (job.held d b)).write (some owner) b.header) :=
        ((hhoists.steps hbefore).tail .hold).tail .line
      have hblock : Treats job S v d f :=
        (Treats.trans (ihHoists hbefore) (hhoists.steps hbefore) hheader
          ((ReflTransGen.single .hold).tail .line)).trans hopen (ihArms hinside) (harms.steps hinside)
      have hlet : Treats job S v d (f.letGo (job.held d b)) := hblock.congr rfl rfl
      have hsteps := (hopen.trans (harms.steps hinside)).tail (@Step.letGo job S f (job.held d b))
      exact (hlet.trans hsteps (ihRest hafter) (hrest.steps hafter)).trans
        (hsteps.trans (hrest.steps hafter)) (ihHeld hopened) (hheld.steps hopened)
  | @arms_cons owner arm targets rest d e f harm hrest ihArm ihRest =>
    have hinside := hopened.earlier
      ((Draft.trace_nextArm_endArm owner arm rest _ e).trans hrest.extends.trace)
    have hopen : Treats job S v d (d.openArm owner arm) :=
      .of_trace id rfl (by simp [Event.origin?])
    have harmSteps := harm.steps hinside
    have hfilled : Treats job S v d e :=
      hopen.trans (.single .openArm) (ihArm hinside) harmSteps
    have hclosed : Treats job S v d (((d.openArm owner arm).endArm owner arm e).nextArm rest) :=
      (hfilled.congr (Draft.endArm_entered ..) (ownLines_endArm ..)).congr
        (Draft.nextArm_entered ..) (ownLines_nextArm ..)
    exact hclosed.trans (((ReflTransGen.head .openArm harmSteps).trans endArm_steps).trans
      nextArm_steps) (ihRest hopened) (hrest.steps hopened)

end Job

end FlowScript
