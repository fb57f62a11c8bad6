import FlowScript.Proofs.Exits

/-!
# Ways around a block

Let a node be entered while an arm of a conditional or a loop is open. Then the arm leads to the node
and no other way out of the block does, and every way around the block from what was entered before it
leaves that, at some step, for something that the walk had put off: for a later successor of a fork on
the way to the block, or for a node that another block had held back and let go again. For all other
steps out of what was entered, either the block stands in an arm that the step leaves, so that the
enclosing block holds the node back, or a barrier stands behind the step, and what lies behind a
barrier is behind it too.
-/

namespace FlowScript

open Relation (ReflTransGen TransGen)

/-- The events of a trace before it enters a node. -/
def upTo (trace : List Event) (v : Nat) : List Event :=
  trace.takeWhile fun x => x.entered? != some v

/-- A node that is new is entered after what the draft has done. -/
theorem Draft.Recorded.upTo_enter {trace : List Event} {d : Draft} {v : Nat} (h : d.Recorded)
    (hnew : v ∉ d.entered) (htrace : (d.enter v).trace <+: trace) : upTo trace v = d.trace := by
  obtain ⟨after, rfl⟩ := htrace
  have hall : ∀ x ∈ d.trace, (x.entered? != some v) = true := by
    intro x hx
    simp only [bne_iff_ne, ne_eq]
    refine fun hentered => hnew ?_
    rw [← show entries d.trace = d.entered from h]
    exact List.mem_filterMap.mpr ⟨x, hx, hentered⟩
  rw [show (d.enter v).trace ++ after = d.trace ++ .enter v :: after by simp [enter], upTo,
    List.takeWhile_append_of_pos hall]
  simp [Event.entered?]

/-- The block of an arm is closed at the end of a trace, and has let a node go that the arm and
another way out of the block lead to. -/
structure Releases (g : FlowGraph) (trace : List Event) (x : Nat × Arm) (w : Nat) : Prop where
  closed : .closed x.1 x.2 ∈ trace
  outside : ∀ arm, (x.1, arm) ∉ openArms trace
  into : g.LeadsInto x.1 x.2 w
  beside : g.LeadsPast x.1 x.2 w

/-- At the end of a trace, where the flow has come to a node, a step goes from what has been entered to
what was put off: a later successor of a fork on the way to the node, or a node that a block on the
way has let go. -/
structure Strays (g : FlowGraph) (trace : List Event) (c : Nat) (e : Edge) : Prop where
  source : e.source ∈ entries trace
  target : e.target ∉ entries trace
  reason : g.ForksOff e.source e.target c ∨
    ∃ x, Releases g trace x e.target ∧ TransGen g.Leads x.1 c

/-- Every way to a node around another one, from what is entered before that one, strays. -/
def StraysAround (g : FlowGraph) (trace : List Event) (c v : Nat) : Prop :=
  ∀ a es, g.Path a es v → (∀ e ∈ es, e.source ≠ c) → a ∈ entries (upTo trace c) →
    ∃ e ∈ es, Strays g (upTo trace c) c e

/-- An arm may be open where a node is entered: it leads to the node, no other way out of its block
does, and every way around the block strays. -/
structure Encloses (g : FlowGraph) (trace : List Event) (x : Nat × Arm) (v : Nat) : Prop where
  into : g.LeadsInto x.1 x.2 v
  alone : ¬ g.LeadsPast x.1 x.2 v
  around : StraysAround g trace x.1 v

/-- A block stays closed, and lets go what it has, while the open arms stay the same. -/
theorem Releases.mono {g : FlowGraph} {trace trace' : List Event} {x : Nat × Arm} {w : Nat}
    (h : Releases g trace x w) (htrace : trace <+: trace')
    (harms : openArms trace' = openArms trace) : Releases g trace' x w :=
  { h with closed := htrace.subset h.closed, outside := harms ▸ h.outside }

/-- The node whose block a piece of work belongs to. -/
def Task.owner? : Task → Option Nat
  | .arms c _ => some c
  | .block c _ => some c
  | _ => none

/-- An arm that has been opened is open besides those that were. -/
theorem Draft.mem_openArms_openArm {d : Draft} {c : Nat} {arm : Arm} {x : Nat × Arm}
    (hx : x ∈ openArms (d.openArm c arm).trace) : x ∈ openArms d.trace ∨ x = (c, arm) := by
  rw [openArms_openArm, Event.nest] at hx
  split at hx
  · exact .inl hx
  · simpa using hx

namespace Job

variable {job : Job} {trace : List Event} {d e f s : Draft} {b : Block} {t t' : Task}
  {c u v w x y : Nat} {ws : List Nat}

/-- Why a successor of a node that has been entered is not met where work starts: the node's arm that
is open does not lead to it, or the flow forks, or a block on the way has just let it go. -/
inductive Deferred (job : Job) (t : Task) (d : Draft) (u w x : Nat) : Prop where
  | aside {arm : Arm} : (u, arm) ∈ openArms d.trace → w ∉ job.graph.armTargets u arm →
      Deferred job t d u w x
  | fork : job.graph.ForksOff u w x → Deferred job t d u w x
  | released {y : Nat × Arm} : Releases job.graph d.trace y w → y.1 ∈ d.entered →
      t.owner? ≠ some y.1 → TransGen job.graph.Leads y.1 x → Deferred job t d u w x

/-- What is put off stays so for the same reason, as long as the same arms are open. -/
theorem Deferred.mono (h : job.Deferred t d u w x) (htrace : d.trace <+: e.trace)
    (hentered : d.entered ⊆ e.entered) (harms : openArms e.trace = openArms d.trace)
    (howner : ∀ c, t'.owner? = some c → t.owner? = some c ∨ c ∉ d.entered)
    (hpath : ReflTransGen job.graph.Leads x y) : job.Deferred t' e u w y := by
  cases h with
  | aside hopen hout => exact .aside (harms ▸ hopen) hout
  | fork hfork => exact .fork (hfork.trans hpath)
  | released hreleases hin hother hback =>
    refine .released (hreleases.mono htrace harms) (hentered hin) (fun howns => ?_)
      (hback.trans_left hpath)
    exact (howner _ howns).elim hother fun hnew => hnew hin

/-- For every successor that is not met of a node that has been entered, there is a reason. The
successors of the node whose block the work belongs to are its own matter. -/
def Accounts (job : Job) (t : Task) (d : Draft) : Prop :=
  ∀ u ∈ d.entered, t.owner? ≠ some u → ∀ w, job.graph.Leads u w → ¬ d.Meets w →
    ∀ x, t.Starts x → x ≠ w → job.Deferred t d u w x

/-- Work that leaves nothing behind and opens no arm keeps the account. -/
theorem Accounts.since (h : job.Accounts t d) (hstarts : ∀ x, t'.Starts x → t.Starts x)
    (howner : t'.owner? = t.owner?) (hmeets : ∀ v, d.Meets v → e.Meets v)
    (htrace : d.trace <+: e.trace) (hentered : d.entered ⊆ e.entered)
    (harms : openArms e.trace = openArms d.trace) (hsince : job.ClosedSince d e) :
    job.Accounts t' e := by
  intro u hu hother w hleads hfree x hx hne
  by_cases hin : u ∈ d.entered
  · have hdeferred := h u hin (howner ▸ hother) w hleads (fun hmet => hfree (hmeets w hmet)) x
      (hstarts x hx) hne
    exact hdeferred.mono htrace hentered harms (fun c hc => .inl (howner ▸ hc)) .refl
  · exact absurd (hsince u hu hin w hleads) hfree

/-- The node of a block has been entered, outside of its own arms; the arms have their targets; and
around what lies unmet behind them they may be open. -/
def Poised (job : Job) (trace : List Event) (d : Draft) : Task → Prop
  | .arms c xs => c ∈ d.entered ∧ ∀ x ∈ xs,
      (x.2 = job.graph.armTargets c x.1 ∧ ∃ arm, ∀ w ∈ x.2, job.graph.BranchesTo c arm w) ∧
      ∀ w ∈ x.2, ∀ v, ReflTransGen job.graph.Leads w v → ¬ d.Meets v →
        Encloses job.graph trace (c, x.1) v
  | .block c b => (c ∈ d.entered ∧ ∀ arm, (c, arm) ∉ openArms d.trace) ∧ job.Begun d c b ∧
      ∀ v, TransGen job.graph.Leads c v → ¬ d.Meets v → StraysAround job.graph trace c v
  | _ => True

/-- Where a piece of work begins, all that follows a barrier is met, and so is all that follows the met
behind the starts of the work; there is a reason for every successor that is put off; and the open
arms may be open around what lies unmet behind the starts. -/
structure Fenced (job : Job) (trace : List Event) (t : Task) (d : Draft) : Prop where
  recorded : d.Recorded
  owners : ∀ x ∈ openArms d.trace, x.1 ∈ d.entered
  barred : ∀ u ∈ d.barriers, ∀ v, job.graph.Leads u v → d.Meets v
  starts : ∀ w, t.Starts w → job.Sealed d w
  accounts : job.Accounts t d
  around : ∀ w, t.Starts w → ∀ v, ReflTransGen job.graph.Leads w v → ¬ d.Meets v →
    ∀ x ∈ openArms d.trace, Encloses job.graph trace x v
  poised : job.Poised trace d t

/-- Work goes on to what lies behind its starts, with the same arms open. -/
theorem Fenced.mono (h : job.Fenced trace t d)
    (hstarts : ∀ w', t'.Starts w' → ∃ w, t.Starts w ∧ ReflTransGen job.graph.Leads w w')
    (hrecorded : e.Recorded) (hmeets : ∀ v, d.Meets v → e.Meets v)
    (hentered : d.entered ⊆ e.entered) (harms : openArms e.trace = openArms d.trace)
    (hbarred : ∀ u ∈ e.barriers, u ∉ d.barriers → ∀ v, job.graph.Leads u v → e.Meets v)
    (hsealed : ∀ w, t'.Starts w → job.Sealed e w) (haccounts : job.Accounts t' e)
    (hpoised : job.Poised trace e t') : job.Fenced trace t' e := by
  refine ⟨hrecorded, fun x hx => hentered (h.owners x (harms ▸ hx)), fun u hu v hleads => ?_, hsealed,
    haccounts, fun w' hw' v hpath hfree x hx => ?_, hpoised⟩
  · by_cases hold : u ∈ d.barriers
    · exact hmeets v (h.barred u hold v hleads)
    · exact hbarred u hu hold v hleads
  · obtain ⟨w, hw, hback⟩ := hstarts w' hw'
    exact h.around w hw v (hback.trans hpath) (fun hmet => hfree (hmeets v hmet)) x (harms ▸ hx)

/-- A way out of what is met leaves it at a node that has been entered. -/
theorem Fenced.exists_step {a : Nat} {es : List Edge} (h : job.Fenced trace t d)
    (hpath : job.graph.Path a es v) (ha : d.Meets a) (hv : ¬ d.Meets v) :
    ∃ e ∈ es, e.source ∈ d.entered ∧ ¬ d.Meets e.target := by
  induction hpath with
  | nil => exact absurd ha hv
  | @cons e es b he hkind hpath ih =>
    by_cases hmet : d.Meets e.target
    · obtain ⟨x, hx, hsource, htarget⟩ := ih hmet hv
      exact ⟨x, List.mem_cons_of_mem _ hx, hsource, htarget⟩
    · refine ⟨e, List.mem_cons_self, ha.resolve_right fun hbar => hmet ?_, hmet⟩
      exact h.barred e.source hbar e.target ⟨e, he, hkind, rfl, rfl⟩

/-- A way around a node that starts there ends there. -/
theorem eq_of_path {g : FlowGraph} {es : List Edge} (hpath : g.Path c es v)
    (haround : ∀ e ∈ es, e.source ≠ c) : v = c := by
  cases hpath with
  | nil => rfl
  | cons => exact absurd rfl (haround _ List.mem_cons_self)

/-- A way around a node that does not end there never comes there. -/
theorem target_ne_of_path {g : FlowGraph} {a : Nat} {es : List Edge} (hpath : g.Path a es v)
    (hv : v ≠ c) (haround : ∀ e ∈ es, e.source ≠ c) : ∀ e ∈ es, e.target ≠ c := by
  induction hpath with
  | nil => simp
  | cons _ _ hpath ih =>
    have hrest := fun y hy => haround y (List.mem_cons_of_mem _ hy)
    intro x hx
    rcases List.mem_cons.mp hx with rfl | hx
    · exact fun heq => hv (eq_of_path (heq ▸ hpath) hrest)
    · exact ih hv hrest x hx

/-- When a node is entered, every way around it to what lies unmet behind it strays. -/
theorem Fenced.straysAround (hsep : job.graph.Separated) (h : job.Fenced trace (.flow c) d)
    (hnew : c ∉ d.entered) (htrace : (d.enter c).trace <+: trace)
    (hbehind : TransGen job.graph.Leads c v) (hfree : ¬ d.Meets v) :
    StraysAround job.graph trace c v := by
  have hentries : entries d.trace = d.entered := h.recorded
  intro a es hpath haround ha
  rw [h.recorded.upTo_enter hnew htrace] at ha ⊢
  obtain ⟨x, hx, hsource, htarget⟩ := h.exists_step hpath (.inl (hentries ▸ ha)) hfree
  have hv : v ≠ c := fun heq => hsep.acyclic c (heq ▸ hbehind)
  have hne : c ≠ x.target := (target_ne_of_path hpath hv haround x hx).symm
  obtain ⟨hleads, hback⟩ := hpath.leads_of_mem hx
  refine ⟨x, hx, hentries ▸ hsource, hentries ▸ (not_or.mp htarget).1, ?_⟩
  have howner : (Task.flow c).owner? ≠ some x.source := by simp [Task.owner?]
  cases h.accounts x.source hsource howner x.target hleads htarget c rfl hne with
  | @aside arm hopen hout =>
    -- the enclosing block would hold the node back
    have hencloses := h.around c rfl v hbehind.to_reflTransGen hfree _ hopen
    exact absurd ⟨x.target, hleads, hout, hback⟩ hencloses.alone
  | fork hfork => exact .inl hfork
  | released hreleases _ _ hleads => exact .inr ⟨_, hreleases, hleads⟩

/-- The nodes of the flow that are entered from one draft to the next are in arms that may be open
around them. -/
def EnclosedSince (job : Job) (trace : List Event) (d e : Draft) : Prop :=
  ∀ v ∈ e.entered, v ∉ d.entered → ¬ job.DataOnly v → ∀ x ∈ armsAt trace v,
    Encloses job.graph trace x v

/-- Work after work. -/
theorem EnclosedSince.trans (h : job.EnclosedSince trace d e) (h' : job.EnclosedSince trace e f) :
    job.EnclosedSince trace d f := by
  intro v hv hnew
  by_cases hin : v ∈ e.entered
  · exact h v hin hnew
  · exact h' v hv hin

/-- Nothing of the flow is entered. -/
theorem EnclosedSince.of_dataOnly (h : ∀ v ∈ e.entered, v ∈ d.entered ∨ job.DataOnly v) :
    job.EnclosedSince trace d e :=
  fun v hv hnew hports => absurd ((h v hv).resolve_left hnew) hports

section Entering

variable (hsep : job.graph.Separated) (h : job.Fenced trace (.flow v) d) (hfree : v ∉ d.barriers)
  (hnew : v ∉ d.entered) (hdeps : Emits job (.values (job.graph.dependencies v)) (d.enter v) e)
include hsep h hnew hdeps

omit hdeps in
include hfree in
/-- A node of the flow is entered in the open arms, and then what it reads. -/
theorem Fenced.enclosed_read (hdeps : Emits job (.values (job.graph.dependencies v)) (d.enter v) e)
    (htrace : e.trace <+: trace) : job.EnclosedSince trace d e := by
  intro u hu hfresh hports x hx
  obtain rfl : u = v := by
    rcases hdeps.enters_read hsep u hu with hin | heq | hdata
    · exact absurd hin hfresh
    · exact heq
    · exact absurd hdata hports
  rw [h.recorded.armsAt_enter hnew (hdeps.extends.trace.trans htrace)] at hx
  exact h.around u rfl u .refl (not_or.mpr ⟨hnew, hfree⟩) x hx

/-- When a node has been entered, the successors that are not met are those that were put off before,
and its own. -/
theorem Fenced.accounts_read (hs : Draft.Extends e s) (hentered : s.entered = e.entered)
    (harms : openArms s.trace = openArms d.trace)
    (hstarts : ∀ x, t.Starts x → job.graph.Leads v x) (howner : ∀ c, t.owner? = some c → c = v)
    (hforks : t.owner? ≠ some v → ∀ w, job.graph.Leads v w → job.graph.BranchesTo v none w) :
    job.Accounts t s := by
  have hext := ((Draft.enter_extends hnew).trans hdeps.extends).trans hs
  intro u hu hother w hleads hunmet x hx hne
  rw [hentered] at hu
  rcases hdeps.enters_read hsep u hu with hin | rfl | hdata
  · have hin' : v ≠ w := by
      rintro rfl
      exact hunmet (.inl ((hdeps.extends.trans hs).subset (Draft.mem_enter.mpr (.inr rfl))))
    have hdeferred := h.accounts u hin (by simp [Task.owner?]) w hleads
      (fun hmet => hunmet (hmet.mono hext)) v rfl hin'
    exact hdeferred.mono hext.trace hext.subset harms (fun c hc => .inr (howner c hc ▸ hnew))
      (.single (hstarts x hx))
  · have hbranches := hforks hother
    exact .fork ⟨none, x, hne, hbranches w hleads, hbranches x (hstarts x hx), .refl⟩
  · exact absurd hleads (hdata.not_leads hsep)

include hfree

/-- When a node and what it reads have been entered, work goes on to its successors. -/
theorem Fenced.next (hs : Draft.Extends e s) (hentered : s.entered = e.entered)
    (harms : openArms s.trace = openArms e.trace) (htrace : s.trace <+: trace)
    (hstarts : ∀ w, t.Starts w → job.graph.Leads v w) (howner : ∀ c, t.owner? = some c → c = v)
    (hforks : t.owner? ≠ some v → ∀ w, job.graph.Leads v w → job.graph.BranchesTo v none w)
    (hpoised : v ∈ s.entered ∧ (∀ arm, (v, arm) ∉ openArms s.trace) →
      (∀ w, job.graph.Leads v w → job.Sealed s w) →
      (∀ u, TransGen job.graph.Leads v u → ¬ s.Meets u → StraysAround job.graph trace v u) →
      job.Poised trace s t) :
    job.EnclosedSince trace d s ∧ job.Fenced trace t s := by
  have hext := ((Draft.enter_extends hnew).trans hdeps.extends).trans hs
  have hbefore := hs.trace.trans htrace
  have hplace : openArms s.trace = openArms d.trace := by
    rw [harms, hdeps.openArms_eq, Draft.openArms_enter]
  have hsealed (w : Nat) (hw : job.graph.Leads v w) : job.Sealed s w :=
    ((h.starts v rfl).read hsep hnew hdeps hw).since hs fun u hu hfresh =>
      absurd (hentered ▸ hu) hfresh
  constructor
  · exact (h.enclosed_read hsep hfree hnew hdeps hbefore).trans
      (.of_dataOnly fun u hu => .inl (hentered ▸ hu))
  · refine h.mono (fun w hw => ⟨v, rfl, .single (hstarts w hw)⟩) (h.recorded.extends hext)
      (fun u hu => hu.mono hext) hext.subset hplace (fun u hu hold => absurd (hext.barriers ▸ hu) hold)
      (fun w hw => hsealed w (hstarts w hw))
      (h.accounts_read hsep hnew hdeps hs hentered hplace hstarts howner hforks)
      (hpoised ⟨?_, fun arm hin => ?_⟩ hsealed fun u hbehind hunmet => ?_)
    · exact (hdeps.extends.trans hs).subset (Draft.mem_enter.mpr (.inr rfl))
    · exact hnew (h.owners _ (hplace ▸ hin))
    · exact h.straysAround hsep hnew (hdeps.extends.trace.trans hbefore) hbehind
        fun hmet => hunmet (hmet.mono hext)

end Entering

section Phases

/-- The flow is followed to the first of some nodes. -/
theorem Fenced.first {vs : List Nat} (h : job.Fenced trace (.flows (v :: vs)) d) :
    job.Fenced trace (.flow v) d := by
  have hstarts (w : Nat) (hw : (Task.flow v).Starts w) : (Task.flows (v :: vs)).Starts w :=
    hw ▸ List.mem_cons_self
  exact h.mono (fun w hw => ⟨w, hstarts w hw, .refl⟩) h.recorded (fun _ => id) (List.Subset.refl _)
    rfl (fun u hu hold => absurd hu hold) (fun w hw => h.starts w (hstarts w hw))
    (h.accounts.since hstarts rfl (fun _ => id) (List.prefix_refl _) (List.Subset.refl _) rfl
      fun u hu hfresh => absurd hu hfresh) trivial

/-- An arm of a block is opened. -/
theorem Fenced.openArm {arm : Arm} {rest : List (Arm × List Nat)}
    (h : job.Fenced trace (.arms c ((arm, ws) :: rest)) d) :
    job.Fenced trace (.flows ws) (d.openArm c arm) := by
  obtain ⟨hc, hpoised⟩ := h.poised
  obtain ⟨⟨heq, side, hside⟩, hencloses⟩ := hpoised _ List.mem_cons_self
  have htargets : ws = job.graph.armTargets c arm := heq
  have hstarts (w : Nat) (hw : (Task.flows ws).Starts w) :
      (Task.arms c ((arm, ws) :: rest)).Starts w := ⟨_, List.mem_cons_self, hw⟩
  have hgrow : openArms d.trace ⊆ openArms (d.openArm c arm).trace := by
    rw [Draft.openArms_openArm]
    exact (prefix_nest_opened _ c arm).subset
  refine ⟨h.recorded.openArm c arm, fun x hx => ?_, h.barred, fun w hw => h.starts w (hstarts w hw),
    ?_, fun w hw v hpath hfree x hx => ?_, trivial⟩
  · rcases Draft.mem_openArms_openArm hx with hx | rfl
    · exact h.owners x hx
    · exact hc
  · intro u hu _ w hleads hunmet x hx hne
    by_cases hown : u = c
    · subst hown
      by_cases hw : w ∈ ws
      · exact .fork ⟨side, x, hne, hside w hw, hside x hx, .refl⟩
      · -- a scope leads to all successors, so this is an arm of a conditional or a loop
        have hopened : (u, arm) ∈ openArms (d.openArm u arm).trace := by
          have hscope : arm ≠ .scope := by
            rintro rfl
            exact hw (htargets ▸ FlowGraph.mem_successors.mpr hleads)
          simp [Draft.openArms_openArm, Event.nest, hscope]
        exact .aside hopened (htargets ▸ hw)
    · have hother : (Task.arms c ((arm, ws) :: rest)).owner? ≠ some u := by
        simpa [Task.owner?] using Ne.symm hown
      cases h.accounts u hu hother w hleads hunmet x (hstarts x hx) hne with
      | aside hopen hout => exact .aside (hgrow hopen) hout
      | fork hfork => exact .fork hfork
      | @released y hreleases hin howns hback =>
        refine .released ⟨List.mem_append_left _ hreleases.closed, fun other hopen => ?_,
          hreleases.into, hreleases.beside⟩ hin (by simp [Task.owner?]) hback
        rcases Draft.mem_openArms_openArm hopen with hopen | heq
        · exact hreleases.outside other hopen
        · exact howns (congrArg some (congrArg Prod.fst heq).symm)
  · rcases Draft.mem_openArms_openArm hx with hx | rfl
    · exact h.around w (hstarts w hw) v hpath hfree x hx
    · exact hencloses w hw v hpath hfree

variable (hjob : job.WellFormed) (hsep : job.graph.Separated)
include hsep

/-- The flow is followed to the other nodes. -/
theorem Fenced.others {vs : List Nat} (h : job.Fenced trace (.flows (v :: vs)) d)
    (hfirst : Emits job (.flow v) d e) : job.Fenced trace (.flows vs) e := by
  have hext := hfirst.extends
  have hsince := (hfirst.closes hsep trivial).since
  have hstarts (w : Nat) (hw : (Task.flows vs).Starts w) : (Task.flows (v :: vs)).Starts w :=
    List.mem_cons_of_mem _ hw
  exact h.mono (fun w hw => ⟨w, hstarts w hw, .refl⟩) (h.recorded.extends hext)
    (fun _ hu => hu.mono hext) hext.subset hfirst.openArms_eq
    (fun u hu hold => absurd (hext.barriers ▸ hu) hold)
    (fun w hw => (h.starts w (hstarts w hw)).since hext hsince)
    (h.accounts.since hstarts rfl (fun _ hu => hu.mono hext) hext.trace hext.subset
      hfirst.openArms_eq hsince) trivial

/-- An arm of a block is closed and the next one announced. -/
theorem Fenced.nextArm {arm : Arm} {rest : List (Arm × List Nat)}
    (h : job.Fenced trace (.arms c ((arm, ws) :: rest)) d)
    (harm : Emits job (.flows ws) (d.openArm c arm) e) :
    job.Fenced trace (.arms c rest) (((d.openArm c arm).endArm c arm e).nextArm rest) := by
  obtain ⟨hc, hpoised⟩ := h.poised
  have hext := (Draft.endArm_extends harm.extends).trans
    (Draft.nextArm_extends ((d.openArm c arm).endArm c arm e) rest)
  have harms : openArms (((d.openArm c arm).endArm c arm e).nextArm rest).trace
      = openArms d.trace := by
    rw [Draft.openArms_nextArm, Draft.openArms_endArm harm.openArms_eq]
  have hsince : job.ClosedSince d (((d.openArm c arm).endArm c arm e).nextArm rest) := by
    intro u hu hnew w hleads
    have hmet := (harm.closes hsep fun _ _ => trivial).since u (by simpa using hu) hnew w hleads
    simpa [Draft.Meets] using hmet
  have hstarts (w : Nat) (hw : (Task.arms c rest).Starts w) :
      (Task.arms c ((arm, ws) :: rest)).Starts w := by
    obtain ⟨x, hx, hw⟩ := hw
    exact ⟨x, List.mem_cons_of_mem _ hx, hw⟩
  refine h.mono (fun w hw => ⟨w, hstarts w hw, .refl⟩) (h.recorded.extends hext)
    (fun u hu => hu.mono hext) hext.subset harms
    (fun u hu hold => absurd (hext.barriers ▸ hu) hold)
    (fun w hw => (h.starts w (hstarts w hw)).since hext hsince)
    (h.accounts.since hstarts rfl (fun u hu => hu.mono hext) hext.trace hext.subset harms hsince)
    ⟨hext.subset hc, fun x hx => ?_⟩
  obtain ⟨hsides, hencloses⟩ := hpoised x (List.mem_cons_of_mem _ hx)
  exact ⟨hsides, fun w hw v hpath hfree => hencloses w hw v hpath fun hmet => hfree (hmet.mono hext)⟩

variable (h : job.Fenced trace (.block c b) d)
  (hhoists : Emits job (.hoists c (job.regionNeeds d b) job.order) d s)
include hjob h hhoists

/-- A block holds nodes back and writes its header. -/
theorem Fenced.hold : job.Fenced trace (.arms c b.arms)
    ((s.hold (job.held d b)).write (some c) b.header) := by
  obtain ⟨⟨hc, -⟩, hbegun, hstrays⟩ := h.poised
  have hrecorded : (s.hold (job.held d b)).Recorded := h.recorded.extends (e := s) hhoists.extends
  have harms : openArms ((s.hold (job.held d b)).write (some c) b.header).trace
      = openArms d.trace := (Draft.openArms_write _ _ _).trans hhoists.openArms_eq
  have hmeets (v : Nat) (hv : d.Meets v) :
      ((s.hold (job.held d b)).write (some c) b.header).Meets v := Begun.meets_hold hhoists hv
  have hsince : job.ClosedSince d ((s.hold (job.held d b)).write (some c) b.header) :=
    fun u hu hnew w hleads => absurd hleads (hhoists.not_leads_of_hoisted hsep hu hnew)
  refine h.mono (fun w hw => ⟨w, .inr hw, .refl⟩) (hrecorded.extends (Draft.write_extends _ _ _))
    hmeets hhoists.extends.subset harms (fun u hu hold v hleads => ?_) (fun w hw => ?_)
    (h.accounts.since (fun w hw => .inr hw) rfl hmeets
      (hhoists.extends.trace.trans (List.prefix_append _ _)) hhoists.extends.subset harms hsince)
    ⟨hhoists.extends.subset hc, fun x hx => ⟨⟨hbegun.parts.arms x hx, some x.1,
      hbegun.parts.inside x hx⟩, fun w hw v hpath hfree => ⟨⟨w, ?_, hpath⟩, ?_, ?_⟩⟩⟩
  · have hheld : u ∈ job.held d b := (List.mem_append.mp hu).resolve_left fun hbar =>
      hold (hhoists.extends.barriers ▸ hbar)
    by_cases hv : d.Meets v
    · exact hmeets v hv
    · exact .inr (List.mem_append_right _ (hbegun.mem_held_of_leads hjob hheld hleads hv))
  · exact hbegun.sealed_hold hjob hsep hhoists ((hbegun.parts.leads w).mpr (.inr hw))
  · exact hbegun.parts.arms x hx ▸ hw
  · exact hbegun.not_leadsPast hjob hhoists hx hw hpath hfree
  · have hleads : job.graph.Leads c w := (hbegun.parts.leads w).mpr (.inr ⟨x, hx, hw⟩)
    exact hstrays v (.head' hleads hpath) fun hmet => hfree (hmeets v hmet)

variable (harms : Emits job (.arms c b.arms)
  ((s.hold (job.held d b)).write (some c) b.header) f)
include harms

omit hjob in
/-- When a block is closed, a successor that is not met is one that was put off before, or one after
the block, or one that the block has let go. -/
theorem Fenced.cases_letGo (hu : u ∈ f.entered) (hleads : job.graph.Leads u w)
    (hunmet : ¬ (f.letGo (job.held d b)).Meets w) :
    u ∈ d.entered ∧ u ≠ c ∨ u = c ∧ w ∈ b.rest ∨ w ∈ job.held d b := by
  have hheld (hmet : f.Meets w) : w ∈ job.held d b := by
    by_contra hnot
    refine hunmet (hmet.imp id fun hbar => ?_)
    exact List.mem_filter.mpr ⟨hbar, by simpa using hnot⟩
  have hcloses := harms.closes hsep fun _ _ _ _ => trivial
  by_cases hown : u = c
  · subst hown
    rcases (h.poised.2.1.parts.leads w).mp hleads with hw | hw
    · exact .inr (.inl ⟨rfl, hw⟩)
    · exact .inr (.inr (hheld (hcloses.starts w hw)))
  · by_cases hin : u ∈ d.entered
    · exact .inl ⟨hin, hown⟩
    · refine .inr (.inr (hheld (hcloses.since u hu (fun hearly => ?_) w hleads)))
      exact hhoists.not_leads_of_hoisted hsep hearly hin hleads

omit hjob hsep in
/-- What a block has let go is put off until it is followed. -/
theorem Fenced.deferred_of_held (he : f.trace <+: e.trace) (hentered : f.entered ⊆ e.entered)
    (hclosed : openArms e.trace = openArms d.trace) (hw : w ∈ job.held d b)
    (hpath : TransGen job.graph.Leads c x) (hfree : t.owner? = none) :
    job.Deferred t e u w x := by
  obtain ⟨⟨hc, houtside⟩, hbegun, -⟩ := h.poised
  obtain ⟨y, hy, hinto, hpast⟩ := hbegun.exists_arm hw
  refine .released (y := (c, y.1)) ⟨he.subset (harms.closed_mem y hy), ?_, hinto, hpast⟩ ?_ ?_ hpath
  · rw [hclosed]
    exact houtside
  · exact hentered ((hhoists.arms_done harms).1 hc)
  · simp [hfree]

/-- A block is closed, and the flow is followed to the nodes after it. -/
theorem Fenced.letGo : job.Fenced trace (.flows b.rest) (f.letGo (job.held d b)) := by
  have hopened := h.hold hjob hsep hhoists
  have hbegun := h.poised.2.1
  obtain ⟨hsubset, htrace, hclosed⟩ := hhoists.arms_done harms
  have hleads (w : Nat) (hw : w ∈ b.rest) : job.graph.Leads c w := (hbegun.parts.leads w).mpr (.inl hw)
  refine h.mono (fun w hw => ⟨w, .inl hw, .refl⟩) (hopened.recorded.extends (e := f) harms.extends)
    (fun v => Begun.meets_letGo hhoists harms) hsubset hclosed (fun u hu hold => ?_)
    (fun w hw => hbegun.sealed_letGo hjob hsep hhoists harms (.inl hw)) ?_ trivial
  · exact absurd (Divided.letGo_barriers hhoists harms ▸ hu) hold
  · intro u hu _ w huw hunmet x hx hne
    rcases h.cases_letGo hsep hhoists harms hu huw hunmet with ⟨hin, hown⟩ | ⟨rfl, hw⟩ | hw
    · have hdeferred := h.accounts u hin (by simpa [Task.owner?] using Ne.symm hown) w huw
        (fun hmet => hunmet (Begun.meets_letGo hhoists harms hmet)) x (.inl hx) hne
      exact hdeferred.mono htrace hsubset hclosed (by simp [Task.owner?]) .refl
    · exact .fork ⟨none, x, hne, hbegun.parts.rest w hw, hbegun.parts.rest x hx, .refl⟩
    · exact h.deferred_of_held hhoists harms (List.prefix_refl _) (List.Subset.refl _) hclosed hw
        (.single (hleads x hx)) rfl

/-- The flow is followed to the nodes that a block held back. -/
theorem Fenced.release (hrest : Emits job (.flows b.rest) (f.letGo (job.held d b)) e) :
    job.Fenced trace (.flows (job.held d b)) e := by
  have hletGo := h.letGo hjob hsep hhoists harms
  have hbegun := h.poised.2.1
  have hrested := hrest.closes hsep fun _ _ => trivial
  obtain ⟨hinside, hwritten, hdone⟩ := hhoists.arms_done harms
  have hclosed : openArms e.trace = openArms d.trace := hrest.openArms_eq.trans hdone
  have hsubset : d.entered ⊆ e.entered := fun v hv => hrest.extends.subset (hinside hv)
  have htrace : d.trace <+: e.trace := hwritten.trans hrest.extends.trace
  have hmeets (v : Nat) (hv : d.Meets v) : e.Meets v :=
    (Begun.meets_letGo hhoists harms hv).mono hrest.extends
  refine h.mono (fun w hw => ?_) (hletGo.recorded.extends hrest.extends) hmeets hsubset hclosed
    (fun u hu hold => ?_) (fun w hw => ?_) ?_ trivial
  · obtain ⟨a, ha, hback⟩ := hbegun.exists_start hw
    exact ⟨a, (hbegun.parts.leads a).mp ha, hback⟩
  · exact absurd (Divided.letGo_barriers hhoists harms ▸ hrest.extends.barriers ▸ hu) hold
  · exact (hbegun.sealed_letGo hjob hsep hhoists harms (.inr hw)).since hrest.extends hrested.since
  · intro u hu _ w huw hunmet x hx hne
    obtain ⟨a, ha, hback⟩ := hbegun.exists_start hx
    have hreleased (hw : w ∈ job.held d b) : job.Deferred (.flows (job.held d b)) e u w x :=
      h.deferred_of_held hhoists harms hrest.extends.trace hrest.extends.subset hclosed hw
        (.head' ha hback) rfl
    have hearly : u ∈ f.entered := by
      by_contra hnew
      exact hunmet (hrested.since u hu hnew w huw)
    have hunmet' : ¬ (f.letGo (job.held d b)).Meets w := fun hmet => hunmet (hmet.mono hrest.extends)
    rcases h.cases_letGo hsep hhoists harms hearly huw hunmet' with ⟨hin, hown⟩ | ⟨rfl, hw⟩ | hw
    · -- the node is come to from a start of the block, which is not the one that was put off
      by_cases heq : a = w
      · subst heq
        rcases h.cases_letGo hsep hhoists harms (hinside h.poised.1.1) ha hunmet' with
          ⟨-, hne⟩ | ⟨-, hw⟩ | hw
        · exact absurd rfl hne
        · exact absurd (hrested.starts _ hw) hunmet
        · exact hreleased hw
      · have hdeferred := h.accounts u hin (by simpa [Task.owner?] using Ne.symm hown) w huw
          (fun hmet => hunmet (hmeets w hmet)) a ((hbegun.parts.leads a).mp ha) heq
        exact hdeferred.mono htrace hsubset hclosed (by simp [Task.owner?]) hback
    · exact absurd (hrested.starts w hw) hunmet
    · exact hreleased hw

end Phases

/-- The scope of a node that becomes no block may be open around all that lies behind the node. -/
theorem poised_scope (hblock : job.block? e v = none) (hv : v ∈ d.entered)
    (hstrays : ∀ u, TransGen job.graph.Leads v u → ¬ d.Meets u →
      StraysAround job.graph trace v u) :
    job.Poised trace d (.arms v [(.scope, job.graph.successors v)]) := by
  refine ⟨hv, fun x hx => ?_⟩
  obtain rfl := List.mem_singleton.mp hx
  have hleads (w : Nat) (hw : w ∈ job.graph.successors v) := FlowGraph.mem_successors.mp hw
  refine ⟨⟨rfl, none, fun w hw => branchesTo_of_not_block hblock (hleads w hw)⟩,
    fun w hw u hpath hunmet => ⟨⟨w, hw, hpath⟩, ?_, ?_⟩⟩
  · -- a scope has no other way out
    rintro ⟨w', hw', hout, -⟩
    exact hout (FlowGraph.mem_successors.mpr hw')
  · exact hstrays u (.head' (hleads w hw) hpath) hunmet

/-- Following the flow enters nodes only in arms that may be open around them. -/
theorem Emits.enclosedSince (hjob : job.WellFormed) (hsep : job.graph.Separated)
    (h : Emits job t d e) (ht : t.Of job.DataOnly fun _ => True) (hd : job.Fenced trace t d)
    (htrace : e.trace <+: trace) : job.EnclosedSince trace d e := by
  induction h with
  | value_skip | values_nil | hoists_nil | flow_skip | flows_nil | arms_nil =>
    exact .of_dataOnly fun v hv => .inl hv
  | value_enter hnew hdeps =>
    exact .of_dataOnly ((Emits.value_enter hnew hdeps).enters_dataOnly hsep ht)
  | values_cons hfirst hrest =>
    exact .of_dataOnly ((Emits.values_cons hfirst hrest).enters_dataOnly hsep ht)
  | hoists_take hshared hhoistable hfirst hrest =>
    exact .of_dataOnly
      ((Emits.hoists_take hshared hhoistable hfirst hrest).enters_dataOnly hsep ht)
  | hoists_leave hleave hrest =>
    exact .of_dataOnly ((Emits.hoists_leave hleave hrest).enters_dataOnly hsep ht)
  | @flow_plain v d e f hfree hnew hdeps hblock _ hnext _ ih =>
    have hwrites := writeGuarded_writes job e v
    obtain ⟨hread, hfenced⟩ := hd.next (t := .flows (job.graph.successors v)) hsep hfree hnew hdeps
      hwrites.extends hwrites.entered hwrites.openArms_eq (hnext.extends.trace.trans htrace)
      (fun w hw => FlowGraph.mem_successors.mp hw) (by simp [Task.owner?])
      (fun _ w => branchesTo_of_not_block hblock) fun _ _ _ => trivial
    exact hread.trans (ih (fun _ _ => trivial) hfenced htrace)
  | @flow_scope v d e f hfree hnew hdeps hblock _ hnext _ ih =>
    have hwrites := writeGuarded_writes job e v
    have hstarts (w : Nat) (hw : (Task.arms v [(.scope, job.graph.successors v)]).Starts w) :
        job.graph.Leads v w := by
      obtain ⟨x, hx, hw⟩ := hw
      obtain rfl := List.mem_singleton.mp hx
      exact FlowGraph.mem_successors.mp hw
    obtain ⟨hread, hfenced⟩ := hd.next hsep hfree hnew hdeps hwrites.extends hwrites.entered
      hwrites.openArms_eq (hnext.extends.trace.trans htrace) hstarts (by simp [Task.owner?])
      (fun hother => absurd rfl hother) fun hv _ hstrays => poised_scope hblock hv.1 hstrays
    exact hread.trans (ih (fun _ _ _ _ => trivial) hfenced htrace)
  | @flow_block v d e b s f hfree hnew hdeps hblock hnext _ ih =>
    have halike := block?_alike hblock
    have hparts := block?_parts hblock
    obtain ⟨hread, hfenced⟩ := hd.next (t := .block v b) hsep hfree hnew hdeps halike.extends
      halike.entered (congrArg openArms halike.trace) (hnext.extends.trace.trans htrace)
      (fun w hw => (hparts.leads w).mpr hw) (by simp [Task.owner?])
      (fun hother => absurd rfl hother) fun hv hsealed hstrays => ⟨hv, ⟨hparts, hsealed⟩, hstrays⟩
    exact hread.trans (ih (fun _ _ => trivial) hfenced htrace)
  | @block c b d s f h i hhoists harms hrest hheld ihHoists ihArms ihRest ihHeld =>
    have hafter := hheld.extends.trace.trans htrace
    have hahead : job.EnclosedSince trace d s :=
      .of_dataOnly (hhoists.enters_dataOnly hsep (regionNeeds_dataOnly hsep))
    have harmed : job.EnclosedSince trace s f := ihArms (fun _ _ _ _ => trivial)
      (hd.hold hjob hsep hhoists) (hrest.extends.trace.trans hafter)
    have hrested : job.EnclosedSince trace f h :=
      ihRest (fun _ _ => trivial) (hd.letGo hjob hsep hhoists harms) hafter
    have hreleased : job.EnclosedSince trace h i :=
      ihHeld (fun _ _ => trivial) (hd.release hjob hsep hhoists harms hrest) htrace
    exact ((hahead.trans harmed).trans hrested).trans hreleased
  | @flows_cons v vs d e f hfirst hrest ih ih' =>
    exact (ih trivial hd.first (hrest.extends.trace.trans htrace)).trans
      (ih' (fun _ _ => trivial) (hd.others hsep hfirst) htrace)
  | @arms_cons c arm ws rest d e f harm hrest ihArm ihRest =>
    have hinside := (Draft.trace_nextArm_endArm c arm rest (d.openArm c arm) e).trans
      (hrest.extends.trace.trans htrace)
    have hfilled : job.EnclosedSince trace d (((d.openArm c arm).endArm c arm e).nextArm rest) :=
      fun v hv => ihArm (fun _ _ => trivial) hd.openArm hinside v (by simpa using hv)
    exact hfilled.trans (ihRest (fun _ _ _ _ => trivial) (hd.nextArm hsep harm) htrace)

/-- Between two pieces of work for entry points no arm is open, nothing is held back and nothing is put
off, so all nodes are entered in arms that may be open around them. -/
theorem Performs.enclosedSince (hjob : job.WellFormed) (hsep : job.graph.Separated) {ts : List Task}
    (h : Performs job ts d e)
    (hts : ∀ t ∈ ts, (∃ vs, t = .values vs ∧ ∀ v ∈ vs, job.DataOnly v) ∨ ∃ v, t = .flow v)
    (hd : d.Recorded) (harms : openArms d.trace = []) (hbarriers : d.barriers = [])
    (hclosed : ∀ u ∈ d.entered, ∀ w, job.graph.Leads u w → d.Meets w)
    (htrace : e.trace <+: trace) : job.EnclosedSince trace d e := by
  induction h with
  | nil => exact .of_dataOnly fun v hv => .inl hv
  | @cons t ts d e f hfirst hrest ih =>
    have hbefore := hrest.extends.trace.trans htrace
    have hof : t.Of job.DataOnly fun _ => True := by
      rcases hts t List.mem_cons_self with ⟨vs, rfl, hvs⟩ | ⟨v, rfl⟩
      · exact hvs
      · trivial
    have hhere : job.EnclosedSince trace d e := by
      rcases hts t List.mem_cons_self with ⟨vs, rfl, hvs⟩ | ⟨v, rfl⟩
      · exact .of_dataOnly (hfirst.enters_dataOnly hsep hvs)
      · refine hfirst.enclosedSince hjob hsep trivial
          ⟨hd, by simp [harms], by simp [hbarriers], fun w _ u _ hu => ?_, ?_, by simp [harms],
            trivial⟩ hbefore
        · exact hclosed u (hu.resolve_right (by simp [hbarriers]))
        · exact fun u hu _ w hleads hunmet => absurd (hclosed u hu w hleads) hunmet
    have hlater : ∀ u ∈ e.entered, ∀ w, job.graph.Leads u w → e.Meets w := by
      intro u hu w hleads
      by_cases hin : u ∈ d.entered
      · exact (hclosed u hin w hleads).mono hfirst.extends
      · exact (hfirst.closes hsep hof).since u hu hin w hleads
    exact hhere.trans (ih (fun t ht => hts t (List.mem_cons_of_mem _ ht))
      (hd.extends hfirst.extends) (hfirst.openArms_eq.trans harms)
      (hfirst.extends.barriers.trans hbarriers) hlater htrace)

end Job

namespace Generator

variable {σ : Type}

/-- Let the execution edges of a graph run in no circle and join nodes of the flow of execution, and
let no data edge start at such a node. Let a path from an entry point come to a node without passing
through a conditional or a loop. Then rendering enters the node, and not in an arm of the conditional
or loop that does not lead to it, or besides which another way out leads to it as well. Nor is it
entered in any arm if the entry point is entered before the conditional or loop and no step of the path
goes from what is entered by then to what was put off: a later successor of a fork on the way to the
conditional or loop, or a node that a block on the way has let go. -/
theorem detours_keep_nodes_outside (ask : PatternSource σ) (s : σ) (doc : Document)
    (settings : Settings) (conversions : Conversions) (known : List (String × Option Pattern))
    (hmode : mode (.ofDocument doc) = .execution)
    (hseparated : (FlowGraph.ofDocument doc).Separated) :
    let gen : Generator := ⟨.ofDocument doc, settings, conversions, known⟩
    ∃ d, gen.rendering ask s = .ok d ∧ ∀ (c n entry : Nat) (es : List Edge) (arm : Arm),
      entry ∈ gen.graph.entryPoints → gen.graph.Path entry es n → (∀ e ∈ es, e.source ≠ c) →
      (¬ gen.graph.LeadsInto c arm n ∨ gen.graph.LeadsPast c arm n ∨
        entry ∈ entries (upTo d.trace c) ∧ ∀ e ∈ es, ¬ Strays gen.graph (upTo d.trace c) c e) →
      n ∈ entries d.trace ∧ (c, arm) ∉ armsAt d.trace n := by
  intro gen
  have hg : gen.graph.WellFormed := FlowGraph.ofDocument_wellFormed doc
  have hjob := fittedJob_wellFormed ask hg s
  obtain ⟨e, hperforms, hrendering⟩ := rendering_performs ask hg s
  refine ⟨_, hrendering, ?_⟩
  intro c n entry es arm hentry hpath haround hkept
  have hclosing := Job.closing_extends (gen.fittedJob ask s) e
  obtain ⟨new, hentered, -, -, hentries⟩ := (hperforms.extends.trans hclosing).entered
  have hports : gen.graph.hasExecutionPorts n = true := by
    rcases ReflTransGen.cases_tail hpath.leads with rfl | ⟨y, -, hlast⟩
    · exact FlowGraph.hasExecutionPorts_of_entryPoints hmode hentry
    · exact (hseparated.ends y n hlast).2
  -- the node is entered in the work for the entry points
  rw [Job.bodyTasks, show (gen.fittedJob ask s).mode = .execution from hmode] at hperforms
  obtain ⟨f, hfirst, hlast⟩ := hperforms.split
  have hn : n ∈ f.entered :=
    hfirst.reached_mem hseparated rfl rfl ⟨entry, hentry, hpath.leads⟩
  have henclosed := hfirst.enclosedSince hjob hseparated
    (fun t ht => (Job.entryTasks_of (F := fun _ => True) (fun _ _ => trivial) ht).imp_right
      fun hflow => hflow.imp fun _ hv => hv.1) rfl rfl rfl (by simp [startDraft, Draft.start])
    (hlast.extends.trace.trans hclosing.trace) n hn (by simp [startDraft, Draft.start])
    (fun hdata => Bool.false_ne_true (hdata.symm.trans hports))
  have hentriesEq : entries ((gen.fittedJob ask s).closing e).trace = e.entered := by
    rw [hentries.trans hentered.symm, Job.closing_entered]
  refine ⟨hentriesEq ▸ hlast.extends.subset hn, fun hinside => ?_⟩
  have hencloses := henclosed _ hinside
  rcases hkept with hout | hpast | ⟨hbefore, hkeeps⟩
  · exact hout hencloses.into
  · exact hencloses.alone hpast
  · obtain ⟨x, hx, hstrays⟩ := hencloses.around entry es hpath haround hbefore
    exact hkeeps x hx hstrays

/-- A conditional in the first branch of another one, whose second branch leads to the same node. -/
def innerGuard : Document where
  nodes :=
    [⟨"outer", "outer", none, some .conditional, [⟨"cond", "cond", "bool", false, none⟩], [],
        some true, [], [], none, none⟩,
      ⟨"inner", "inner", none, some .conditional, [⟨"cond", "cond", "bool", false, none⟩], [],
        some true, [], [], none, none⟩,
      ⟨"other", "other", none, some .plain, [], [], some true, [], [], none, none⟩,
      ⟨"last", "last", none, some .plain, [], [], some true, [], [], none, none⟩]
  edges :=
    [⟨"e1", "outer", "inner", none, none, some ⟨some .execution, some "then"⟩⟩,
      ⟨"e2", "outer", "other", none, none, some ⟨some .execution, some "else"⟩⟩,
      ⟨"e3", "inner", "last", none, none, some ⟨some .execution, some "then"⟩⟩,
      ⟨"e4", "other", "last", none, none, some ⟨some .execution, none⟩⟩]

/-- The last node is not entered in the arm of the inner conditional, which alone of its ways out leads
there: the second branch of the outer conditional leads around it and does not stray. -/
theorem innerGuard_last_outside :
    let g := FlowGraph.ofDocument innerGuard
    let es : List Edge := [⟨"e2", 0, 2, .execution, "", "", some "else"⟩,
      ⟨"e4", 2, 3, .execution, "", "", none⟩]
    (mode g = .execution ∧ g.Separated ∧ 0 ∈ g.entryPoints ∧ g.Path 0 es 3 ∧
      (∀ e ∈ es, e.source ≠ 1) ∧ g.LeadsInto 1 .thenArm 3 ∧ ¬ g.LeadsPast 1 .thenArm 3) ∧
    ∃ d, (Generator.new g .standard).rendering unanswered () = .ok d ∧
      (0 ∈ entries (upTo d.trace 1) ∧ ∀ e ∈ es, ¬ Strays g (upTo d.trace 1) 1 e) ∧
      3 ∈ entries d.trace ∧ (1, .thenArm) ∉ armsAt d.trace 3 := by
  intro g es
  have hmode : mode g = .execution := by decide
  have hseparated : g.Separated := FlowGraph.separated_of_edges (by decide) (by decide)
  have hentry : 0 ∈ g.entryPoints := by decide
  have hpath : g.Path 0 es 3 :=
    .cons (e := ⟨"e2", 0, 2, .execution, "", "", some "else"⟩) (by decide) rfl <|
      .cons (e := ⟨"e4", 2, 3, .execution, "", "", none⟩) (by decide) rfl .nil
  have haround : ∀ e ∈ es, e.source ≠ 1 := by decide
  have hinto : g.LeadsInto 1 .thenArm 3 := ⟨3, by decide, .refl⟩
  have halone : ¬ g.LeadsPast 1 .thenArm 3 := by
    rintro ⟨w, hw, hout, -⟩
    have htargets : ∀ w ∈ g.successors 1, w ∈ g.armTargets 1 .thenArm := by decide
    exact hout (htargets w (FlowGraph.mem_successors.mpr hw))
  obtain ⟨d, hrendering, houtside⟩ := detours_keep_nodes_outside unanswered () innerGuard
    .standard (.standard .standard) [] hmode hseparated
  obtain ⟨d', hrendering', htrace⟩ : ∃ d,
      (Generator.new g .standard).rendering unanswered () = .ok d ∧
      d.trace = [.enter 0, .line (some 0) 0 "if False:", .opened 0 .thenArm, .enter 1,
        .line (some 1) 1 "if False:", .opened 1 .thenArm, .line none 2 "pass",
        .closed 1 .thenArm, .closed 0 .thenArm, .line none 0 "else:", .opened 0 .elseArm, .enter 2,
        .line none 1 "pass", .closed 0 .elseArm, .enter 3] :=
    exists_rendering (by decide +kernel)
  obtain rfl : d = d' := Except.ok.inj (hrendering.symm.trans hrendering')
  have hupTo : upTo d.trace 1 =
      [.enter 0, .line (some 0) 0 "if False:", .opened 0 .thenArm] := by rw [htrace]; decide
  have hkeeps : ∀ e ∈ es, ¬ Strays g (upTo d.trace 1) 1 e := by
    rw [hupTo]
    rintro e he ⟨hsource, -, hreason⟩
    rcases hreason with ⟨arm, w, hne, ⟨x, hx, -, hsx, htx, rfl⟩, ⟨y, hy, -, hsy, rfl, harm⟩, -⟩ |
      ⟨x, hreleases, -⟩
    · -- only the second branch of the outer conditional leads on as the path does
      have hsides : ∀ e ∈ es, e.source ∈ entries [.enter 0, .line (some 0) 0 "if False:",
          .opened 0 .thenArm] → ∀ x ∈ g.edges, ∀ y ∈ g.edges, x.source = e.source →
          y.source = e.source → x.target = e.target → g.armOf? y = g.armOf? x →
          y.target = e.target := by decide
      exact hne (hsides e he hsource x hx y hy hsx hsy htx harm)
    · simpa using hreleases.closed
  have hlast := houtside 1 3 0 es .thenArm hentry hpath haround
    (.inr (.inr ⟨by rw [hupTo]; decide, hkeeps⟩))
  exact ⟨⟨hmode, hseparated, hentry, hpath, haround, hinto, halone⟩, d, hrendering,
    ⟨by rw [hupTo]; decide, hkeeps⟩, hlast⟩

/-- A node is entered in the first arm of a conditional, although a path from an entry point leads to
it around the conditional. -/
def GuardedAround (doc : Document) (c n entry : Nat) (es : List Edge) : Prop :=
  let g := FlowGraph.ofDocument doc
  (mode g = .execution ∧ g.schedule.cycles = [] ∧ g.Separated ∧ entry ∈ g.entryPoints ∧
    g.Path entry es n ∧ ∀ e ∈ es, e.source ≠ c) ∧
  ∃ d, (Generator.new g .standard).rendering unanswered () = .ok d ∧
    (c, .thenArm) ∈ armsAt d.trace n

/-- Where a node is entered can be read off the trace. -/
theorem GuardedAround.of_trace {doc : Document} {c n entry : Nat} {es : List Edge}
    (trace : List Event)
    (hrendering : ((Generator.new (.ofDocument doc) .standard).rendering unanswered ()).toOption.map
      Draft.trace = some trace)
    (harm : (c, .thenArm) ∈ armsAt trace n) (hmode : mode (.ofDocument doc) = .execution)
    (hcycles : (FlowGraph.ofDocument doc).schedule.cycles = [])
    (hseparated : (FlowGraph.ofDocument doc).Separated)
    (hentry : entry ∈ (FlowGraph.ofDocument doc).entryPoints)
    (hpath : (FlowGraph.ofDocument doc).Path entry es n) (haround : ∀ e ∈ es, e.source ≠ c) :
    GuardedAround doc c n entry es := by
  obtain ⟨d, hd, rfl⟩ := exists_rendering hrendering
  exact ⟨⟨hmode, hcycles, hseparated, hentry, hpath, haround⟩, d, hd, harm⟩

/-- A flow that forks into a conditional and, after it, a node that the conditional leads to. -/
def forkedFlow : Document where
  nodes :=
    [⟨"start", "start", none, some .plain, [], [], some true, [], [], none, none⟩,
      ⟨"choice", "choice", none, some .conditional, [⟨"cond", "cond", "bool", false, none⟩], [],
        some true, [], [], none, none⟩,
      ⟨"next", "next", none, some .plain, [], [], some true, [], [], none, none⟩]
  edges :=
    [⟨"e1", "start", "choice", none, none, some ⟨some .execution, none⟩⟩,
      ⟨"e2", "start", "next", none, none, some ⟨some .execution, none⟩⟩,
      ⟨"e3", "choice", "next", none, none, some ⟨some .execution, some "then"⟩⟩]

/-- A conditional that leads to a node, and a later entry point that leads there too. -/
def lateEntry : Document where
  nodes :=
    [⟨"choice", "choice", none, some .conditional, [⟨"cond", "cond", "bool", false, none⟩], [],
        some true, [], [], none, none⟩,
      ⟨"late", "late", none, some .plain, [], [], some true, [], [], none, none⟩,
      ⟨"next", "next", none, some .plain, [], [], some true, [], [], none, none⟩]
  edges :=
    [⟨"e1", "choice", "next", none, none, some ⟨some .execution, some "then"⟩⟩,
      ⟨"e2", "late", "next", none, none, some ⟨some .execution, none⟩⟩]

/-- A conditional after whose block a second one runs, and a node that the first branches of both lead
to. The first holds the node back and lets it go before the second is entered. -/
def releasedMeeting : Document where
  nodes :=
    [⟨"first", "first", none, some .conditional, [⟨"cond", "cond", "bool", false, none⟩], [],
        some true, [], [], none, none⟩,
      ⟨"inside", "inside", none, some .plain, [], [], some true, [], [], none, none⟩,
      ⟨"second", "second", none, some .conditional, [⟨"cond", "cond", "bool", false, none⟩], [],
        some true, [], [], none, none⟩,
      ⟨"meet", "meet", none, some .plain, [], [], some true, [], [], none, none⟩]
  edges :=
    [⟨"e1", "first", "inside", none, none, some ⟨some .execution, some "then"⟩⟩,
      ⟨"e2", "first", "second", none, none, some ⟨some .execution, none⟩⟩,
      ⟨"e3", "inside", "meet", none, none, some ⟨some .execution, none⟩⟩,
      ⟨"e4", "second", "meet", none, none, some ⟨some .execution, some "then"⟩⟩]

/-- A conditional both branches of which lead to one node, counted for the first branch only, in which
a second conditional stands. -/
def doubledTarget : Document where
  nodes :=
    [⟨"first", "first", none, some .conditional, [⟨"cond", "cond", "bool", false, none⟩], [],
        some true, [], [], none, none⟩,
      ⟨"second", "second", none, some .conditional, [⟨"cond", "cond", "bool", false, none⟩], [],
        some true, [], [], none, none⟩,
      ⟨"both", "both", none, some .plain, [], [], some true, [], [], none, none⟩,
      ⟨"last", "last", none, some .plain, [], [], some true, [], [], none, none⟩]
  edges :=
    [⟨"e1", "first", "second", none, none, some ⟨some .execution, some "then"⟩⟩,
      ⟨"e2", "first", "both", none, none, some ⟨some .execution, some "then"⟩⟩,
      ⟨"e3", "first", "both", none, none, some ⟨some .execution, some "else"⟩⟩,
      ⟨"e4", "second", "last", none, none, some ⟨some .execution, some "then"⟩⟩,
      ⟨"e5", "both", "last", none, none, some ⟨some .execution, none⟩⟩]

/-- A node is entered in the arm of a conditional though a path leads to it around the conditional: from
a fork to a later successor, from a later entry point, to a node that another block has let go, and
from a conditional to a node that its other branch leads to as well. -/
theorem ways_around_may_stray :
    GuardedAround forkedFlow 1 2 0 [⟨"e2", 0, 2, .execution, "", "", none⟩] ∧
    GuardedAround lateEntry 0 2 1 [⟨"e2", 1, 2, .execution, "", "", none⟩] ∧
    GuardedAround releasedMeeting 2 3 0 [⟨"e1", 0, 1, .execution, "", "", some "then"⟩,
      ⟨"e3", 1, 3, .execution, "", "", none⟩] ∧
    GuardedAround doubledTarget 1 3 0 [⟨"e3", 0, 2, .execution, "", "", some "else"⟩,
      ⟨"e5", 2, 3, .execution, "", "", none⟩] := by
  refine ⟨?_, ?_, ?_, ?_⟩
  · exact .of_trace [.enter 0, .enter 1, .line (some 1) 0 "if False:", .opened 1 .thenArm, .enter 2,
      .line none 1 "pass", .closed 1 .thenArm] (by decide +kernel) (by decide) (by decide)
      (by decide +kernel) (FlowGraph.separated_of_edges (by decide) (by decide)) (by decide)
      (.cons (e := ⟨"e2", 0, 2, .execution, "", "", none⟩) (by decide) rfl .nil) (by decide)
  · exact .of_trace [.enter 0, .line (some 0) 0 "if False:", .opened 0 .thenArm, .enter 2,
      .line none 1 "pass", .closed 0 .thenArm, .enter 1] (by decide +kernel) (by decide) (by decide)
      (by decide +kernel) (FlowGraph.separated_of_edges (by decide) (by decide)) (by decide)
      (.cons (e := ⟨"e2", 1, 2, .execution, "", "", none⟩) (by decide) rfl .nil) (by decide)
  · exact .of_trace [.enter 0, .line (some 0) 0 "if False:", .opened 0 .thenArm, .enter 1,
      .line none 1 "pass", .closed 0 .thenArm, .enter 2, .line (some 2) 0 "if False:",
      .opened 2 .thenArm, .enter 3, .line none 1 "pass", .closed 2 .thenArm] (by decide +kernel)
      (by decide) (by decide) (by decide +kernel)
      (FlowGraph.separated_of_edges (by decide) (by decide)) (by decide)
      (.cons (e := ⟨"e1", 0, 1, .execution, "", "", some "then"⟩) (by decide) rfl <|
        .cons (e := ⟨"e3", 1, 3, .execution, "", "", none⟩) (by decide) rfl .nil) (by decide)
  · exact .of_trace [.enter 0, .line (some 0) 0 "if False:", .opened 0 .thenArm, .enter 1,
      .line (some 1) 1 "if False:", .opened 1 .thenArm, .enter 3, .line none 2 "pass",
      .closed 1 .thenArm, .enter 2, .closed 0 .thenArm] (by decide +kernel) (by decide) (by decide)
      (by decide +kernel) (FlowGraph.separated_of_edges (by decide) (by decide)) (by decide)
      (.cons (e := ⟨"e3", 0, 2, .execution, "", "", some "else"⟩) (by decide) rfl <|
        .cons (e := ⟨"e5", 2, 3, .execution, "", "", none⟩) (by decide) rfl .nil) (by decide)

end Generator

end FlowScript
