import FlowScript.Proofs.Regions

/-!
# The arms of a block in the trace

An arm is opened, filled and closed once, and nothing else opens or closes an arm of the same node.
What is entered while the arm is filled therefore stands between the two in the trace, with the line
that announces the arm right before them.
-/

namespace FlowScript

/-- The node whose arm a step opens or closes. -/
def Event.owner? : Event → Option Nat
  | .opened owner _ => some owner
  | .closed owner _ => some owner
  | _ => none

/-- A piece of work opens arms of the node. -/
def Task.Owns (v : Nat) : Task → Prop
  | .arms owner _ => owner = v
  | .block owner _ => owner = v
  | _ => False

/-- A step that belongs to the lines of some node opens and closes no arm. -/
theorem Event.owner?_of_origin? {x : Event} {v : Nat} (h : x.origin? = some v) :
    x.owner? = none := by
  cases x with
  | line | blank => rfl
  | enter | opened | closed => cases h

/-- No arm of the node is opened or closed from `d` to `e`. -/
def Draft.Quiet (v : Nat) (d e : Draft) : Prop :=
  ∃ new, e.trace = d.trace ++ new ∧ ∀ x ∈ new, x.owner? ≠ some v

namespace Draft.Quiet

variable {v : Nat} {d e f : Draft}

/-- Nothing happens. -/
theorem refl (d : Draft) : Quiet v d d :=
  ⟨[], (List.append_nil _).symm, by simp⟩

/-- Work after work. -/
theorem trans (h : Quiet v d e) (h' : Quiet v e f) : Quiet v d f := by
  obtain ⟨new, htrace, hnew⟩ := h
  obtain ⟨new', htrace', hnew'⟩ := h'
  refine ⟨new ++ new', by rw [htrace', htrace, List.append_assoc], fun x hx => ?_⟩
  exact (List.mem_append.mp hx).elim (hnew x) (hnew' x)

/-- The lines of a node open and close no arm. -/
theorem of_writes {job : Job} {u : Nat} (h : Writes job u d e) : Quiet v d e := by
  obtain ⟨own, htrace, hown⟩ := h.trace
  refine ⟨own, htrace, fun x hx => ?_⟩
  simp [Event.owner?_of_origin? (hown x hx)]

/-- The end of an arm of another node. -/
theorem endArm {owner : Nat} (hne : owner ≠ v) (arm : Arm) (d e : Draft) :
    Quiet v e (d.endArm owner arm e) := by
  obtain ⟨pass, htrace, hpass⟩ := Draft.endArm_trace owner arm d e
  refine ⟨pass ++ [.closed owner arm], by rw [htrace, List.append_assoc], fun x hx => ?_⟩
  rcases List.mem_append.mp hx with hx | hx
  · simp [hpass x hx, Event.owner?]
  · simpa [List.mem_singleton.mp hx, Event.owner?] using hne

/-- The announcement of an arm. -/
theorem nextArm (rest : List (Arm × List Nat)) (d : Draft) : Quiet v d (d.nextArm rest) := by
  refine ⟨_, Draft.nextArm_trace rest d, ?_⟩
  split <;> simp [Event.owner?]

end Draft.Quiet

namespace Job

variable {job : Job} {d e : Draft} {v : Nat}

/-- Writing one node opens and closes no arm of another. -/
theorem writeAlone_quiet {u : Nat} (hne : u ≠ v) (d : Draft) :
    Draft.Quiet v d (job.writeAlone u d) := by
  refine (Draft.Quiet.of_writes (writeGuarded_writes job d u)).trans ?_
  rw [writeAlone]
  split
  · refine ⟨[.opened u .scope] ++ [.line none ((job.writeGuarded d u).level + 1) "pass"] ++
      [.closed u .scope], ?_, ?_⟩
    · simp [Draft.closeArm, Draft.write, Draft.openArm]
    · simpa [Event.owner?] using hne
  · exact .refl _

/-- Work that is not for a node that has been entered opens and closes no arm of the node. -/
theorem Emits.quiet {t : Task} (h : Emits job t d e) (hv : v ∈ d.entered)
    (ht : ¬ t.Owns v) : Draft.Quiet v d e := by
  have henter {d : Draft} {u : Nat} : Draft.Quiet v d (d.enter u) :=
    ⟨_, rfl, by simp [Event.owner?]⟩
  have hother {d : Draft} {u : Nat} (hnew : u ∉ d.entered) (hv : v ∈ d.entered) : u ≠ v :=
    fun heq => hnew (heq ▸ hv)
  induction h with
  | value_skip | values_nil | hoists_nil | flow_skip | flows_nil | arms_nil => exact .refl _
  | @value_enter u d e hnew hdeps ih =>
    have hread := henter.trans (ih (Draft.mem_enter.mpr (.inl hv)) id)
    exact hread.trans (writeAlone_quiet (hother hnew hv) e)
  | values_cons hfirst _ ih ih' | flows_cons hfirst _ ih ih' =>
    exact (ih hv id).trans (ih' (hfirst.extends.subset hv) id)
  | hoists_take _ _ hfirst _ ih ih' =>
    exact (ih hv id).trans (ih' (hfirst.extends.subset hv) id)
  | hoists_leave _ _ ih => exact ih hv ht
  | @flow_plain u d e f _ hnew hdeps _ _ _ ihDeps ih =>
    have hwrites := writeGuarded_writes job e u
    have hve : v ∈ e.entered := hdeps.extends.subset (Draft.mem_enter.mpr (.inl hv))
    have hread := henter.trans (ihDeps (Draft.mem_enter.mpr (.inl hv)) id)
    exact (hread.trans (.of_writes hwrites)).trans
      (ih (hwrites.extends.subset hve) id)
  | @flow_scope u d e f _ hnew hdeps _ _ _ ihDeps ih =>
    have hwrites := writeGuarded_writes job e u
    have hve : v ∈ e.entered := hdeps.extends.subset (Draft.mem_enter.mpr (.inl hv))
    have hread := henter.trans (ihDeps (Draft.mem_enter.mpr (.inl hv)) id)
    exact (hread.trans (.of_writes hwrites)).trans
      (ih (hwrites.extends.subset hve) (hother hnew hv))
  | @flow_block u d e b s f _ hnew hdeps hblock _ ihDeps ih =>
    have halike := block?_alike hblock
    have hve : v ∈ e.entered := hdeps.extends.subset (Draft.mem_enter.mpr (.inl hv))
    have hread := henter.trans (ihDeps (Draft.mem_enter.mpr (.inl hv)) id)
    have hshape : Draft.Quiet v e s := ⟨[], halike.trace.trans (List.append_nil _).symm, by simp⟩
    exact (hread.trans hshape).trans (ih (halike.extends.subset hve) (hother hnew hv))
  | @block owner b d e f h i hhoists harms hrest _ ihHoists ihArms ihRest ihHeld =>
    have hve := hhoists.extends.subset hv
    have hvf := harms.extends.subset hve
    have hheader : Draft.Quiet v e ((e.hold (job.held d b)).write (some owner) b.header) :=
      ⟨_, rfl, by simp [Event.owner?]⟩
    have hlet : Draft.Quiet v f (f.letGo (job.held d b)) :=
      ⟨[], (List.append_nil _).symm, by simp⟩
    exact (((((ihHoists hv id).trans hheader).trans (ihArms hve ht)).trans hlet).trans
      (ihRest hvf id)).trans
      (ihHeld (hrest.extends.subset hvf) id)
  | @arms_cons owner arm targets rest d e f harm _ ihArm ihRest =>
    have hne : owner ≠ v := ht
    have hopen : Draft.Quiet v d (d.openArm owner arm) :=
      ⟨_, rfl, by simpa [Event.owner?] using hne⟩
    have hve := harm.extends.subset hv
    refine (((hopen.trans (ihArm hv id)).trans (.endArm hne arm _ e)).trans
      (.nextArm rest _)).trans (ihRest ?_ ht)
    simpa using hve

end Job

/-- The line that announces an arm of a node. -/
def IsHeader (c : Nat) : Arm → Event → Prop
  | .thenArm, x => ∃ level condition, x = .line (some c) level ("if " ++ condition ++ ":")
  | .elseArm, x => ∃ level, x = .line none level "else:"
  | .loopBody, x => ∃ level name collection,
      x = .line (some c) level ("for " ++ name ++ " in " ++ collection ++ ":")
  | .scope, _ => False

/-- A node is entered while an arm of another is filled: after the line that announces the arm, and
before any arm of the other node is closed. -/
def EnteredInside (c : Nat) (arm : Arm) (n : Nat) (trace : List Event) : Prop :=
  ∃ before header inside after,
    trace = before ++ header :: .opened c arm :: (inside ++ .closed c arm :: after) ∧
      IsHeader c arm header ∧ .enter n ∈ inside ∧ ∀ other, .closed c other ∉ inside

/-- What happened inside an arm stays inside it. -/
theorem EnteredInside.mono {c n : Nat} {arm : Arm} {trace trace' : List Event}
    (h : EnteredInside c arm n trace) (htrace : trace <+: trace') : EnteredInside c arm n trace' := by
  obtain ⟨before, header, inside, after, rfl, hheader, hin, hclosed⟩ := h
  obtain ⟨more, rfl⟩ := htrace
  exact ⟨before, header, inside, after ++ more, by simp, hheader, hin, hclosed⟩

namespace Draft

/-- A node that work enters is entered in the part of the trace that the work adds. -/
theorem Extends.enter_mem {d e : Draft} {new : List Event} {v : Nat} (h : Extends d e)
    (htrace : e.trace = d.trace ++ new) (hv : v ∈ e.entered) (hnew : v ∉ d.entered) :
    .enter v ∈ new := by
  obtain ⟨added, hentered, -, -, hentries⟩ := h.entered
  have hadded : v ∈ added := by
    rw [hentered, List.mem_append] at hv
    exact hv.resolve_left hnew
  rw [htrace, entries, List.filterMap_append] at hentries
  rw [← List.append_cancel_left hentries, List.mem_filterMap] at hadded
  obtain ⟨x, hx, hxv⟩ := hadded
  cases x with
  | enter u =>
    obtain rfl := Option.some.inj hxv
    exact hx
  | line | blank | opened | closed => cases hxv

end Draft

namespace Job

variable {job : Job} {d e f : Draft} {c n : Nat} {arm : Arm}

/-- What the flow enters in an arm is entered inside the arm. -/
theorem Emits.enteredInside {targets : List Nat} {before : List Event} {header : Event}
    {trace : List Event} (h : Emits job (.flows targets) (d.openArm c arm) e)
    (hbefore : d.trace = before ++ [header]) (hheader : IsHeader c arm header)
    (hc : c ∈ d.entered) (hn : n ∈ e.entered) (hnew : n ∉ d.entered)
    (htrace : ((d.openArm c arm).endArm c arm e).trace <+: trace) :
    EnteredInside c arm n trace := by
  obtain ⟨inside, hinside, hquiet⟩ := h.quiet (v := c) hc id
  obtain ⟨pass, hended, hpass⟩ := Draft.endArm_trace c arm (d.openArm c arm) e
  have henter := h.extends.enter_mem hinside hn hnew
  refine EnteredInside.mono ?_ htrace
  refine ⟨before, header, inside ++ pass, [], ?_, hheader, List.mem_append_left _ henter, ?_⟩
  · rw [hended, hinside]
    simp [Draft.openArm, hbefore]
  · intro other hin
    rcases List.mem_append.mp hin with hin | hin
    · exact hquiet _ hin rfl
    · exact Event.noConfusion (hpass _ hin)

/-- The work in one arm of a block, after the arms before it. -/
theorem Emits.arm_split {old : List Nat} {V F : Nat → Prop} {ys zs : List (Arm × List Nat)}
    {x : Arm × List Nat} (h : Emits job (.arms c (ys ++ x :: zs)) d f)
    (hspread : Spread job old V F) (hold : ∀ v ∈ old, v ∈ d.entered)
    (hys : ∀ y ∈ ys, ∀ v ∈ y.2, F v) :
    ∃ s e, Draft.Extends d s ∧ (∀ v ∈ s.entered, v ∈ d.entered ∨ V v ∨ F v) ∧
      (ys = [] ∧ s = d ∨ ys ≠ [] ∧ ∃ before level, s.trace = before ++ [.line none level "else:"]) ∧
      Emits job (.flows x.2) (s.openArm c x.1) e ∧
      ((s.openArm c x.1).endArm c x.1 e).trace <+: f.trace := by
  induction ys generalizing d with
  | nil =>
    cases h with
    | @arms_cons _ arm targets _ _ e _ harm hrest =>
      refine ⟨d, e, .refl d, fun v hv => .inl hv, .inl ⟨rfl, rfl⟩, harm, ?_⟩
      have hnext := hrest.extends.trace
      rw [Draft.nextArm_trace] at hnext
      exact (List.prefix_append _ _).trans hnext
  | cons y ys ih =>
    cases h with
    | @arms_cons _ arm targets _ _ e _ harm hrest =>
      have hext := (Draft.endArm_extends harm.extends).trans
        (Draft.nextArm_extends _ (ys ++ x :: zs))
      have hstay : ∀ v ∈ e.entered, v ∈ d.entered ∨ V v ∨ F v :=
        harm.enters_only hspread hold (hys _ List.mem_cons_self)
      obtain ⟨s, e', hs, hentered, hbefore, hflows, htrace⟩ := ih hrest
        (fun v hv => hext.subset (hold v hv)) fun y hy => hys y (List.mem_cons_of_mem _ hy)
      refine ⟨s, e', hext.trans hs, fun v hv => ?_, .inr ⟨List.cons_ne_nil _ _, ?_⟩, hflows, htrace⟩
      · rcases hentered v hv with hv | hv
        · exact hstay v (by simpa using hv)
        · exact .inr hv
      · rcases hbefore with ⟨rfl, rfl⟩ | ⟨-, helse⟩
        · rw [Draft.nextArm_trace]
          exact ⟨_, _, rfl⟩
        · exact helse

end Job

end FlowScript
