import FlowScript.Proofs.Control
import FlowScript.Proofs.Turns

/-!
# The headers of conditionals and loops

A conditional or a loop can be entered in two ways. The flow of execution makes it a block, with one
header. A node that reads it enters it as a value, and then it becomes no block: what it controls is
left to the flow, and its header is missing. When the flow comes to a node, every node that has been
entered has had what it reads entered as well. So the header is there exactly if the conditional or
the loop is entered before all other nodes that read it.
-/

namespace FlowScript

/-- The only line of a node announces an arm, and the arm is opened right after it. -/
def Headed (c : Nat) (arm : Arm) (trace : List Event) : Prop :=
  ∃ before header after, trace = before ++ header :: .opened c arm :: after ∧
    IsHeader c arm header ∧ ownLines trace c = [header]

/-- The arm that the header of a conditional or a loop announces. -/
def Kind.headed? : Kind → Option Arm
  | .conditional => some .thenArm
  | .loop => some .loopBody
  | _ => none

/-- A node has become no block: no arm of it has been opened, but for a scope of its pattern. -/
def Unopened (c : Nat) (trace : List Event) : Prop :=
  ∀ arm, arm ≠ .scope → .opened c arm ∉ trace

/-- What happens from `d` to `e` is not for the node: the node is not entered, no line of it is
written, and no arm of it is opened or closed. -/
structure Draft.Spares (c : Nat) (d e : Draft) : Prop where
  entered : d.entered <+: e.entered
  node : c ∈ e.entered → c ∈ d.entered
  trace : ∃ new, e.trace = d.trace ++ new ∧ ∀ x ∈ new, x.origin? ≠ some c ∧ x.owner? ≠ some c

namespace Draft.Spares

variable {c u : Nat} {d e f : Draft}

/-- Nothing is entered. -/
theorem of_trace {new : List Event} (hentered : e.entered = d.entered)
    (htrace : e.trace = d.trace ++ new)
    (hnew : ∀ x ∈ new, x.origin? ≠ some c ∧ x.owner? ≠ some c) : Spares c d e :=
  ⟨hentered ▸ List.prefix_refl _, (hentered ▸ ·), new, htrace, hnew⟩

/-- Work after work. -/
theorem trans (h : Spares c d e) (h' : Spares c e f) : Spares c d f := by
  obtain ⟨new, htrace, hnew⟩ := h.trace
  obtain ⟨new', htrace', hnew'⟩ := h'.trace
  refine ⟨h.entered.trans h'.entered, h.node ∘ h'.node, new ++ new', ?_, fun x hx => ?_⟩
  · rw [htrace', htrace, List.append_assoc]
  · exact (List.mem_append.mp hx).elim (hnew x) (hnew' x)

/-- Nothing is written or entered. -/
theorem of_alike (h : Alike d e) : Spares c d e :=
  of_trace h.entered (h.trace.trans (List.append_nil _).symm) (by simp)

/-- Another node is entered. -/
theorem enter (hne : u ≠ c) (d : Draft) : Spares c d (d.enter u) where
  entered := List.prefix_append _ _
  node hin := (mem_enter.mp hin).resolve_right (Ne.symm hne)
  trace := ⟨_, rfl, by simp [Event.origin?, Event.owner?]⟩

/-- Another node writes its lines. -/
theorem of_writes {job : Job} (h : Writes job u d e) (hne : u ≠ c) : Spares c d e := by
  obtain ⟨own, htrace, hown⟩ := h.trace
  refine of_trace h.entered htrace fun x hx => ⟨?_, ?_⟩
  · simpa [hown x hx] using hne
  · simp [Event.owner?_of_origin? (hown x hx)]

/-- Another node writes its header, with some nodes held back. -/
theorem header (hne : u ≠ c) (d : Draft) (held : List Nat) (text : String) :
    Spares c d ((d.hold held).write (some u) text) :=
  of_trace rfl rfl (by simpa [Event.origin?, Event.owner?] using hne)

/-- An arm of another node is opened. -/
theorem openArm (hne : u ≠ c) (d : Draft) (arm : Arm) : Spares c d (d.openArm u arm) :=
  of_trace rfl rfl (by simpa [Event.origin?, Event.owner?] using hne)

/-- An arm of another node is closed and the next one announced. -/
theorem endArm (hne : u ≠ c) (arm : Arm) (rest : List (Arm × List Nat)) (d e : Draft) :
    Spares c e ((d.endArm u arm e).nextArm rest) := by
  obtain ⟨pass, hended, hpass⟩ := endArm_trace u arm d e
  have hclosed : Spares c e (d.endArm u arm e) := by
    refine of_trace (endArm_entered u arm d e) (hended.trans (List.append_assoc ..)) fun x hx => ?_
    rcases List.mem_append.mp hx with hx | hx
    · simp [hpass x hx, Event.origin?, Event.owner?]
    · simpa [List.mem_singleton.mp hx, Event.origin?, Event.owner?] using hne
  refine hclosed.trans (of_trace (nextArm_entered rest _) (nextArm_trace rest _) ?_)
  split <;> simp [Event.origin?, Event.owner?]

/-- No line of the node is added. -/
theorem ownLines_eq (h : Spares c d e) : ownLines e.trace c = ownLines d.trace c := by
  obtain ⟨new, htrace, hnew⟩ := h.trace
  have hnone : ownLines new c = [] :=
    List.filter_eq_nil_iff.mpr fun x hx => by simpa using (hnew x hx).1
  rw [htrace, ownLines, List.filter_append]
  exact (congrArg _ hnone).trans (List.append_nil _)

/-- No arm of the node is opened. -/
theorem unopened (h : Spares c d e) (hd : Unopened c d.trace) : Unopened c e.trace := by
  obtain ⟨new, htrace, hnew⟩ := h.trace
  intro arm harm hin
  rw [htrace, List.mem_append] at hin
  rcases hin with hin | hin
  · exact hd arm harm hin
  · exact (hnew _ hin).2 rfl

/-- The header of the node stays the only one. -/
theorem headed {arm : Arm} (h : Spares c d e) (hd : Headed c arm d.trace) :
    Headed c arm e.trace := by
  have hown := h.ownLines_eq
  obtain ⟨new, htrace, -⟩ := h.trace
  obtain ⟨before, header, after, hsplit, hheader, honly⟩ := hd
  refine ⟨before, header, after ++ new, ?_, hheader, hown.trans honly⟩
  rw [htrace, hsplit, List.append_assoc, List.cons_append, List.cons_append]

end Draft.Spares

/-- What follows a node in a list comes after the part in front of the node. -/
theorem mem_of_pair_sublist {c m : Nat} {front back : List Nat} (hc : c ∉ front)
    (h : [c, m].Sublist (front ++ back)) : m ∈ back := by
  obtain ⟨xs, ys, hsplit, hxs, hys⟩ := List.sublist_append_iff.mp h
  cases xs with
  | nil => exact hys.subset (by simp [← show [c, m] = ys from hsplit])
  | cons x xs =>
    obtain ⟨rfl, -⟩ := List.cons.inj hsplit
    exact absurd (hxs.subset List.mem_cons_self) hc

namespace Job

variable {job : Job} {c : Nat} {arm : Arm} {d e f : Draft} {t : Task} {u v : Nat}

/-- When a piece of work is done, what the nodes read that it entered has been entered too. -/
theorem Emits.reads (h : Emits job t d e) :
    ∀ m ∈ e.entered, m ∉ d.entered → ∀ u, job.graph.Feeds u m → u ∈ e.entered := by
  -- a node is entered, then what it reads
  have hread {v : Nat} {d e : Draft}
      (hdeps : Emits job (.values (job.graph.dependencies v)) (d.enter v) e)
      (ih : ∀ m ∈ e.entered, m ∉ (d.enter v).entered → ∀ u, job.graph.Feeds u m → u ∈ e.entered) :
      ∀ m ∈ e.entered, m ∉ d.entered → ∀ u, job.graph.Feeds u m → u ∈ e.entered := by
    intro m hm hnew u hu
    by_cases hv : m = v
    · exact hdeps.values_mem u (FlowGraph.mem_dependencies.mpr (hv ▸ hu))
    · exact ih m hm (fun hin => (Draft.mem_enter.mp hin).elim hnew hv) u hu
  -- one piece of work after another
  have hthen {d e f : Draft} (hext : e.entered ⊆ f.entered)
      (ih : ∀ m ∈ e.entered, m ∉ d.entered → ∀ u, job.graph.Feeds u m → u ∈ e.entered)
      (ih' : ∀ m ∈ f.entered, m ∉ e.entered → ∀ u, job.graph.Feeds u m → u ∈ f.entered) :
      ∀ m ∈ f.entered, m ∉ d.entered → ∀ u, job.graph.Feeds u m → u ∈ f.entered := by
    intro m hm hnew u hu
    by_cases hin : m ∈ e.entered
    · exact hext (ih m hin hnew u hu)
    · exact ih' m hm hin u hu
  induction h with
  | value_skip | values_nil | hoists_nil | flow_skip | flows_nil | arms_nil =>
    exact fun m hm hnew => absurd hm hnew
  | value_enter _ hdeps ih => simpa using hread hdeps ih
  | values_cons _ hrest ih ih' | flows_cons _ hrest ih ih' => exact hthen hrest.extends.subset ih ih'
  | hoists_take _ _ _ hrest ih ih' => exact hthen hrest.extends.subset ih ih'
  | hoists_leave _ _ ih => exact ih
  | @flow_plain v d e f _ _ hdeps _ _ hnext ihDeps ih
  | @flow_scope v d e f _ _ hdeps _ _ hnext ihDeps ih =>
    have hwrites := (writeGuarded_writes job e v).entered
    exact hthen (hwrites ▸ hnext.extends.subset) (hread hdeps ihDeps) (hwrites ▸ ih)
  | @flow_block v d e b s f _ _ hdeps hblock hnext ihDeps ih =>
    have halike := (block?_alike hblock).entered
    exact hthen (halike ▸ hnext.extends.subset) (hread hdeps ihDeps) (halike ▸ ih)
  | block _ harms hrest hheld ihHoists ihArms ihRest ihHeld =>
    exact hthen hheld.extends.subset
      (hthen hrest.extends.subset (hthen harms.extends.subset ihHoists ihArms) ihRest) ihHeld
  | arms_cons _ hrest ihArm ihRest =>
    simp only [Draft.nextArm_entered, Draft.endArm_entered] at ihRest
    have hafter := hrest.extends.subset
    simp only [Draft.nextArm_entered, Draft.endArm_entered] at hafter
    exact hthen hafter ihArm ihRest

/-- Every node that has been entered and reads `c` has had `c` entered. -/
def ReadFirst (job : Job) (c : Nat) (d : Draft) : Prop :=
  ∀ m ∈ d.entered, job.graph.Feeds c m → c ∈ d.entered

/-- Work keeps what nodes read entered. -/
theorem ReadFirst.emits (hd : job.ReadFirst c d) (h : Emits job t d e) : job.ReadFirst c e := by
  intro m hm hfeeds
  by_cases hin : m ∈ d.entered
  · exact h.extends.subset (hd m hin hfeeds)
  · exact h.reads m hm hin c hfeeds

/-- A node is entered and then what it reads. -/
theorem ReadFirst.read (hd : job.ReadFirst c d)
    (h : Emits job (.values (job.graph.dependencies v)) (d.enter v) e) : job.ReadFirst c e := by
  intro m hm hfeeds
  by_cases hin : m ∈ (d.enter v).entered
  · rcases Draft.mem_enter.mp hin with hin | rfl
    · exact h.extends.subset (Draft.mem_enter.mpr (.inl (hd m hin hfeeds)))
    · exact h.values_mem c (FlowGraph.mem_dependencies.mpr hfeeds)
  · exact h.reads m hm hin c hfeeds

/-- Only what has been entered counts. -/
theorem ReadFirst.congr (hd : job.ReadFirst c d) (hentered : e.entered = d.entered) :
    job.ReadFirst c e := by
  rw [ReadFirst, hentered]
  exact hd

/-- What becomes of a conditional or a loop: it has not been entered; or a node that reads it was
entered before it, and it has become no block; or no such node was entered before it, and it has its
header. -/
inductive Fate (job : Job) (c : Nat) (arm : Arm) (d : Draft) : Prop where
  | pending : c ∉ d.entered → ownLines d.trace c = [] → Unopened c d.trace → Fate job c arm d
  | read {front back m} : d.entered = front ++ c :: back → m ∈ front → job.graph.Feeds c m →
      Unopened c d.trace → Fate job c arm d
  | heads {front back} : d.entered = front ++ c :: back → (∀ m ∈ front, ¬ job.graph.Feeds c m) →
      Headed c arm d.trace → Fate job c arm d

/-- What is not for the node leaves its fate alone. -/
theorem Fate.spares (h : Fate job c arm d) (hspares : Draft.Spares c d e) : Fate job c arm e := by
  obtain ⟨more, hmore⟩ := hspares.entered
  cases h with
  | pending hnew hown hopened =>
    exact .pending (hnew ∘ hspares.node) (hspares.ownLines_eq.trans hown)
      (hspares.unopened hopened)
  | @read front back m hentered hm hfeeds hopened =>
    have hlater : e.entered = front ++ c :: (back ++ more) := by
      rw [← hmore, hentered, List.append_assoc, List.cons_append]
    exact .read hlater hm hfeeds (hspares.unopened hopened)
  | @heads front back hentered hfront hheaded =>
    have hlater : e.entered = front ++ c :: (back ++ more) := by
      rw [← hmore, hentered, List.append_assoc, List.cons_append]
    exact .heads hlater hfront (hspares.headed hheaded)

/-- Work that is not for a node that has been entered spares it. -/
theorem Emits.spares (h : Emits job t d e) (hc : c ∈ d.entered) (ht : ¬ t.Owns c) :
    Draft.Spares c d e := by
  obtain ⟨more, hmore, -⟩ := h.extends.entered
  obtain ⟨new, htrace, hquiet⟩ := h.quiet hc ht
  have hown : ownLines e.trace c = ownLines d.trace c := by
    have htreats := h.treats (S := fun _ => True) (v := c) fun _ _ => trivial
    refine (htreats.treats fun b heq => ht ?_).ownLines_eq hc
    exact heq ▸ rfl
  refine ⟨hmore ▸ List.prefix_append _ _, fun _ => hc, new, htrace, fun x hx => ⟨?_, hquiet x hx⟩⟩
  rw [htrace, ownLines, List.filter_append] at hown
  have hnone := List.append_right_eq_self.mp hown
  simpa using List.filter_eq_nil_iff.mp hnone x hx

/-- A node that is written without becoming a block opens no arm but a scope. -/
theorem unopened_writeAlone (hd : Unopened c d.trace) (v : Nat) :
    Unopened c (job.writeAlone v d).trace := by
  intro arm harm hin
  obtain ⟨own, htrace, hown⟩ := (writeGuarded_writes job d v).trace
  have hwritten : .opened c arm ∉ (job.writeGuarded d v).trace := by
    rw [htrace, List.mem_append, not_or]
    exact ⟨hd arm harm, fun hin => nomatch hown _ hin⟩
  rw [writeAlone] at hin
  split at hin
  · simp only [Draft.closeArm, Draft.write, Draft.openArm, List.mem_append, List.mem_singleton,
      reduceCtorEq, or_false, Event.opened.injEq] at hin
    rcases hin with hin | ⟨-, hscope⟩
    · exact hwritten hin
    · exact harm hscope
  · exact hwritten hin

/-- Writing another node spares the node. -/
theorem writeAlone_spares (hne : v ≠ c) (d : Draft) : Draft.Spares c d (job.writeAlone v d) := by
  have hwritten := Draft.Spares.of_writes (writeGuarded_writes job d v) hne
  rw [writeAlone]
  split
  · refine (hwritten.trans (.openArm hne _ .scope)).trans ?_
    exact .of_trace rfl (List.append_assoc ..) (by simpa [Event.origin?, Event.owner?] using hne)
  · exact hwritten

/-- A conditional or a loop of the flow of execution, with the arm that its header announces. -/
structure Heading (job : Job) (c : Nat) (arm : Arm) : Prop where
  ports : job.graph.hasExecutionPorts c = true
  shape : ∀ d, ∃ b s targets rest, job.block? d c = some (b, s) ∧ b.arms = (arm, targets) :: rest ∧
    ∀ level, IsHeader c arm (.line (some c) level b.header)

/-- What must be the case before a piece of work: only a node that has been entered and reads `c`
makes `c` a value, and the flow goes on only when what has been entered has been read for. -/
def Heeds (job : Job) (c : Nat) (d : Draft) : Task → Prop
  | .value v => v = c → ∃ m ∈ d.entered, job.graph.Feeds c m
  | .values vs => c ∈ vs → ∃ m ∈ d.entered, job.graph.Feeds c m
  | .hoists _ needs _ => ∀ r ∈ needs, c ∉ r
  | .flow _ | .flows _ => job.ReadFirst c d
  | .arms owner _ | .block owner _ => owner ≠ c ∧ job.ReadFirst c d

/-- A node and what it reads: only the node itself can make `c` a value. -/
theorem heeds_dependencies (v : Nat) (d : Draft) :
    job.Heeds c (d.enter v) (.values (job.graph.dependencies v)) :=
  fun hc => ⟨v, Draft.mem_enter.mpr (.inr rfl), FlowGraph.mem_dependencies.mp hc⟩

/-- A block that a node has become writes the header of the node and opens the first arm. -/
theorem Emits.headed {b : Block} {targets : List Nat} {rest : List (Arm × List Nat)}
    (h : Emits job (.block c b) d e) (hc : c ∈ d.entered) (harms : b.arms = (arm, targets) :: rest)
    (hheader : ∀ level, IsHeader c arm (.line (some c) level b.header))
    (hown : ownLines d.trace c = []) : Headed c arm e.trace := by
  have htreats := h.treats (S := fun _ => True) (v := c) fun _ _ => trivial
  rw [TreatsIn, if_pos rfl, hown] at htreats
  have honly := htreats hc
  cases h with
  | @block _ _ _ s f _ _ hhoists hfilled hrest hheld =>
    rw [harms] at hfilled
    cases hfilled with
    | @arms_cons _ _ _ _ _ inside _ harm hothers =>
      have hlater := (Draft.trace_nextArm_endArm c arm rest _ inside).trans
        (hothers.extends.trace.trans (hrest.extends.trans hheld.extends).trace)
      obtain ⟨after, hafter⟩ := harm.extends.trace.trans hlater
      refine ⟨s.trace, _, after, ?_, hheader s.level, hhoists.extends.level ▸ honly⟩
      rw [← hafter]
      simp [Draft.openArm, Draft.write, Draft.hold]

/-- A node that reads `c` enters it as a value, and then it becomes no block. -/
theorem fate_of_value {m : Nat}
    (hdeps : Emits job (.values (job.graph.dependencies c)) (d.enter c) e)
    (hopened : Unopened c d.trace) (hm : m ∈ d.entered) (hfeeds : job.graph.Feeds c m) :
    Fate job c arm (job.writeAlone c e) := by
  have hspares : Draft.Spares c (d.enter c) e :=
    hdeps.spares (Draft.mem_enter.mpr (.inr rfl)) id
  obtain ⟨more, hmore⟩ := hspares.entered
  have hentered : (job.writeAlone c e).entered = d.entered ++ c :: more := by
    rw [writeAlone_entered, ← hmore]
    simp [Draft.enter]
  have hbefore : Unopened c (d.enter c).trace := by
    intro other hother
    simpa [Draft.enter] using hopened other hother
  exact .read hentered hm hfeeds (unopened_writeAlone (hspares.unopened hbefore) c)

/-- Where the flow comes to `c`, no node that reads it has been entered, and it has its header. -/
theorem Heading.fate_of_flow (hc : job.Heading c arm) (hnew : c ∉ d.entered)
    (hfirst : job.ReadFirst c d) (hown : ownLines d.trace c = [])
    (hdeps : Emits job (.values (job.graph.dependencies c)) (d.enter c) e) {b : Block} {s : Draft}
    (hblock : job.block? e c = some (b, s)) (hnext : Emits job (.block c b) s f) :
    Fate job c arm f := by
  have hin : c ∈ (d.enter c).entered := Draft.mem_enter.mpr (.inr rfl)
  have hspares : Draft.Spares c (d.enter c) s :=
    (hdeps.spares hin id).trans (.of_alike (block?_alike hblock))
  obtain ⟨more, hmore, -⟩ := hnext.extends.entered
  obtain ⟨read, hread⟩ := hspares.entered
  have hentered : f.entered = d.entered ++ c :: (read ++ more) := by
    rw [hmore, ← hread]
    simp [Draft.enter]
  have hownRead : ownLines s.trace c = [] := by
    rw [hspares.ownLines_eq]
    simpa [ownLines, Draft.enter, Event.origin?] using hown
  obtain ⟨b', s', targets, rest, hblock', harms, hheader⟩ := hc.shape e
  obtain ⟨rfl, rfl⟩ := Prod.mk.inj (Option.some.inj (hblock.symm.trans hblock'))
  exact .heads hentered (fun m hm hfeeds => hnew (hfirst m hm hfeeds))
    (hnext.headed (hspares.entered.subset hin) harms hheader hownRead)

/-- Work that heeds what reads `c` decides the fate of `c`. -/
theorem Heading.emits (hc : job.Heading c arm) (h : Emits job t d e) (ht : job.Heeds c d t)
    (hd : Fate job c arm d) : Fate job c arm e := by
  induction h with
  | value_skip | values_nil | hoists_nil | flow_skip | flows_nil | arms_nil => exact hd
  | @value_enter v d e hnew hdeps ih =>
    by_cases hv : v = c
    · subst hv
      obtain ⟨m, hm, hfeeds⟩ := ht rfl
      cases hd with
      | pending _ _ hopened => exact fate_of_value hdeps hopened hm hfeeds
      | read hentered | heads hentered => exact absurd (by simp [hentered]) hnew
    · exact (ih (heeds_dependencies v d) (hd.spares (.enter hv d))).spares (writeAlone_spares hv e)
  | @values_cons v vs d e f hfirst hrest ih ih' =>
    refine ih' (fun hin => ?_) (ih (fun heq => ht (heq ▸ List.mem_cons_self)) hd)
    obtain ⟨m, hm, hfeeds⟩ := ht (List.mem_cons_of_mem _ hin)
    exact ⟨m, hfirst.extends.subset hm, hfeeds⟩
  | @hoists_take owner needs v vs d e f hshared _ _ _ ih ih' =>
    refine ih' ht (ih (fun heq => ?_) hd)
    obtain ⟨r, hr, hv⟩ := exists_of_shared hshared
    exact absurd (heq ▸ hv) (ht r hr)
  | hoists_leave _ _ ih => exact ih ht hd
  | @flow_plain v d e f hfree hnew hdeps hnone hscope hnext ihDeps ih =>
    by_cases hv : v = c
    · subst hv
      obtain ⟨b, s, -, -, hblock, -⟩ := hc.shape e
      cases hnone.symm.trans hblock
    · have hwrites := writeGuarded_writes job e v
      refine ih ((ht.read hdeps).congr hwrites.entered) ?_
      exact (ihDeps (heeds_dependencies v d) (hd.spares (.enter hv d))).spares (.of_writes hwrites hv)
  | @flow_scope v d e f hfree hnew hdeps hnone hscope hnext ihDeps ih =>
    by_cases hv : v = c
    · subst hv
      obtain ⟨b, s, -, -, hblock, -⟩ := hc.shape e
      cases hnone.symm.trans hblock
    · have hwrites := writeGuarded_writes job e v
      refine ih ⟨hv, (ht.read hdeps).congr hwrites.entered⟩ ?_
      exact (ihDeps (heeds_dependencies v d) (hd.spares (.enter hv d))).spares (.of_writes hwrites hv)
  | @flow_block v d e b s f hfree hnew hdeps hblock hnext ihDeps ih =>
    have halike := block?_alike hblock
    by_cases hv : v = c
    · subst hv
      cases hd with
      | pending _ hown => exact hc.fate_of_flow hnew ht hown hdeps hblock hnext
      | read hentered | heads hentered => exact absurd (by simp [hentered]) hnew
    · refine ih ⟨hv, (ht.read hdeps).congr halike.entered⟩ ?_
      exact (ihDeps (heeds_dependencies v d) (hd.spares (.enter hv d))).spares (.of_alike halike)
  | @block owner b d e f g i hhoists harms hrest _ ihHoists ihArms ihRest ihHeld =>
    obtain ⟨howner, hfirst⟩ := ht
    have hneeds : ∀ r ∈ job.regionNeeds d b, c ∉ r := by
      intro r hr hin
      have hdata := regionNeeds_isDataOnly r hr c hin
      rw [FlowGraph.isDataOnly_of_ports hc.ports] at hdata
      cases hdata
    have hbefore : job.ReadFirst c ((e.hold (job.held d b)).write (some owner) b.header) :=
      (hfirst.emits hhoists).congr rfl
    have hinside : job.ReadFirst c (f.letGo (job.held d b)) := (hbefore.emits harms).congr rfl
    have hfilled : Fate job c arm f := by
      refine ihArms ⟨howner, hbefore⟩ ?_
      exact (ihHoists hneeds hd).spares (.header howner e _ b.header)
    have hletGo : Fate job c arm (f.letGo (job.held d b)) :=
      hfilled.spares (.of_trace rfl (List.append_nil _).symm (by simp))
    exact ihHeld (hinside.emits hrest) (ihRest hinside hletGo)
  | @flows_cons v vs d e f hfirst _ ih ih' => exact ih' (ht.emits hfirst) (ih ht hd)
  | @arms_cons owner x targets rest d e f harm _ ihArm ihRest =>
    obtain ⟨howner, hfirst⟩ := ht
    have hopen : job.ReadFirst c (d.openArm owner x) := hfirst.congr rfl
    have hfilled := ihArm hopen (hd.spares (.openArm howner d x))
    refine ihRest ⟨howner, (hopen.emits harm).congr (by simp)⟩ ?_
    exact hfilled.spares (.endArm howner x rest _ e)

/-- A conditional or a loop with an input becomes a block whenever the flow comes to it. -/
theorem heading_of_node {n : Node} (hnode : job.graph.node? c = some n)
    (hkind : n.kind.headed? = some arm) (hinputs : n.inputs ≠ [])
    (hports : job.graph.hasExecutionPorts c = true) : job.Heading c arm where
  ports := hports
  shape d := by
    cases hn : n.kind with
    | conditional =>
      obtain ⟨b, s, hblock, hcond⟩ := exists_conditionalBlock hnode hn hinputs d
      obtain ⟨p, -, hheader, ⟨harms, -⟩, -⟩ := conditionalBlock?_eq_some hcond
      obtain rfl : Arm.thenArm = arm := Option.some.inj (by rwa [hn] at hkind)
      exact ⟨b, s, _, _, hblock, harms, fun level => ⟨level, _, by rw [hheader]⟩⟩
    | loop =>
      obtain ⟨b, s, hblock, hloop⟩ := exists_loopBlock hnode hn hinputs d
      obtain ⟨name, collection, -, hheader, harms, -⟩ := loopBlock?_eq_some hloop
      obtain rfl : Arm.loopBody = arm := Option.some.inj (by rwa [hn] at hkind)
      exact ⟨b, s, _, _, hblock, harms, fun level => ⟨level, _, _, by rw [hheader]⟩⟩
    | plain | input | output | start | finish => simp [hn, Kind.headed?] at hkind

/-- The work of a body with a flow of execution decides the fate of a conditional or a loop. -/
theorem Heading.performs (hc : job.Heading c arm) (hmode : job.mode = .execution)
    (h : Performs job job.bodyTasks d e) (hentered : d.entered = []) (htrace : d.trace = []) :
    Fate job c arm e := by
  have hstart : Fate job c arm d ∧ job.ReadFirst c d := by
    refine ⟨.pending (by simp [hentered]) (by simp [htrace, ownLines]) ?_, ?_⟩
    · simp [Unopened, htrace]
    · simp [ReadFirst, hentered]
  refine (h.keeps (P := fun d => Fate job c arm d ∧ job.ReadFirst c d)
    (fun t ht d e hemits hd => ⟨hc.emits hemits ?_ hd.1, hd.2.emits hemits⟩) hstart).1
  simp only [bodyTasks, hmode, List.mem_append, List.mem_flatMap, List.mem_singleton] at ht
  rcases ht with ⟨entry, -, ht⟩ | rfl
  · simp only [entryTasks, List.mem_cons, List.not_mem_nil, or_false] at ht
    rcases ht with rfl | rfl
    · -- the plain inputs take no part in the flow of execution
      intro hin
      have hdata : job.graph.hasExecutionPorts c = false :=
        dataOnly_of_isPlainInput (List.mem_filter.mp hin).2
      rw [hc.ports] at hdata
      cases hdata
    · exact hd.2
  · exact hd.2

end Job

namespace Generator

variable {σ : Type}

/-- With a flow of execution, a conditional or a loop of the flow that has an input is written with
exactly one header if it is entered before all other nodes that read it, and else with none: then it
becomes no block. -/
theorem header_iff_entered_before_readers (ask : PatternSource σ) (s : σ) (doc : Document)
    (settings : Settings) (conversions : Conversions) (known : List (String × Option Pattern))
    (c : Nat) (n : Node) (arm : Arm) (hmode : mode (.ofDocument doc) = .execution)
    (hnode : (FlowGraph.ofDocument doc).node? c = some n) (hkind : n.kind.headed? = some arm)
    (hinputs : n.inputs ≠ []) (hports : (FlowGraph.ofDocument doc).hasExecutionPorts c = true) :
    let gen : Generator := ⟨.ofDocument doc, settings, conversions, known⟩
    ∃ d, gen.rendering ask s = .ok d ∧
      (Headed c arm d.trace ↔ ∀ m, gen.graph.Feeds c m → m ≠ c → [c, m].Sublist (entries d.trace)) ∧
      (¬ Headed c arm d.trace → Unopened c d.trace) := by
  intro gen
  have hg : gen.graph.WellFormed := FlowGraph.ofDocument_wellFormed doc
  have hjob := fittedJob_wellFormed ask hg s
  obtain ⟨e, hperforms, hrendering⟩ := rendering_performs ask hg s
  have hfate := (@Job.heading_of_node (gen.fittedJob ask s) c arm n hnode hkind hinputs
    hports).performs hmode hperforms rfl rfl
  have hclosing : (gen.fittedJob ask s).closing e = e := by
    rw [Job.closing, show (gen.fittedJob ask s).mode = .execution from hmode]
  refine ⟨e, hclosing ▸ hrendering, ?_⟩
  have hmem {m : Nat} (hm : m < gen.graph.size) : m ∈ e.entered :=
    (hperforms.mem_entered_iff hjob rfl rfl).mpr hm
  obtain ⟨new, hnew, hnodup, -, hentries⟩ := hperforms.extends.entered
  have hentries : entries e.trace = e.entered := hentries.trans hnew.symm
  have hnodup : e.entered.Nodup := hnew ▸ hnodup
  rw [hentries]
  cases hfate with
  | pending hpending => exact absurd (hmem (List.getElem?_eq_some_iff.mp hnode).1) hpending
  | @read front back m hentered hm hfeeds hopened =>
    have hnone : ¬ Headed c arm e.trace := by
      rintro ⟨before, header, after, htrace, hheader, -⟩
      refine hopened arm ?_ (by simp [htrace])
      rintro rfl
      exact hheader
    refine ⟨iff_of_false hnone fun hall => ?_, fun _ => hopened⟩
    rw [hentered] at hnodup hall
    obtain ⟨-, hback, hdisjoint⟩ := List.nodup_append.mp hnodup
    exact hdisjoint m hm m (mem_of_pair_sublist (fun hc => hdisjoint c hc c List.mem_cons_self rfl)
      (hall m hfeeds fun heq => hdisjoint m hm c List.mem_cons_self heq)) rfl
  | @heads front back hentered hfront hheaded =>
    refine ⟨iff_of_true hheaded fun m hfeeds hne => ?_, fun hnone => absurd hheaded hnone⟩
    have hm : m ∈ front ++ c :: back := hentered ▸ hmem (hg.feeds_lt hfeeds).2
    rw [List.mem_append, List.mem_cons] at hm
    have hback : m ∈ back := (hm.resolve_left fun hin => hfront m hin hfeeds).resolve_left hne
    rw [hentered]
    exact ((List.singleton_sublist.mpr hback).cons_cons c).trans (List.sublist_append_right _ _)

/-- A loop with a node in its body that reads the variable of the loop. -/
def loopReading : Document where
  nodes :=
    [⟨"loop", "loop", none, some .loop, [⟨"items", "items", "array", false, none⟩],
        [⟨"item", "item", "any", false, none⟩], some true, [], [], none, none⟩,
      ⟨"show", "show", none, some .output, [⟨"in", "in", "any", false, none⟩], [], some true, [], [],
        none, none⟩]
  edges :=
    [⟨"e1", "loop", "show", none, none, some ⟨some .execution, some "body"⟩⟩,
      ⟨"d1", "loop", "show", some "item", some "in", none⟩]

/-- The node in the body reads the loop, but is entered after it, so that the loop has its header. -/
theorem loopReading_headed :
    let g := FlowGraph.ofDocument loopReading
    (mode g = .execution ∧ g.hasExecutionPorts 0 = true ∧ g.Feeds 0 1) ∧
    ∃ d, (Generator.new g .standard).rendering unanswered () = .ok d ∧
      Headed 0 .loopBody d.trace := by
  intro g
  have hfeeds : g.Feeds 0 1 :=
    ⟨⟨"d1", 0, 1, .data, "item", "in", none⟩, by decide, rfl, rfl, rfl⟩
  obtain ⟨d, hrendering, htrace⟩ : ∃ d, (Generator.new g .standard).rendering unanswered () = .ok d ∧
      d.trace = [.enter 0, .line (some 0) 0 "for loop_loop_item in []:", .opened 0 .loopBody,
        .enter 1, .line (some 1) 1 "return loop_loop_item", .closed 0 .loopBody] :=
    exists_rendering (by decide +kernel)
  obtain ⟨e, hrendering', hheaded, -⟩ := header_iff_entered_before_readers unanswered () loopReading
    .standard (.standard .standard) [] 0 _ .loopBody (by decide) rfl rfl (List.cons_ne_nil _ _)
    (by decide)
  obtain rfl : d = e := Except.ok.inj (hrendering.symm.trans hrendering')
  refine ⟨⟨by decide, by decide, hfeeds⟩, d, hrendering, hheaded.mpr ?_⟩
  have honly : ∀ e ∈ g.edges, e.kind = .data → e.target = 1 := by decide
  rintro m ⟨e, he, hkind, -, rfl⟩ -
  rw [honly e he hkind, htrace]
  decide

/-- A conditional that a node reads which the flow comes to earlier. -/
def earlyReading : Document where
  nodes :=
    [⟨"first", "first", none, some .plain, [], [], some true, [], [], none, none⟩,
      ⟨"show", "show", none, some .plain, [⟨"in", "in", "any", false, none⟩], [], some true, [], [],
        none, none⟩,
      ⟨"choice", "choice", none, some .conditional, [⟨"cond", "cond", "bool", false, none⟩],
        [⟨"result", "result", "bool", false, none⟩], some true, [], [], none, none⟩,
      ⟨"left", "left", none, some .plain, [], [], some true, [], [], none, none⟩,
      ⟨"right", "right", none, some .plain, [], [], some true, [], [], none, none⟩]
  edges :=
    [⟨"e1", "first", "show", none, none, some ⟨some .execution, none⟩⟩,
      ⟨"e2", "first", "choice", none, none, some ⟨some .execution, none⟩⟩,
      ⟨"d1", "choice", "show", some "result", some "in", none⟩,
      ⟨"e3", "choice", "left", none, none, some ⟨some .execution, some "then"⟩⟩,
      ⟨"e4", "choice", "right", none, none, some ⟨some .execution, some "else"⟩⟩]

/-- A conditional that is read before the flow comes to it loses its header, and both of its branches
are entered outside any block. -/
theorem earlyReading_unopened :
    let g := FlowGraph.ofDocument earlyReading
    mode g = .execution ∧ g.schedule.cycles = [] ∧
    ∃ d, (Generator.new g .standard).rendering unanswered () = .ok d ∧
      ownLines d.trace 2 = [] ∧ ∀ c arm, .opened c arm ∉ d.trace := by
  intro g
  obtain ⟨d, hrendering, htrace⟩ : ∃ d, (Generator.new g .standard).rendering unanswered () = .ok d ∧
      d.trace = [.enter 0, .enter 1, .enter 2, .enter 3, .enter 4] :=
    exists_rendering (by decide +kernel)
  refine ⟨by decide, by decide +kernel, d, hrendering, ?_, ?_⟩
  · rw [htrace]
    decide
  · simp [htrace]

end Generator

end FlowScript
