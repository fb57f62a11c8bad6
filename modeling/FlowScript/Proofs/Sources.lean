import FlowScript.Proofs.Regions

/-!
# Sources before their readers

A node is entered before its lines are written, because the nodes that it reads come first. What is
shown here is that nobody reads a node in between: as long as data edges do not run in circles, the
lines of a node are written before the lines of every node that reads it. What carries the
induction is the set of nodes that have been entered and not been written. The walks along data edges
add to it only nodes that what they still have to enter feeds; a value is computed ahead of a block
only if nothing in it reads the node that owns the block; and the flow is followed only when the set
is empty.
-/

namespace FlowScript

open Relation (ReflTransGen TransGen)

/-- In a trace, no line of a node stands after a line of a node that reads it. -/
def FlowGraph.SourcesFirst (g : FlowGraph) (trace : List Event) : Prop :=
  trace.Pairwise fun x y => ∀ n m, x.origin? = some n → y.origin? = some m → ¬ g.Feeds m n

/-- What holds while the nodes in `unwritten` have been entered and not been written. -/
structure Draft.Tidy (g : FlowGraph) (unwritten : Nat → Prop) (d : Draft) : Prop where
  entered : ∀ v, unwritten v → v ∈ d.entered
  /-- What a written node reads has been written. -/
  settled : ∀ x ∈ d.trace, ∀ n, x.origin? = some n → ∀ m, g.Feeds m n →
    m ∈ d.entered ∧ ¬ unwritten m
  ordered : g.SourcesFirst d.trace

namespace Draft.Tidy

variable {g : FlowGraph} {unwritten : Nat → Prop} {d e : Draft} {v : Nat}

/-- Steps that write no line of a node keep a draft tidy. -/
theorem silent {new : List Event} (h : Tidy g unwritten d) (hentered : e.entered = d.entered)
    (htrace : e.trace = d.trace ++ new) (hnew : ∀ x ∈ new, x.origin? = none) :
    Tidy g unwritten e where
  entered u hu := hentered ▸ h.entered u hu
  settled x hx n hn := by
    rw [htrace, List.mem_append] at hx
    rcases hx with hx | hx
    · exact hentered ▸ h.settled x hx n hn
    · rw [hnew x hx] at hn
      cases hn
  ordered := by
    rw [FlowGraph.SourcesFirst, htrace, List.pairwise_append]
    refine ⟨h.ordered, List.pairwise_of_forall_mem_list fun x hx y _ n m hn => ?_, ?_⟩
    · rw [hnew x hx] at hn
      cases hn
    · intro x _ y hy n m _ hm
      rw [hnew y hy] at hm
      cases hm

/-- A node that is entered is unwritten. -/
theorem enter (h : Tidy g unwritten d) (hnew : v ∉ d.entered) :
    Tidy g (fun u => unwritten u ∨ u = v) (d.enter v) := by
  have hsilent : ∀ x ∈ [Event.enter v], x.origin? = none := by simp [Event.origin?]
  refine ⟨fun u hu => ?_, fun x hx n hn m hm => ?_, ?_⟩
  · exact Draft.mem_enter.mpr (hu.imp_left (h.entered u))
  · rcases List.mem_append.mp hx with hx | hx
    · obtain ⟨hin, hwritten⟩ := h.settled x hx n hn m hm
      refine ⟨Draft.mem_enter.mpr (.inl hin), not_or.mpr ⟨hwritten, fun heq => ?_⟩⟩
      exact hnew (heq ▸ hin)
    · rw [hsilent x hx] at hn
      cases hn
  · have hold : Tidy g unwritten { d with trace := d.trace ++ [.enter v] } :=
      h.silent rfl rfl hsilent
    exact hold.ordered

/-- A node may be written when what it reads has been written. -/
theorem lines {own : List Event} {before : Nat → Prop} (h : Tidy g before d) (hv : before v)
    (hless : ∀ u, unwritten u → before u) (hself : ¬ g.Feeds v v)
    (hreads : ∀ m, g.Feeds m v → m ∈ d.entered ∧ ¬ unwritten m) (hentered : e.entered = d.entered)
    (htrace : e.trace = d.trace ++ own) (hown : ∀ x ∈ own, x.origin? = some v) :
    Tidy g unwritten e where
  entered u hu := hentered ▸ h.entered u (hless u hu)
  settled x hx n hn m hm := by
    rw [htrace, List.mem_append] at hx
    rcases hx with hx | hx
    · obtain ⟨hin, hwritten⟩ := h.settled x hx n hn m hm
      exact ⟨hentered ▸ hin, fun hm => hwritten (hless m hm)⟩
    · rw [hown x hx] at hn
      obtain rfl := Option.some.inj hn
      exact hentered ▸ hreads m hm
  ordered := by
    rw [FlowGraph.SourcesFirst, htrace, List.pairwise_append]
    refine ⟨h.ordered, List.pairwise_of_forall_mem_list fun x hx y hy n m hn hm => ?_, ?_⟩
    · rw [hown x hx] at hn
      rw [hown y hy] at hm
      obtain rfl := Option.some.inj hn
      obtain rfl := Option.some.inj hm
      exact hself
    · intro x hx y hy n m hn hm hfeeds
      rw [hown y hy] at hm
      obtain rfl := Option.some.inj hm
      exact (h.settled x hx n hn v hfeeds).2 hv

end Draft.Tidy

namespace Job

variable {job : Job} {unwritten : Nat → Prop} {d e : Draft} {u v : Nat}

/-- One of the nodes that entering `v` still has to enter, found along data edges. -/
def Awaits (job : Job) (d : Draft) (v u : Nat) : Prop :=
  ReflTransGen (fun a b => job.graph.Feeds b a ∧ b ∉ d.entered) v u

/-- Nothing that entering a node still has to enter reads an unwritten node. -/
def Clear (job : Job) (unwritten : Nat → Prop) (d : Draft) (v : Nat) : Prop :=
  ∀ u, job.Awaits d v u → ∀ m, job.graph.Feeds m u → ¬ unwritten m

/-- What a node still has to enter feeds it. -/
theorem Awaits.feeds (h : job.Awaits d v u) : ReflTransGen job.graph.Feeds u v := by
  induction h with
  | refl => exact .refl
  | tail _ hlast ih => exact ih.head hlast.1

/-- With more nodes entered there is less to enter. -/
theorem Awaits.mono (h : job.Awaits e v u) (hsubset : d.entered ⊆ e.entered) :
    job.Awaits d v u := by
  induction h with
  | refl => exact .refl
  | tail _ hlast ih => exact ih.tail ⟨hlast.1, fun hin => hlast.2 (hsubset hin)⟩

/-- What reads no unwritten node still reads none when more nodes have been entered. -/
theorem Clear.mono (h : job.Clear unwritten d v) (hsubset : d.entered ⊆ e.entered) :
    job.Clear unwritten e v :=
  fun u hu => h u (hu.mono hsubset)

/-- A node that is entered stays unread while what it reads is entered. -/
theorem Clear.enter (hacyclic : ∀ v, ¬ TransGen job.graph.Feeds v v)
    (h : job.Clear unwritten d v) (hu : job.graph.Feeds u v) (hnew : u ∉ d.entered) :
    job.Clear (fun w => unwritten w ∨ w = v) (d.enter v) u := by
  intro w hw m hm hopen
  have hsame : job.Awaits d u w := hw.mono (List.subset_append_left _ _)
  have hawaits : job.Awaits d v w := hsame.head ⟨hu, hnew⟩
  rcases hopen with hopen | rfl
  · exact h w hawaits m hm hopen
  · exact hacyclic m (TransGen.head' hm hawaits.feeds)

/-- What a value that may be computed ahead of a block still has to enter reads neither the owner of
the block nor, of what has not been entered, a node of the flow of execution. -/
theorem reads_of_hoistable (hg : job.graph.WellFormed) {owner : Nat}
    (hv : job.hoistable d owner v = true) (hu : job.Awaits d v u) :
    ∀ w, job.graph.Feeds w u → w ≠ owner ∧ (w ∈ d.entered ∨ job.graph.isDataOnly w = true) := by
  let admits (u : Nat) : Bool := u != owner && !d.entered.contains u && job.graph.isDataOnly u
  let pending := reach job.graph.size job.graph.dependencies admits (job.graph.dependencies v)
  have hin (u : Nat) : ∀ w ∈ job.graph.dependencies u, w < job.graph.size := fun w hw =>
    (hg.feeds_lt (FlowGraph.mem_dependencies.mp hw)).1
  have hpending (u : Nat) : u ∈ pending ↔
      Reachable job.graph.dependencies admits (job.graph.dependencies v) u :=
    mem_reach (fun u _ => hin u) (hin v) u
  have hall : ∀ u ∈ v :: pending, ∀ w, job.graph.Feeds w u →
      w ≠ owner ∧ (w ∈ d.entered ∨ job.graph.isDataOnly w = true) := by
    intro u hu w hw
    have hread := List.all_eq_true.mp (List.all_eq_true.mp hv u hu) w
      (FlowGraph.mem_dependencies.mpr hw)
    simpa using hread
  have hawaits : u ∈ v :: pending := by
    induction hu with
    | refl => exact List.mem_cons_self
    | @tail b c _ hlast ih =>
      obtain ⟨hfeeds, hnew⟩ := hlast
      obtain ⟨howner, hdata⟩ := hall b ih c hfeeds
      have hadmits : admits c = true := by
        simp [admits, howner, hnew, hdata.resolve_left hnew]
      have hdep : c ∈ job.graph.dependencies b := FlowGraph.mem_dependencies.mpr hfeeds
      refine List.mem_cons_of_mem _ ((hpending c).mpr ?_)
      rcases List.mem_cons.mp ih with rfl | hb
      · exact ⟨c, hdep, hadmits, .refl⟩
      · exact ((hpending b).mp hb).tail hdep hadmits
  exact hall u hawaits

/-- A value that may be computed ahead of a block does not read the owner of the block. -/
theorem clear_of_hoistable (hg : job.graph.WellFormed) {owner : Nat}
    (hunwritten : ∀ u, unwritten u → u = owner) (hv : job.hoistable d owner v = true) :
    job.Clear unwritten d v :=
  fun _ hu m hm hopen => (reads_of_hoistable hg hv hu m hm).1 (hunwritten m hopen)

end Job

/-- When a piece of work may be done while some nodes are unwritten. -/
def Task.Safe (job : Job) (unwritten : Nat → Prop) (d : Draft) : Task → Prop
  | .value v => v ∉ d.entered → job.Clear unwritten d v
  | .values vs => ∀ v ∈ vs, v ∉ d.entered → job.Clear unwritten d v
  | .hoists owner _ _ => ∀ u, unwritten u → u = owner
  | .flow _ | .flows _ | .arms _ _ => ∀ u, ¬ unwritten u
  | .block owner _ => (∀ u, unwritten u ↔ u = owner) ∧ ∀ m, job.graph.Feeds m owner → m ∈ d.entered

/-- The nodes that are unwritten after a piece of work. -/
def Task.leaves (unwritten : Nat → Prop) : Task → Nat → Prop
  | .block _ _ => fun _ => False
  | _ => unwritten

namespace Job

variable {job : Job} {unwritten : Nat → Prop} {d e : Draft} {v : Nat}

/-- The lines of a node that waited for what it reads. -/
theorem tidy_writeGuarded (hacyclic : ∀ v, ¬ TransGen job.graph.Feeds v v)
    (h : Draft.Tidy job.graph (fun u => unwritten u ∨ u = v) d)
    (hreads : ∀ m, job.graph.Feeds m v → m ∈ d.entered ∧ ¬ unwritten m) :
    Draft.Tidy job.graph unwritten (job.writeGuarded d v) := by
  have hwrites := writeGuarded_writes job d v
  obtain ⟨own, htrace, hown⟩ := hwrites.trace
  exact h.lines (.inr rfl) (fun _ => Or.inl) (fun hself => hacyclic v (.single hself)) hreads
    hwrites.entered htrace hown

/-- Every piece of work that is safe keeps a draft tidy. -/
theorem Emits.tidy (hg : job.graph.WellFormed) (hacyclic : ∀ v, ¬ TransGen job.graph.Feeds v v)
    {t : Task} (h : Emits job t d e) (hd : Draft.Tidy job.graph unwritten d)
    (hsafe : t.Safe job unwritten d) : Draft.Tidy job.graph (t.leaves unwritten) e := by
  -- entering a node, and then all that it reads
  have hread {unwritten : Nat → Prop} {d e : Draft} {v : Nat} (hnew : v ∉ d.entered)
      (hclear : job.Clear unwritten d v) (hd : Draft.Tidy job.graph unwritten d)
      (hdeps : Emits job (.values (job.graph.dependencies v)) (d.enter v) e)
      (ih : Draft.Tidy job.graph (fun u => unwritten u ∨ u = v) (d.enter v) →
        (Task.values (job.graph.dependencies v)).Safe job (fun u => unwritten u ∨ u = v)
          (d.enter v) →
        Draft.Tidy job.graph (fun u => unwritten u ∨ u = v) e) :
      Draft.Tidy job.graph (fun u => unwritten u ∨ u = v) e ∧
        ∀ m, job.graph.Feeds m v → m ∈ e.entered ∧ ¬ unwritten m := by
    refine ⟨ih (hd.enter hnew) fun u hu hunew => ?_, fun m hm => ⟨?_, hclear v .refl m hm⟩⟩
    · refine hclear.enter hacyclic (FlowGraph.mem_dependencies.mp hu) fun hin => hunew ?_
      exact Draft.mem_enter.mpr (.inl hin)
    · exact hdeps.values_mem m (FlowGraph.mem_dependencies.mpr hm)
  induction h generalizing unwritten with
  | value_skip | values_nil | hoists_nil | flow_skip | flows_nil | arms_nil => exact hd
  | @value_enter v d e hnew hdeps ih =>
    obtain ⟨hopen, hreads⟩ := hread hnew (hsafe hnew) hd hdeps ih
    have hwritten := tidy_writeGuarded hacyclic hopen hreads
    change Draft.Tidy job.graph unwritten (job.writeAlone v e)
    rw [writeAlone]
    split
    · exact hwritten.silent rfl (by simp [Draft.closeArm, Draft.write, Draft.openArm]; rfl)
        (by simp [Event.origin?])
    · exact hwritten
  | values_cons hfirst _ ih ih' =>
    refine ih' (ih hd (hsafe _ List.mem_cons_self)) fun u hu hnew => ?_
    exact (hsafe u (List.mem_cons_of_mem _ hu) fun hin => hnew (hfirst.extends.subset hin)).mono
      hfirst.extends.subset
  | hoists_take _ hhoistable _ _ ih ih' =>
    exact ih' (ih hd fun _ => clear_of_hoistable hg hsafe hhoistable) hsafe
  | hoists_leave _ _ ih => exact ih hd hsafe
  | @flow_plain v d e f _ hnew hdeps _ _ _ ihDeps ih =>
    obtain ⟨hopen, hreads⟩ := hread hnew (fun _ _ m _ => hsafe m) hd hdeps ihDeps
    exact ih (tidy_writeGuarded hacyclic hopen hreads) hsafe
  | @flow_scope v d e f _ hnew hdeps _ _ _ ihDeps ih =>
    obtain ⟨hopen, hreads⟩ := hread hnew (fun _ _ m _ => hsafe m) hd hdeps ihDeps
    exact ih (tidy_writeGuarded hacyclic hopen hreads) hsafe
  | @flow_block v d e b s f _ hnew hdeps hblock _ ihDeps ih =>
    obtain rfl : unwritten = fun _ => False := by
      funext u
      simpa using hsafe u
    obtain ⟨hopen, hreads⟩ := hread hnew (fun _ _ m _ => hsafe m) hd hdeps ihDeps
    have halike := block?_alike hblock
    refine ih (hopen.silent halike.entered (halike.trace.trans (List.append_nil _).symm) (by simp))
      ⟨by simp, fun m hm => ?_⟩
    exact halike.entered ▸ (hreads m hm).1
  | @block owner b d e f h i hhoists _ _ _ ihHoists ihArms ihRest ihHeld =>
    obtain ⟨howner, hreads⟩ := hsafe
    have hnone : ∀ u : Nat, ¬ False := fun _ => id
    have hbefore := ihHoists hd fun u => (howner u).mp
    have hheader : Draft.Tidy job.graph (fun _ => False)
        ((e.hold (job.held d b)).write (some owner) b.header) := by
      refine hbefore.lines ((howner owner).mpr rfl) (fun _ => False.elim)
        (fun hself => hacyclic owner (.single hself)) (fun m hm => ⟨?_, id⟩) rfl rfl
        (by simp [Event.origin?])
      exact hhoists.extends.subset (hreads m hm)
    have hafter : Draft.Tidy job.graph (fun _ => False) (f.letGo (job.held d b)) :=
      (ihArms hheader hnone).silent rfl (List.append_nil _).symm (by simp)
    exact ihHeld (ihRest hafter hnone) hnone
  | flows_cons _ _ ih ih' => exact ih' (ih hd hsafe) hsafe
  | @arms_cons owner arm targets rest d e f _ _ ihArm ihRest =>
    have hfilled := ihArm (hd.silent rfl rfl (by simp [Event.origin?])) hsafe
    obtain ⟨pass, htrace, hpass⟩ := Draft.endArm_trace owner arm (d.openArm owner arm) e
    have hended : Draft.Tidy job.graph unwritten ((d.openArm owner arm).endArm owner arm e) := by
      rw [List.append_assoc] at htrace
      refine hfilled.silent (Draft.endArm_entered ..) htrace fun x hx => ?_
      rcases List.mem_append.mp hx with hx | hx
      · rw [hpass x hx]
        rfl
      · rw [List.mem_singleton.mp hx]
        rfl
    refine ihRest (hended.silent (Draft.nextArm_entered ..) (Draft.nextArm_trace ..) ?_) hsafe
    split <;> simp [Event.origin?]

end Job

end FlowScript
