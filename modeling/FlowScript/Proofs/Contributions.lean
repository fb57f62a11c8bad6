import FlowScript.Proofs.Headers
import FlowScript.Proofs.Reading

/-!
# What a node contributes

A node whose pattern was found contributes the filled pattern, in one piece and once, and a node whose
pattern was not found contributes one comment, on whatever way the emission comes to the node. The
exception are conditionals and loops that become blocks: these contribute their header and nothing of
what was looked up. What has happened to a node is an account that all work keeps, and only the turn of
the node itself changes it.
-/

namespace FlowScript

open Relation (ReflTransGen)

/-- A node contributes some lines to a trace: they stand together after the trace of `w`, and there is
no other line of the node. -/
def Contributes (v : Nat) (w : Draft) (own trace : List Event) : Prop :=
  ∃ after, trace = w.trace ++ own ++ after ∧ ownLines w.trace v = [] ∧ ownLines after v = []

/-- A line that a node contributes is one of its lines. -/
theorem Contributes.mem_ownLines {v : Nat} {w : Draft} {own trace : List Event} {x : Event}
    (h : Contributes v w own trace) (hx : x ∈ own) (horigin : x.origin? = some v) :
    x ∈ ownLines trace v := by
  obtain ⟨after, rfl, -⟩ := h
  refine List.mem_filter.mpr ⟨?_, by simpa using horigin⟩
  exact List.mem_append_left _ (List.mem_append_right _ hx)

/-- An arm that a header announces is no scope of a pattern. -/
theorem IsHeader.ne_scope {c : Nat} {arm : Arm} {x : Event} (h : IsHeader c arm x) :
    arm ≠ .scope := by
  rintro rfl
  exact h

/-- A node with a header has become a block. -/
theorem Headed.not_unopened {c : Nat} {arm : Arm} {trace : List Event} (h : Headed c arm trace) :
    ¬ Unopened c trace := by
  obtain ⟨before, header, after, rfl, hheader, -⟩ := h
  exact fun hunopened => hunopened arm hheader.ne_scope (by simp)

/-- What is written after a trace without arms of a node, and has none itself. -/
theorem Unopened.append {c : Nat} {trace new : List Event} (h : Unopened c trace)
    (hnew : ∀ arm, arm ≠ .scope → .opened c arm ∉ new) : Unopened c (trace ++ new) := by
  intro arm harm hin
  exact (List.mem_append.mp hin).elim (h arm harm) (hnew arm harm)

/-- Lines of nodes open no arm. -/
theorem not_opened_of_origin {own : List Event} {u : Nat} (hown : ∀ x ∈ own, x.origin? = some u)
    (c : Nat) (arm : Arm) : .opened c arm ∉ own := by
  intro hin
  cases hown _ hin

namespace Job

variable {job : Job} {d e f start : Draft} {t : Task} {u v : Nat} {n : Node}

/-- The comment that stands for a node whose pattern is missing. -/
def placeholder (function : String) (n : Node) : String :=
  "# missing syntax pattern '" ++ function ++ "' for node '" ++ n.label ++ "' (" ++ n.id ++ ")"

/-- The lines of the pattern of a node, filled with its arguments. -/
def patternLines (job : Job) (w : Draft) (v : Nat) (n : Node) (p : Pattern) : List Event :=
  let text := (Template.fill p.text (n.inputs.map fun q => (job.argument w v n q).text)).text
  match p.kind with
  | .expression =>
    (Text.lines (job.nameOf v n ++ " = " ++ Text.trim text)).map (Draft.lineEvent (some v) w.level)
  | .statement =>
    (((Text.lines text).map Text.trim).filter fun l => !l.isEmpty).map (.line (some v) w.level)
  | .block => (Text.lines (Text.trimEnd text)).map (Draft.lineEvent (some v) w.level)

/-- Lines that are written one by one. -/
theorem foldl_write_trace (d : Draft) (v : Nat) (lines : List String) :
    (lines.foldl (fun d l => d.write (some v) l) d).trace =
      d.trace ++ lines.map (.line (some v) d.level) := by
  induction lines generalizing d with
  | nil => simp
  | cons l lines ih =>
    rw [List.foldl_cons, ih]
    simp [Draft.write]

/-- A node whose pattern was found writes the filled pattern. -/
theorem writeGuarded_of_pattern {p : Pattern} (hn : job.graph.node? v = some n)
    (hfitting : job.fitting v = .pattern p) (w : Draft) :
    (job.writeGuarded w v).trace = w.trace ++ job.patternLines w v n p := by
  simp only [writeGuarded, writeNode, node_eq_ok hn, hfitting, writePattern, writeFilled,
    patternLines, List.map_map, Function.comp_def]
  cases p.kind with
  | expression => rfl
  | statement => exact foldl_write_trace _ v _
  | block => rfl

/-- A node whose pattern is missing writes a comment. -/
theorem writeGuarded_of_missing {function : String} (hn : job.graph.node? v = some n)
    (hfitting : job.fitting v = .missing function) (w : Draft) :
    (job.writeGuarded w v).trace =
      w.trace ++ [.line (some v) w.level (placeholder function n)] := by
  simp only [writeGuarded, writeNode, node_eq_ok hn, hfitting]
  rfl

/-- A node that becomes a block is a conditional or a loop with an input, and the block opens the arm
that its header announces. -/
theorem block?_heading {b : Block} (h : job.block? d v = some (b, e)) :
    ∃ n arm targets rest, job.graph.node? v = some n ∧ n.kind.headed? = some arm ∧ n.inputs ≠ [] ∧
      b.arms = (arm, targets) :: rest ∧ ∀ level, IsHeader v arm (.line (some v) level b.header) := by
  obtain ⟨n, hn, ⟨hkind, hblock⟩ | ⟨hkind, hblock⟩⟩ := block?_eq_some h
  · obtain ⟨p, hp, hheader, ⟨harms, -⟩, -⟩ := conditionalBlock?_eq_some hblock
    have hinputs : n.inputs ≠ [] := List.ne_nil_of_mem (List.mem_of_head? hp)
    exact ⟨n, .thenArm, _, _, hn, by rw [hkind]; rfl, hinputs, harms,
      fun level => ⟨level, _, by rw [hheader]⟩⟩
  · obtain ⟨name, collection, hhead, hheader, harms, -⟩ := loopBlock?_eq_some hblock
    have hinputs : n.inputs ≠ [] := by
      intro hnone
      simp [loopHead?, hnone] at hhead
    exact ⟨n, .loopBody, _, _, hn, by rw [hkind]; rfl, hinputs, harms,
      fun level => ⟨level, _, _, by rw [hheader]⟩⟩

/-- What has happened to a node, in an emission that began with `start`: nothing yet; or it was
written in its turn, and became no block; or it became a block, with its header as its only line. -/
inductive Account (job : Job) (v : Nat) (start d : Draft) : Prop where
  | pending : v ∉ d.entered → ownLines d.trace v = [] → Unopened v d.trace → Account job v start d
  | written {w after} : v ∈ d.entered → ReflTransGen (Step job fun _ => True) start w →
      ownLines w.trace v = [] → d.trace = (job.writeGuarded w v).trace ++ after →
      ownLines after v = [] → Unopened v d.trace → Account job v start d
  | headed {n arm} : v ∈ d.entered → job.graph.node? v = some n → n.kind.headed? = some arm →
      n.inputs ≠ [] → Headed v arm d.trace → Account job v start d

/-- What is not for the node leaves its account alone. -/
theorem Account.spares (h : Account job v start d) (hspares : Draft.Spares v d e) :
    Account job v start e := by
  cases h with
  | pending hnew hown hunopened =>
    exact .pending (hnew ∘ hspares.node) (hspares.ownLines_eq.trans hown)
      (hspares.unopened hunopened)
  | written hin hsteps hbefore htrace hafter hunopened =>
    obtain ⟨new, hmore, hnew⟩ := hspares.trace
    refine .written (hspares.entered.subset hin) hsteps hbefore
      (by rw [hmore, htrace, List.append_assoc]) ?_ (hspares.unopened hunopened)
    have hnone : ownLines new v = [] :=
      List.filter_eq_nil_iff.mpr fun x hx => by simpa using (hnew x hx).1
    rw [ownLines, List.filter_append]
    exact List.append_eq_nil_iff.mpr ⟨hafter, hnone⟩
  | headed hin hnode hkind hinputs hheaded =>
    exact .headed (hspares.entered.subset hin) hnode hkind hinputs (hspares.headed hheaded)

/-- A node that is entered and written after all that it reads. -/
theorem account_of_lines (hreach : ReflTransGen (Step job fun _ => True) start d)
    (hnew : v ∉ d.entered) (hd : Account job v start d)
    (hdeps : Emits job (.values (job.graph.dependencies v)) (d.enter v) e)
    (after : List Event) (htrace : f.trace = (job.writeGuarded e v).trace ++ after)
    (hentered : f.entered = e.entered) (hafter : ownLines after v = [])
    (hopened : ∀ arm, arm ≠ .scope → .opened v arm ∉ after) : Account job v start f := by
  have hin : v ∈ (d.enter v).entered := Draft.mem_enter.mpr (.inr rfl)
  have hspares := hdeps.spares hin id
  cases hd with
  | written hentered | headed hentered => exact absurd hentered hnew
  | pending _ hown hunopened =>
    have hread : ReflTransGen (Step job fun _ => True) (d.enter v) e :=
      hdeps.steps fun _ _ => trivial
    have hbefore : ownLines e.trace v = [] := by
      rw [hspares.ownLines_eq]
      simpa [ownLines, Draft.enter, Event.origin?] using hown
    have hclosed : Unopened v e.trace :=
      hspares.unopened (hunopened.append (by simp))
    obtain ⟨own, hwritten, hlines⟩ := (writeGuarded_writes job e v).trace
    refine .written (hentered ▸ hspares.entered.subset hin)
      ((hreach.tail (.enter hnew)).trans hread) hbefore htrace hafter ?_
    rw [htrace, hwritten]
    exact (hclosed.append fun arm _ => not_opened_of_origin hlines v arm).append hopened

/-- What the scope of a pattern holds: no line of its node, and no arm of it that is no scope. -/
theorem Emits.scope_trace {targets : List Nat} (h : Emits job (.arms v [(.scope, targets)]) d e)
    (hv : v ∈ d.entered) : ∃ after, e.trace = d.trace ++ after ∧ ownLines after v = [] ∧
      ∀ arm, arm ≠ .scope → .opened v arm ∉ after := by
  cases h with
  | @arms_cons _ _ _ _ _ f _ hflows hnil =>
    cases hnil
    obtain ⟨inside, hinside, hspared⟩ := (hflows.spares hv id).trace
    obtain ⟨pass, hended, hpass⟩ := Draft.endArm_trace v .scope (d.openArm v .scope) f
    refine ⟨[.opened v .scope] ++ inside ++ pass ++ [.closed v .scope], ?_, ?_, ?_⟩
    · rw [Draft.nextArm_trace, hended, hinside]
      simp [Draft.openArm]
    · have hlines : ∀ x ∈ inside, x.origin? ≠ some v := fun x hx => (hspared x hx).1
      have hnone : ∀ x ∈ pass, x.origin? ≠ some v := fun x hx => by simp [hpass x hx, Event.origin?]
      simp only [ownLines, List.filter_eq_nil_iff, List.mem_append, List.mem_singleton]
      rintro x (((rfl | hx) | hx) | rfl)
      · simp [Event.origin?]
      · simpa using hlines x hx
      · simpa using hnone x hx
      · simp [Event.origin?]
    · intro arm harm hin
      simp only [List.mem_append, List.mem_singleton, Event.opened.injEq, true_and, reduceCtorEq,
        or_false] at hin
      rcases hin with (hin | hin) | hin
      · exact harm hin
      · exact (hspared _ hin).2 rfl
      · cases hpass _ hin

/-- A node that the flow comes to and that becomes a block. -/
theorem account_of_block {b : Block} {s : Draft} (hnew : v ∉ d.entered)
    (hd : Account job v start d)
    (hdeps : Emits job (.values (job.graph.dependencies v)) (d.enter v) e)
    (hblock : job.block? e v = some (b, s)) (h : Emits job (.block v b) s f) :
    Account job v start f := by
  have hin : v ∈ (d.enter v).entered := Draft.mem_enter.mpr (.inr rfl)
  have hspares : Draft.Spares v (d.enter v) s :=
    (hdeps.spares hin id).trans (.of_alike (block?_alike hblock))
  cases hd with
  | written hentered | headed hentered => exact absurd hentered hnew
  | pending _ hown _ =>
    obtain ⟨n, arm, targets, rest, hnode, hkind, hinputs, harms, hheader⟩ := block?_heading hblock
    have hbefore : ownLines s.trace v = [] := by
      rw [hspares.ownLines_eq]
      simpa [ownLines, Draft.enter, Event.origin?] using hown
    have hentered := hspares.entered.subset hin
    exact .headed (h.extends.subset hentered) hnode hkind hinputs
      (h.headed hentered harms hheader hbefore)

/-- All work keeps the account of a node, and a node that work enters has its turn in it. -/
theorem Emits.account (h : Emits job t d e) (hreach : ReflTransGen (Step job fun _ => True) start d)
    (ht : ¬ t.Owns v) (hd : Account job v start d) : Account job v start e := by
  have hsteps {t : Task} {d e : Draft} (h : Emits job t d e) :
      ReflTransGen (Step job fun _ => True) d e := h.steps fun _ _ => trivial
  -- another node is entered, and then all that it reads
  have hread {u : Nat} {d e : Draft} (hne : u ≠ v) (hnew : u ∉ d.entered)
      (hreach : ReflTransGen (Step job fun _ => True) start d) (hd : Account job v start d)
      (ih : ReflTransGen (Step job fun _ => True) start (d.enter u) → ¬ False →
        Account job v start (d.enter u) → Account job v start e) : Account job v start e :=
    ih (hreach.tail (.enter hnew)) id (hd.spares (.enter hne d))
  induction h with
  | value_skip | values_nil | hoists_nil | flow_skip | flows_nil | arms_nil => exact hd
  | @value_enter u d e hnew hdeps ih =>
    by_cases hne : u = v
    · subst hne
      have hentered : (job.writeAlone u e).entered = e.entered := writeAlone_entered job u e
      rw [writeAlone] at hentered ⊢
      split at hentered
      · rename_i hscope
        rw [if_pos hscope]
        refine account_of_lines hreach hnew hd hdeps ([.opened u .scope] ++
          [.line none ((job.writeGuarded e u).level + 1) "pass"] ++ [.closed u .scope]) ?_ hentered
          ?_ ?_
        · simp [Draft.closeArm, Draft.write, Draft.openArm]
        · simp [ownLines, Event.origin?]
        · simp
      · rename_i hscope
        rw [if_neg hscope]
        exact account_of_lines hreach hnew hd hdeps [] (List.append_nil _).symm hentered rfl (by simp)
    · exact (hread hne hnew hreach hd ih).spares (writeAlone_spares hne e)
  | values_cons hfirst _ ih ih' | flows_cons hfirst _ ih ih' =>
    exact ih' (hreach.trans (hsteps hfirst)) id (ih hreach id hd)
  | hoists_take _ _ hfirst _ ih ih' =>
    exact ih' (hreach.trans (hsteps hfirst)) id (ih hreach id hd)
  | hoists_leave _ _ ih => exact ih hreach id hd
  | @flow_plain u d e f _ hnew hdeps _ _ hnext ihDeps ih =>
    have hwrites := writeGuarded_writes job e u
    by_cases hne : u = v
    · subst hne
      have hwritten : Account job u start (job.writeGuarded e u) :=
        account_of_lines hreach hnew hd hdeps [] (List.append_nil _).symm hwrites.entered rfl (by simp)
      have hin : u ∈ (job.writeGuarded e u).entered :=
        hwrites.entered ▸ hdeps.extends.subset (Draft.mem_enter.mpr (.inr rfl))
      exact hwritten.spares (hnext.spares hin id)
    · have hu : u ∈ e.entered := hdeps.extends.subset (Draft.mem_enter.mpr (.inr rfl))
      have hlines := ((hreach.tail (.enter hnew)).trans (hsteps hdeps)).tail (.lines hu)
      exact ih hlines id ((hread hne hnew hreach hd ihDeps).spares (.of_writes hwrites hne))
  | @flow_scope u d e f _ hnew hdeps _ _ hnext ihDeps ih =>
    have hwrites := writeGuarded_writes job e u
    have hu : u ∈ e.entered := hdeps.extends.subset (Draft.mem_enter.mpr (.inr rfl))
    by_cases hne : u = v
    · subst hne
      obtain ⟨after, htrace, hafter, hopened⟩ := hnext.scope_trace (hwrites.entered ▸ hu)
      have hwritten : Account job u start { e with trace := f.trace } :=
        account_of_lines hreach hnew hd hdeps after htrace rfl hafter hopened
      cases hwritten with
      | pending hpending => exact absurd hu hpending
      | written _ hsteps hbefore htrace hafter hunopened =>
        exact .written (hnext.extends.subset (hwrites.entered ▸ hu)) hsteps hbefore htrace hafter
          hunopened
      | headed _ hnode hkind hinputs hheaded =>
        exact .headed (hnext.extends.subset (hwrites.entered ▸ hu)) hnode hkind hinputs hheaded
    · have hlines := ((hreach.tail (.enter hnew)).trans (hsteps hdeps)).tail (.lines hu)
      exact ih hlines hne ((hread hne hnew hreach hd ihDeps).spares (.of_writes hwrites hne))
  | @flow_block u d e b s f _ hnew hdeps hblock hnext ihDeps ih =>
    by_cases hne : u = v
    · subst hne
      exact account_of_block hnew hd hdeps hblock hnext
    · have hshape := ((hreach.tail (.enter hnew)).trans (hsteps hdeps)).tail (.shape trivial hblock)
      exact ih hshape hne ((hread hne hnew hreach hd ihDeps).spares (.of_alike (block?_alike hblock)))
  | @block owner b d e f g i hhoists harms hrest _ ihHoists ihArms ihRest ihHeld =>
    have howner : owner ≠ v := ht
    have hopen := ((hreach.trans (hsteps hhoists)).tail (@Step.hold job _ _ (job.held d b))).tail
      (@Step.line job _ _ (some owner) b.header)
    have hfilled := ihArms hopen howner
      ((ihHoists hreach id hd).spares (.header howner e _ b.header))
    have hclosed := (hopen.trans (hsteps harms)).tail (@Step.letGo job _ _ (job.held d b))
    have hafter := ihRest hclosed id
      (hfilled.spares (.of_trace rfl (List.append_nil _).symm (by simp)))
    exact ihHeld (hclosed.trans (hsteps hrest)) id hafter
  | @arms_cons owner arm targets rest d e f harm _ ihArm ihRest =>
    have howner : owner ≠ v := ht
    have hopen := hreach.tail (@Step.openArm job _ _ owner arm)
    have hfilled := ihArm hopen id (hd.spares (.openArm howner d arm))
    exact ihRest (((hopen.trans (hsteps harm)).trans endArm_steps).trans nextArm_steps) howner
      (hfilled.spares (.endArm howner arm rest _ e))

/-- Pieces of work that are for no node in particular keep the account of a node. -/
theorem Performs.account {ts : List Task} (h : Performs job ts d e)
    (hreach : ReflTransGen (Step job fun _ => True) start d) (hts : ∀ t ∈ ts, ¬ t.Owns v)
    (hd : Account job v start d) : Account job v start e := by
  induction h with
  | nil => exact hd
  | cons hfirst _ ih =>
    exact ih (hreach.trans (hfirst.steps fun _ _ => trivial))
      (fun t ht => hts t (List.mem_cons_of_mem _ ht))
      (hfirst.account hreach (hts _ List.mem_cons_self) hd)

/-- Values make no blocks. -/
theorem Emits.unopened_of_values (h : Emits job t d e)
    (ht : (∃ u, t = .value u) ∨ ∃ us, t = .values us) (hd : Unopened v d.trace) :
    Unopened v e.trace := by
  induction h with
  | value_skip | values_nil => exact hd
  | value_enter _ _ ih =>
    exact unopened_writeAlone (ih (.inr ⟨_, rfl⟩) (hd.append (by simp))) _
  | values_cons _ _ ih ih' => exact ih' (.inr ⟨_, rfl⟩) (ih (.inl ⟨_, rfl⟩) hd)
  | hoists_nil | hoists_take | hoists_leave | flow_skip | flow_plain | flow_scope | flow_block |
    block | flows_nil | flows_cons | arms_nil | arms_cons => simp at ht

/-- Without a flow of execution no node becomes a block. -/
theorem Performs.unopened_of_dataFlow (hmode : job.mode = .dataFlow)
    (h : Performs job job.bodyTasks d e) (hd : Unopened v d.trace) : Unopened v e.trace := by
  refine h.keeps (P := fun d => Unopened v d.trace) (fun t ht d e hemits hd => ?_) hd
  simp only [bodyTasks, hmode, List.mem_cons, List.not_mem_nil, or_false] at ht
  rcases ht with rfl | rfl
  · exact hemits.unopened_of_values (.inr ⟨_, rfl⟩) hd
  · exact hemits.unopened_of_values (.inr ⟨_, rfl⟩) hd

/-- The end of a body is for no node. -/
theorem closing_spares (job : Job) (d : Draft) (v : Nat) : Draft.Spares v d (job.closing d) := by
  obtain ⟨new, htrace, hnew⟩ := closing_trace job d
  refine .of_trace (closing_entered job d) htrace fun x hx => ?_
  obtain ⟨level, text, rfl⟩ := hnew x hx
  simp [Event.origin?, Event.owner?]

/-- The work of a body gives every node its turn. -/
theorem Performs.account_of_body (hjob : job.WellFormed) (h : Performs job job.bodyTasks d e)
    (hbarriers : d.barriers = []) (hentered : d.entered = []) (htrace : d.trace = [])
    (hv : v < job.graph.size) : Account job v d e ∧ v ∈ e.entered := by
  have hts : ∀ t ∈ job.bodyTasks, ¬ t.Owns v := by
    intro t ht
    rcases eq_of_mem_bodyTasks ht with ⟨vs, rfl⟩ | ⟨u, rfl⟩ | ⟨vs, rfl⟩
    all_goals exact id
  refine ⟨h.account .refl hts (.pending ?_ ?_ ?_), h.mem_entered hjob hbarriers hv⟩
  · simp [hentered]
  · simp [htrace, ownLines]
  · simp [htrace, Unopened]

end Job

namespace Generator

variable {σ : Type}

/-- A node with a function that becomes no block contributes, in one state on the way, what was looked
up for it and nothing else: the filled pattern, or one comment if there is no pattern. Only a
conditional or a loop with an input can become a block, if there is a flow of execution, and it then
contributes its header alone. -/
theorem nodes_contribute_what_was_looked_up (ask : PatternSource σ) (s : σ) (doc : Document)
    (settings : Settings) (conversions : Conversions) (known : List (String × Option Pattern)) :
    let gen : Generator := ⟨.ofDocument doc, settings, conversions, known⟩
    let job := gen.fittedJob ask s
    ∃ d, gen.rendering ask s = .ok d ∧ ∀ v n function, gen.graph.node? v = some n →
      n.functionId = some function →
      (Unopened v d.trace → ∃ w, ReflTransGen (Job.Step job fun _ => True) (gen.startDraft ask s) w ∧
        ((∃ p, job.fitting v = .pattern p ∧ Contributes v w (job.patternLines w v n p) d.trace) ∨
          job.fitting v = .missing function ∧
            Contributes v w [.line (some v) w.level (Job.placeholder function n)] d.trace)) ∧
      (¬ Unopened v d.trace → job.mode = .execution ∧ n.inputs ≠ [] ∧
        ∃ arm, n.kind.headed? = some arm ∧ Headed v arm d.trace) := by
  intro gen job
  have hg : gen.graph.WellFormed := FlowGraph.ofDocument_wellFormed doc
  have hjob : job.WellFormed := fittedJob_wellFormed ask hg s
  obtain ⟨e, hperforms, hrendering⟩ := rendering_performs ask hg s
  refine ⟨_, hrendering, fun v n function hn hfunction => ?_⟩
  have hv : v < gen.graph.size := (List.getElem?_eq_some_iff.mp hn).1
  obtain ⟨haccount, hentered⟩ := hperforms.account_of_body hjob rfl rfl rfl hv
  have hspares := Job.closing_spares job e v
  cases haccount.spares hspares with
  | pending hpending => exact absurd (hspares.entered.subset hentered) hpending
  | @written w after _ hsteps hbefore htrace hafter hunopened =>
    refine ⟨fun _ => ⟨w, hsteps, ?_⟩, fun hopened => absurd hunopened hopened⟩
    have hfor := fitting_isFor ask gen s hn
    cases hfitting : (gen.fittedJob ask s).fitting v with
    | absent =>
      rw [hfitting] at hfor
      cases hfor.symm.trans hfunction
    | pattern p =>
      rw [Job.writeGuarded_of_pattern hn hfitting] at htrace
      exact .inl ⟨p, rfl, after, htrace, hbefore, hafter⟩
    | missing missed =>
      rw [hfitting] at hfor
      obtain rfl := Option.some.inj (hfor.symm.trans hfunction)
      rw [Job.writeGuarded_of_missing hn hfitting] at htrace
      exact .inr ⟨rfl, after, htrace, hbefore, hafter⟩
  | @headed m arm _ hnode hkind hinputs hheaded =>
    obtain rfl := Option.some.inj (hn.symm.trans hnode)
    refine ⟨fun hunopened => absurd hunopened hheaded.not_unopened, fun hopened => ?_⟩
    refine ⟨?_, hinputs, arm, hkind, hheaded⟩
    cases hmode : (gen.fittedJob ask s).mode with
    | execution => rfl
    | dataFlow =>
      have hnone : Unopened v (gen.startDraft ask s).trace := fun _ _ => List.not_mem_nil
      exact absurd (hspares.unopened (hperforms.unopened_of_dataFlow hmode hnone)) hopened

/-- A node that prints, with a label that reads like that of a loop. -/
def printForUser : Document.Node :=
  ⟨"2", "Print for user", none, none, [⟨"message", "message", "string", false, some (.string "hi")⟩],
    [], none, [⟨"in", "in"⟩], [⟨"out", "out"⟩], some "print", none⟩

/-- A conditional with a function. -/
def nopeIf : Document.Node :=
  ⟨"3", "If", none, some .conditional, [⟨"condition", "condition", "bool", false, none⟩], [],
    none, [⟨"in", "in"⟩], [⟨"then", "then"⟩], some "nope", none⟩

/-- A node that is taken for a loop, and a conditional, both with a function. -/
def shapedFunctions : Document where
  nodes :=
    [⟨"1", "Start", none, some .start, [], [], none, [], [⟨"out", "out"⟩], none, none⟩,
      printForUser, nopeIf]
  edges :=
    [⟨"e1", "1", "2", some "exec-output-out", some "exec-input-in", none⟩,
      ⟨"e2", "2", "3", some "exec-output-out", some "exec-input-in", none⟩]

/-- A source that knows how to print. -/
def printing : PatternSource Unit := fun s function _ =>
  (if function = "print" then .found ⟨"print(\x7b0\x7d)", .statement, []⟩ else .notFound, s)

/-- Neither node contributes what was looked up for it: both become blocks, the first although its
pattern was found, the second without a word about the one that is missing. -/
theorem shapedFunctions_contribute_headers :
    let gen := Generator.new (.ofDocument shapedFunctions) .standard
    let job := gen.fittedJob printing ()
    ∃ d, gen.rendering printing () = .ok d ∧
      (∃ n p, gen.graph.node? 1 = some n ∧ job.fitting 1 = .pattern p ∧
        ∀ w, ¬ Contributes 1 w (job.patternLines w 1 n p) d.trace) ∧
      (∃ n, gen.graph.node? 2 = some n ∧ job.fitting 2 = .missing "nope" ∧
        ∀ w, ¬ Contributes 2 w [.line (some 2) w.level (Job.placeholder "nope" n)] d.trace) := by
  intro gen job
  obtain ⟨d, hrendering, htrace⟩ : ∃ d, gen.rendering printing () = .ok d ∧
      d.trace = [.enter 0, .enter 1, .line (some 1) 0 "for print_for_user_2_item in \"hi\":",
        .opened 1 .loopBody, .line none 1 "pass", .closed 1 .loopBody, .enter 2,
        .line (some 2) 0 "if False:", .opened 2 .thenArm, .line none 1 "pass",
        .closed 2 .thenArm] :=
    exists_rendering (by decide +kernel)
  have hfirst : ownLines d.trace 1 = [.line (some 1) 0 "for print_for_user_2_item in \"hi\":"] := by
    rw [htrace]
    decide
  have hsecond : ownLines d.trace 2 = [.line (some 2) 0 "if False:"] := by
    rw [htrace]
    decide
  refine ⟨d, hrendering, ⟨.ofDocument printForUser, ⟨"print(\x7b0\x7d)", .statement, []⟩, rfl,
    by decide +kernel, fun w h => ?_⟩, .ofDocument nopeIf, rfl, by decide +kernel, fun w h => ?_⟩
  · have hfree : job.graph.binding? 1 "message" = none := by decide +kernel
    have hargument : printForUser.inputs.map
        (fun p => (job.argument w 1 (.ofDocument printForUser) p).text) = ["\"hi\""] := by
      simp only [printForUser, List.map_cons, List.map_nil, Job.argument, hfree]
      decide +kernel
    have hlines : job.patternLines w 1 (.ofDocument printForUser)
        ⟨"print(\x7b0\x7d)", .statement, []⟩ = ["print(\"hi\")"].map (.line (some 1) w.level) := by
      rw [Job.patternLines, show (Node.ofDocument printForUser).inputs = printForUser.inputs from rfl,
        hargument]
      exact congrArg (List.map _) (by decide +kernel)
    rw [hlines] at h
    have hin := h.mem_ownLines List.mem_cons_self rfl
    rw [hfirst, List.mem_singleton, Event.line.injEq] at hin
    exact absurd hin.2.2 (by decide)
  · have hin := h.mem_ownLines List.mem_cons_self rfl
    rw [hsecond, List.mem_singleton, Event.line.injEq] at hin
    exact absurd hin.2.2 (by decide +kernel)

end Generator

end FlowScript
