import FlowScript.Generator
import FlowScript.Proofs.Budget
import FlowScript.Proofs.Groups
import FlowScript.Proofs.Order
import FlowScript.Proofs.Regions
import FlowScript.Proofs.Steps

/-!
# The work of a body

The body of a program is a list of pieces of work, done one after the other without a fault: with a
flow of execution, the plain inputs and the flow of every entry point and then the flow from every
node in order; without one, the inputs and then all nodes in order, and the line that returns the
values of the output nodes.
-/

namespace FlowScript.Job

open Relation (ReflTransGen)

variable {job : Job}

/-- Edges join nodes of the graph. -/
theorem spread_size (hg : job.graph.WellFormed) :
    Spread job [] (· < job.graph.size) (· < job.graph.size) where
  values _ _ _ hu := (hg.feeds_lt (FlowGraph.mem_dependencies.mp hu)).1
  reads _ _ _ _ hu := (hg.feeds_lt (FlowGraph.mem_dependencies.mp hu)).1
  flow _ _ _ _ hw := (hg.leads_lt (FlowGraph.mem_successors.mp hw)).2

/-- Pieces of work one after the other. -/
inductive Performs (job : Job) : List Task → Draft → Draft → Prop where
  | nil {d} : Performs job [] d d
  | cons {t ts d e f} : Emits job t d e → Performs job ts e f → Performs job (t :: ts) d f

/-- Some pieces of work after others. -/
theorem Performs.append {ts us : List Task} {d e f : Draft} (h : Performs job ts d e)
    (h' : Performs job us e f) : Performs job (ts ++ us) d f := by
  induction h with
  | nil => exact h'
  | cons hfirst _ ih => exact .cons hfirst (ih h')

/-- Pieces of work, cut in two. -/
theorem Performs.split {ts us : List Task} {d f : Draft} (h : Performs job (ts ++ us) d f) :
    ∃ e, Performs job ts d e ∧ Performs job us e f := by
  induction ts generalizing d with
  | nil => exact ⟨d, .nil, h⟩
  | cons t ts ih =>
    cases h with
    | cons hfirst hrest =>
      obtain ⟨e, hts, hus⟩ := ih hrest
      exact ⟨e, .cons hfirst hts, hus⟩

/-- Pieces of work end in one way only. -/
theorem Performs.unique {ts : List Task} {d e f : Draft} (h : Performs job ts d e)
    (h' : Performs job ts d f) : e = f := by
  induction h with
  | nil =>
    cases h'
    rfl
  | cons hfirst _ ih =>
    cases h' with
    | cons hfirst' hrest' =>
      obtain rfl := hfirst.unique hfirst'
      exact ih hrest'

/-- Pieces of work extend the draft. -/
theorem Performs.extends {ts : List Task} {d e : Draft} (h : Performs job ts d e) :
    Draft.Extends d e := by
  induction h with
  | nil => exact .refl _
  | cons hfirst _ ih => exact hfirst.extends.trans ih

/-- Pieces of work are made of steps. -/
theorem Performs.steps {S : Nat → Prop} {ts : List Task} {d e : Draft} (h : Performs job ts d e)
    (hopened : e.Opens S) : ReflTransGen (Step job S) d e := by
  induction h with
  | nil => exact .refl
  | cons hfirst hrest ih =>
    exact (hfirst.steps (hopened.earlier hrest.extends.trace)).trans (ih hopened)

/-- What each piece of work keeps is kept by all of them together. -/
theorem Performs.keeps {P : Draft → Prop} {ts : List Task} {d e : Draft}
    (h : Performs job ts d e) (hkeep : ∀ t ∈ ts, ∀ d e, Emits job t d e → P d → P e) (hd : P d) :
    P e := by
  induction h with
  | nil => exact hd
  | cons hfirst _ ih =>
    exact ih (fun t ht => hkeep t (List.mem_cons_of_mem _ ht))
      (hkeep _ List.mem_cons_self _ _ hfirst hd)

/-- Among pieces of work, following the flow enters a node that is not held back. -/
theorem Performs.flow_mem {v : Nat} {ts : List Task} {d e : Draft} (h : Performs job ts d e)
    (hv : .flow v ∈ ts) (hfree : v ∉ d.barriers) : v ∈ e.entered := by
  induction h with
  | nil => exact absurd hv List.not_mem_nil
  | cons hfirst hrest ih =>
    rcases List.mem_cons.mp hv with rfl | hv
    · exact hrest.extends.subset (hfirst.flow_mem hfree)
    · exact ih hv (hfirst.extends.barriers ▸ hfree)

/-- Pieces of work on nodes of the graph enter nodes of the graph. -/
theorem Performs.entered_lt (hg : job.graph.WellFormed) {ts : List Task} {d e : Draft}
    (h : Performs job ts d e) (hts : ∀ t ∈ ts, t.Of (· < job.graph.size) (· < job.graph.size))
    (hd : ∀ v ∈ d.entered, v < job.graph.size) : ∀ v ∈ e.entered, v < job.graph.size := by
  refine h.keeps (P := fun d => ∀ v ∈ d.entered, v < job.graph.size)
    (fun t ht d e hemits hd v hv => ?_) hd
  rcases hemits.enters_only (spread_size hg) (by simp) (hts t ht) v hv with hv | hv | hv
  · exact hd v hv
  · exact hv
  · exact hv

/-- Whether a node is an input that takes no part in the flow of execution. -/
def isPlainInput (job : Job) (v : Nat) : Bool :=
  (job.graph.node? v).any fun n => n.kind = .input ∧ ¬ n.hasExecutionPorts

/-- Whether a node is an input. -/
def isInput (job : Job) (v : Nat) : Bool :=
  (job.graph.node? v).any fun n => n.kind = .input

/-- The members of the group of an entry point. -/
def entryMembers (job : Job) (entry : Nat) : List Nat :=
  ((job.graph.groups.find? (·.members.contains entry)).map (·.members)).getD []

/-- The members of a group are nodes of the graph. -/
theorem entryMembers_lt (hg : job.graph.WellFormed) (entry : Nat) :
    ∀ v ∈ job.entryMembers entry, v < job.graph.size := by
  intro v hv
  rw [entryMembers] at hv
  cases hgroup : job.graph.groups.find? (·.members.contains entry) with
  | none =>
    rw [hgroup] at hv
    exact absurd hv List.not_mem_nil
  | some group =>
    rw [hgroup] at hv
    exact hg.groups_lt group (List.mem_of_find?_eq_some hgroup) v hv

/-- The work for an entry point. -/
def entryTasks (job : Job) (entry : Nat) : List Task :=
  [.values ((job.entryMembers entry).filter job.isPlainInput), .flow entry]

/-- The work for entry points is about the members of their groups, and follows the flow from
them. -/
theorem entryTasks_of_members {V F : Nat → Prop} {entries : List Nat}
    (hmembers : ∀ entry ∈ entries, ∀ v ∈ job.entryMembers entry, V v)
    (hentries : ∀ entry ∈ entries, F entry) :
    ∀ t ∈ entries.flatMap job.entryTasks, t.Of V F := by
  intro t ht
  obtain ⟨entry, hentry, ht⟩ := List.mem_flatMap.mp ht
  simp only [entryTasks, List.mem_cons, List.not_mem_nil, or_false] at ht
  rcases ht with rfl | rfl
  · exact fun v hv => hmembers entry hentry v (List.mem_filter.mp hv).1
  · exact hentries entry hentry

/-- A position holds a node that the job knows. -/
theorem node_eq_ok {v : Nat} {n : Node} (hn : job.graph.node? v = some n) : job.node v = .ok n := by
  rw [node, hn]

/-- Entering some of the nodes of a list, chosen by what they are. -/
theorem foldlM_values (hg : job.graph.WellFormed) {chosen : Nat → Bool}
    {f : Draft → Nat → Except (Fault × Draft) Draft} (vs : List Nat)
    (hvs : ∀ v ∈ vs, v < job.graph.size)
    (hf : ∀ v ∈ vs, ∀ d, f d v =
      .ok (if chosen v then job.standalone job.graph.size v d else d)) (d : Draft) :
    ∃ e, vs.foldlM f d = .ok e ∧ Emits job (.values (vs.filter chosen)) d e := by
  induction vs generalizing d with
  | nil => exact ⟨d, rfl, .values_nil⟩
  | cons v vs ih =>
    have hstep := hf v List.mem_cons_self d
    obtain ⟨e, hfold, hemits⟩ := ih (fun u hu => hvs u (List.mem_cons_of_mem _ hu))
      (fun u hu => hf u (List.mem_cons_of_mem _ hu))
      (if chosen v then job.standalone job.graph.size v d else d)
    refine ⟨e, ?_, ?_⟩
    · rw [List.foldlM_cons, hstep]
      exact hfold
    · cases hchosen : chosen v with
      | false =>
        rw [List.filter_cons_of_neg (by simp [hchosen])]
        simpa [hchosen] using hemits
      | true =>
        rw [List.filter_cons_of_pos hchosen]
        rw [hchosen] at hemits
        exact .values_cons (standalone_emits hg _ (hvs v List.mem_cons_self)
          (pending_le_size job d)) hemits

/-- Declaring the inputs of a group. -/
theorem declareInputs_emits (hg : job.graph.WellFormed) (members : List Nat)
    (hmembers : ∀ v ∈ members, v < job.graph.size) (d : Draft) :
    ∃ e, job.declareInputs members d = .ok e ∧
      Emits job (.values (members.filter job.isPlainInput)) d e := by
  refine foldlM_values hg members hmembers (fun v hv d => ?_) d
  obtain ⟨n, hn⟩ := FlowGraph.exists_node (hmembers v hv)
  simp only [node_eq_ok hn, isPlainInput, hn, Option.any_some, decide_eq_true_eq]
  split <;> rfl

/-- Entering the inputs first. -/
theorem inputsFirst_emits (hjob : job.WellFormed) (d : Draft) :
    ∃ e, job.inputsFirst d = .ok e ∧ Emits job (.values (job.order.filter job.isInput)) d e := by
  refine foldlM_values hjob.graph job.order (fun v => hjob.mem_order.mp) (fun v hv d => ?_) d
  obtain ⟨n, hn⟩ := FlowGraph.exists_node (hjob.mem_order.mp hv)
  simp only [node_eq_ok hn, isInput, hn, Option.any_some, decide_eq_true_eq]
  split <;> rfl

/-- Following the flow from an entry point. -/
theorem walkEntry_performs (hjob : job.WellFormed) (entry : Nat) (hentry : entry < job.graph.size)
    (d : Draft) : ∃ e, job.walkEntry job.graph.groups d entry = .ok e ∧
      Performs job (job.entryTasks entry) d e := by
  obtain ⟨e, hdeclare, hvalues⟩ := declareInputs_emits hjob.graph _
    (entryMembers_lt hjob.graph entry) d
  rw [entryMembers] at hdeclare
  refine ⟨job.flow job.graph.size entry e, ?_, .cons hvalues (.cons ?_ .nil)⟩
  · rw [walkEntry, hdeclare]
    rfl
  · exact flow_emits hjob _ hentry (pending_le_size job e)

/-- Some entry points are done one after the other without a fault. -/
theorem walkEntries_performs (hjob : job.WellFormed) (entries : List Nat)
    (hlt : ∀ v ∈ entries, v < job.graph.size) (d : Draft) :
    ∃ e, entries.foldlM (job.walkEntry job.graph.groups) d = .ok e ∧
      Performs job (entries.flatMap job.entryTasks) d e := by
  induction entries generalizing d with
  | nil => exact ⟨d, rfl, .nil⟩
  | cons v entries ih =>
    obtain ⟨e, hwalk, hperforms⟩ := walkEntry_performs hjob v (hlt v List.mem_cons_self) d
    obtain ⟨f, hfold, hrest⟩ := ih (fun u hu => hlt u (List.mem_cons_of_mem _ hu)) e
    refine ⟨f, ?_, hperforms.append hrest⟩
    rw [List.foldlM_cons, hwalk]
    exact hfold

/-- Following the flow to some nodes is what the rules without a budget give. -/
theorem sweep_emits (hjob : job.WellFormed) (vs : List Nat) (hvs : ∀ v ∈ vs, v < job.graph.size)
    (d : Draft) : Emits job (.flows vs) d (walkAll (job.flow job.graph.size) vs d) :=
  walkAll_emits vs (fun _ hv _ => flow_emits hjob _ hv) hvs (pending_le_size job d)

/-- The body with a flow of execution is done without a fault. -/
theorem executionBody_performs (hjob : job.WellFormed) (d : Draft) :
    ∃ e f, Performs job (job.graph.entryPoints.flatMap job.entryTasks) d e ∧
      Emits job (.flows job.order) e f ∧ job.executionBody d = .ok f := by
  obtain ⟨e, hfold, hperforms⟩ :=
    walkEntries_performs hjob job.graph.entryPoints (fun v => FlowGraph.entryPoints_lt) d
  refine ⟨e, walkAll (job.flow job.graph.size) job.order e, hperforms, ?_, ?_⟩
  · exact sweep_emits hjob job.order (fun v => hjob.mem_order.mp) e
  · rw [executionBody, hfold]
    rfl

/-- Entering the inputs and then all nodes, without a flow of execution, is done without a fault. -/
theorem inputsFirst_performs (hjob : job.WellFormed) (d : Draft) :
    ∃ e, job.inputsFirst d = .ok e ∧
      Performs job [.values (job.order.filter job.isInput), .values job.order] d
        (walkAll (job.standalone job.graph.size) job.order e) := by
  obtain ⟨e, hfold, hinputs⟩ := inputsFirst_emits hjob d
  refine ⟨e, hfold, .cons hinputs (.cons ?_ .nil)⟩
  exact values_emits job.order
    (fun v hv d => standalone_emits hjob.graph _ (hjob.mem_order.mp hv)) (pending_le_size job e)

/-- The value that an output node returns; a node without input has none. -/
def returned? (job : Job) (d : Draft) (v : Nat) : Option Argument :=
  (job.graph.node? v).bind fun n => n.inputs.head?.map (job.argument d v n)

/-- Return the values of some nodes together. -/
def returnAll (job : Job) (d : Draft) : Draft :=
  let arguments := d.deferred.filterMap (job.returned? d)
  let e := d.report (arguments.flatMap (·.notes))
  if (arguments.map (·.text)).isEmpty then e
  else e.write none ("return " ++ String.intercalate ", " (arguments.map (·.text)))

/-- The values of nodes of the graph are returned without a fault. -/
theorem foldlM_returnValue (vs : List Nat) (hvs : ∀ v ∈ vs, v < job.graph.size) (texts : List String)
    (d : Draft) : vs.foldlM job.returnValue (texts, d) =
      .ok (texts ++ (vs.filterMap (job.returned? d)).map (·.text),
        d.report ((vs.filterMap (job.returned? d)).flatMap (·.notes))) := by
  induction vs generalizing texts d with
  | nil => simp [Draft.report, pure, Except.pure]
  | cons v vs ih =>
    obtain ⟨n, hn⟩ := FlowGraph.exists_node (hvs v List.mem_cons_self)
    have hrest := ih fun u hu => hvs u (List.mem_cons_of_mem _ hu)
    rw [List.foldlM_cons]
    cases hinputs : n.inputs with
    | nil =>
      have hstep : job.returnValue (texts, d) v = .ok (texts, d) := by
        simp [returnValue, node_eq_ok hn, hinputs]
      have hnone : job.returned? d v = none := by simp [returned?, hn, hinputs]
      rw [hstep, List.filterMap_cons_none hnone]
      exact hrest texts d
    | cons p ps =>
      have hsome : job.returned? d v = some (job.argument d v n p) := by
        simp [returned?, hn, hinputs]
      have hstep : job.returnValue (texts, d) v =
          .ok (texts ++ [(job.argument d v n p).text],
            d.report (job.argument d v n p).notes) := by
        simp [returnValue, node_eq_ok hn, hinputs, argumentAt]
      -- reports have no part in what a node returns
      have hreport (notes : List Diagnostic) : job.returned? (d.report notes) = job.returned? d := rfl
      rw [hstep, List.filterMap_cons_some hsome]
      refine (hrest _ _).trans ?_
      rw [hreport]
      simp [Draft.report]

/-- Returning values writes no line of a node. -/
theorem returnAll_extends (job : Job) (d : Draft) : Draft.Extends d (job.returnAll d) := by
  rw [returnAll]
  have hreport (notes : List Diagnostic) : Draft.Extends d (d.report notes) :=
    .of_trace rfl rfl rfl (List.append_nil _).symm (by simp)
  split
  · exact hreport _
  · exact (hreport _).trans (Draft.write_extends _ _ _)

/-- The pieces of work of a body. -/
def bodyTasks (job : Job) : List Task :=
  match job.mode with
  | .execution => job.graph.entryPoints.flatMap job.entryTasks ++ [.flows job.order]
  | .dataFlow => [.values (job.order.filter job.isInput), .values job.order]

/-- The pieces of work of a body enter values or follow the flow. -/
theorem eq_of_mem_bodyTasks {t : Task} (ht : t ∈ job.bodyTasks) :
    (∃ vs, t = .values vs) ∨ (∃ v, t = .flow v) ∨ ∃ vs, t = .flows vs := by
  cases hmode : job.mode with
  | execution =>
    simp only [bodyTasks, hmode, List.mem_append, List.mem_flatMap, List.mem_singleton] at ht
    rcases ht with ⟨entry, -, ht⟩ | rfl
    · simp only [entryTasks, List.mem_cons, List.not_mem_nil, or_false] at ht
      rcases ht with rfl | rfl
      · exact .inl ⟨_, rfl⟩
      · exact .inr (.inl ⟨_, rfl⟩)
    · exact .inr (.inr ⟨_, rfl⟩)
  | dataFlow =>
    simp only [bodyTasks, hmode, List.mem_cons, List.not_mem_nil, or_false] at ht
    rcases ht with rfl | rfl
    · exact .inl ⟨_, rfl⟩
    · exact .inl ⟨_, rfl⟩

/-- The end of a body. -/
def closing (job : Job) (d : Draft) : Draft :=
  match job.mode with
  | .execution => d
  | .dataFlow => job.returnAll d

/-- The end of a body writes no line of a node. -/
theorem closing_extends (job : Job) (d : Draft) : Draft.Extends d (job.closing d) := by
  rw [closing]
  split
  · exact .refl d
  · exact returnAll_extends job d

/-- The end of a body enters nothing. -/
@[simp] theorem closing_entered (job : Job) (d : Draft) : (job.closing d).entered = d.entered := by
  rw [closing]
  split
  · rfl
  · rw [returnAll]
    split <;> rfl

/-- The end of a body adds only lines that belong to no node. -/
theorem closing_trace (job : Job) (d : Draft) :
    ∃ new, (job.closing d).trace = d.trace ++ new ∧
      ∀ x ∈ new, ∃ level text, x = .line none level text := by
  rw [closing]
  split
  · exact ⟨[], (List.append_nil _).symm, by simp⟩
  · rw [returnAll]
    split
    · exact ⟨[], (List.append_nil _).symm, by simp⟩
    · exact ⟨_, rfl, by simp⟩

/-- The pieces of work of a body are work on nodes of the graph. -/
theorem bodyTasks_of (hjob : job.WellFormed) :
    ∀ t ∈ job.bodyTasks, t.Of (· < job.graph.size) (· < job.graph.size) := by
  have horder : ∀ v ∈ job.order, v < job.graph.size := fun v => hjob.mem_order.mp
  intro t ht
  cases hmode : job.mode with
  | execution =>
    simp only [bodyTasks, hmode, List.mem_append, List.mem_singleton] at ht
    rcases ht with ht | rfl
    · exact entryTasks_of_members (fun entry _ => entryMembers_lt hjob.graph entry)
        (fun _ => FlowGraph.entryPoints_lt) t ht
    · exact horder
  | dataFlow =>
    simp only [bodyTasks, hmode, List.mem_cons, List.not_mem_nil, or_false] at ht
    rcases ht with rfl | rfl
    · exact fun v hv => horder v (List.mem_filter.mp hv).1
    · exact horder

/-- A body is done without a fault, and it is its pieces of work. -/
theorem body_performs (hjob : job.WellFormed) (d : Draft) (hdeferred : d.deferred ⊆ d.entered)
    (hentered : ∀ v ∈ d.entered, v < job.graph.size) :
    ∃ e, Performs job job.bodyTasks d e ∧ job.body d = .ok (job.closing e) := by
  cases hmode : job.mode with
  | execution =>
    obtain ⟨e, f, hentries, hrest, hbody⟩ := executionBody_performs hjob d
    refine ⟨f, ?_, ?_⟩
    · rw [bodyTasks, hmode]
      exact hentries.append (.cons hrest .nil)
    · rw [body, closing, hmode]
      exact hbody
  | dataFlow =>
    obtain ⟨e, hinputs, hperforms⟩ := inputsFirst_performs hjob d
    have htasks : job.bodyTasks = [.values (job.order.filter job.isInput), .values job.order] := by
      rw [bodyTasks, hmode]
    rw [← htasks] at hperforms
    refine ⟨_, hperforms, ?_⟩
    generalize hf : walkAll (job.standalone job.graph.size) job.order e = f at hperforms ⊢
    have hlt := hperforms.entered_lt hjob.graph (bodyTasks_of hjob) hentered
    have hsteps := hperforms.steps (S := fun _ => True) fun _ _ => trivial
    have hreturned := keeps_of_step hsteps (fun _ _ => Step.deferred) hdeferred
    have hvalues := foldlM_returnValue f.deferred (fun v hv => hlt v (hreturned hv)) [] f
    rw [body, closing, hmode]
    simp only [dataFlowBody, hinputs, bind, Except.bind, hf, hvalues, List.nil_append, returnAll]

end FlowScript.Job
