import FlowScript.Proofs.Contributions
import Mathlib.Data.List.Forall2

/-!
# Emissions that go alike

Two emissions go alike if their graphs differ in the labels of nodes only, and labels reach neither a
name nor the flow. They take the same steps: they enter the same nodes, open and close the same arms
and write lines for the same nodes, from wherever each of them began to indent. Only the texts of the
comments that stand for missing patterns can differ, and the labels in the reports. One relation
between drafts says so, every step keeps it, and from one draft to the next it carries over to the
whole body.
-/

namespace FlowScript

/-- A node that differs from another one in its label only. -/
def Node.Relabels (n n' : Node) : Prop :=
  n' = { n with label := n'.label }

namespace Node.Relabels

variable {n n' : Node}

theorem id (h : n.Relabels n') : n'.id = n.id := by rw [h]

theorem kind (h : n.Relabels n') : n'.kind = n.kind := by rw [h]

theorem inputs (h : n.Relabels n') : n'.inputs = n.inputs := by rw [h]

theorem outputs (h : n.Relabels n') : n'.outputs = n.outputs := by rw [h]

theorem declaredLiteral (h : n.Relabels n') : Job.declaredLiteral n' = Job.declaredLiteral n := by
  rw [h]
  rfl

end Node.Relabels

namespace FlowGraph

/-- Two graphs differ in the labels of their nodes only. -/
structure Relabels (g g' : FlowGraph) : Prop where
  nodes : List.Forall₂ Node.Relabels g.nodes g'.nodes
  edges : g'.edges = g.edges

namespace Relabels

variable {g g' : FlowGraph}

/-- A graph with its own labels. -/
theorem refl (g : FlowGraph) : Relabels g g :=
  ⟨List.forall₂_same.mpr fun _ _ => rfl, rfl⟩

theorem size (h : Relabels g g') : g'.size = g.size :=
  h.nodes.length_eq.symm

theorem positions (h : Relabels g g') : g'.positions = g.positions := by
  rw [FlowGraph.positions, h.size, FlowGraph.positions]

/-- There are nodes at the same positions. -/
theorem node?_eq_none (h : Relabels g g') {v : Nat} (hn : g.node? v = none) : g'.node? v = none := by
  rw [node?, List.getElem?_eq_none_iff] at hn ⊢
  exact h.nodes.length_eq ▸ hn

/-- The nodes at one position differ in their labels only. -/
theorem exists_node (h : Relabels g g') {v : Nat} {n : Node} (hn : g.node? v = some n) :
    ∃ n', g'.node? v = some n' ∧ n.Relabels n' := by
  obtain ⟨hlt, rfl⟩ := List.getElem?_eq_some_iff.mp hn
  have hlt' : v < g'.nodes.length := h.nodes.length_eq ▸ hlt
  exact ⟨g'.nodes[v], List.getElem?_eq_getElem hlt', h.nodes.get hlt hlt'⟩

/-- The nodes at one position differ in their labels only, whatever they are. -/
theorem node (h : Relabels g g') {v : Nat} {n n' : Node} (hn : g.node? v = some n)
    (hn' : g'.node? v = some n') : n.Relabels n' := by
  obtain ⟨m, hm, hrelabels⟩ := h.exists_node hn
  obtain rfl := Option.some.inj (hm.symm.trans hn')
  exact hrelabels

/-- What is read off the node at a position, and not off its label, is the same. -/
theorem node?_congr {α : Type} (h : Relabels g g') (f : Option Node → α)
    (hf : ∀ (n : Node) (label : String), f (some { n with label := label }) = f (some n)) (v : Nat) :
    f (g'.node? v) = f (g.node? v) := by
  cases hn : g.node? v with
  | none => rw [h.node?_eq_none hn]
  | some n =>
    obtain ⟨n', hn', hrelabels⟩ := h.exists_node hn
    rw [hn', hrelabels]
    exact hf n _

theorem idAt (h : Relabels g g') : g'.idAt = g.idAt := by
  funext v
  exact h.node?_congr (fun o => (o.map (·.id)).getD "") (fun _ _ => rfl) v

theorem hasExecutionPorts (h : Relabels g g') : g'.hasExecutionPorts = g.hasExecutionPorts := by
  funext v
  exact h.node?_congr (fun o => o.any (·.hasExecutionPorts)) (fun _ _ => rfl) v

theorem isDataOnly (h : Relabels g g') : g'.isDataOnly = g.isDataOnly := by
  funext v
  exact h.node?_congr (fun o => o.any fun n => !n.hasExecutionPorts) (fun _ _ => rfl) v

theorem outputType (h : Relabels g g') : g'.outputType = g.outputType := by
  funext v port
  exact h.node?_congr (fun o => ((o.bind (·.output? port)).map (·.type)).getD "any")
    (fun _ _ => rfl) v

theorem anyExecutionPorts (h : Relabels g g') : g'.anyExecutionPorts = g.anyExecutionPorts := by
  have hnodes := h.nodes
  rw [FlowGraph.anyExecutionPorts, FlowGraph.anyExecutionPorts]
  generalize g.nodes = nodes, g'.nodes = nodes' at hnodes
  induction hnodes with
  | nil => rfl
  | cons hnode _ ih =>
    rw [List.any_cons, List.any_cons, ih, hnode]
    rfl

theorem dependencies (h : Relabels g g') : g'.dependencies = g.dependencies := by
  funext v
  rw [FlowGraph.dependencies, dataInto, h.edges, FlowGraph.dependencies, dataInto]

theorem successors (h : Relabels g g') : g'.successors = g.successors := by
  funext v
  rw [FlowGraph.successors, executionFrom, h.edges, FlowGraph.successors, executionFrom]

theorem predecessors (h : Relabels g g') : g'.predecessors = g.predecessors := by
  funext v
  rw [FlowGraph.predecessors, executionInto, h.edges, FlowGraph.predecessors, executionInto]

theorem binding? (h : Relabels g g') : g'.binding? = g.binding? := by
  funext v port
  rw [FlowGraph.binding?, bindings, dataInto, h.edges, FlowGraph.binding?, bindings, dataInto]

theorem branchTargets (h : Relabels g g') : g'.branchTargets = g.branchTargets := by
  funext v labels
  rw [FlowGraph.branchTargets, branches, executionFrom, h.edges, FlowGraph.branchTargets, branches,
    executionFrom]

theorem entryPoints (h : Relabels g g') : g'.entryPoints = g.entryPoints := by
  have hinput (v : Nat) : (g'.node? v).any (·.kind == .input) = (g.node? v).any (·.kind == .input) :=
    h.node?_congr (fun o => o.any (·.kind == .input)) (fun _ _ => rfl) v
  simp only [FlowGraph.entryPoints, h.anyExecutionPorts, h.positions, h.hasExecutionPorts,
    h.predecessors, hinput]

theorem schedule (h : Relabels g g') : g'.schedule = g.schedule := by
  have hneeds : g'.needs = g.needs := by
    funext v
    rw [needs, h.dependencies, h.predecessors, needs]
  rw [FlowGraph.schedule, h.size, hneeds, FlowGraph.schedule]

theorem groups (h : Relabels g g') : g'.groups = g.groups :=
  groups_congr h.size h.dependencies h.successors h.entryPoints

theorem mode (h : Relabels g g') : Generator.mode g' = Generator.mode g := by
  rw [Generator.mode, h.anyExecutionPorts, h.entryPoints, Generator.mode]

end Relabels

end FlowGraph

section Drafts

variable (depth : Nat) (text : String → String → Prop) (note : Diagnostic → Diagnostic → Prop)

/-- Two steps are alike: a line stands `depth` levels deeper, and its text is alike. -/
inductive Event.Like : Event → Event → Prop where
  | enter (v : Nat) : Like (.enter v) (.enter v)
  | line (origin : Option Nat) (level : Nat) {t t' : String} : text t t' →
      Like (.line origin level t) (.line origin (level + depth) t')
  | blank (origin : Option Nat) : Like (.blank origin) (.blank origin)
  | opened (owner : Nat) (arm : Arm) : Like (.opened owner arm) (.opened owner arm)
  | closed (owner : Nat) (arm : Arm) : Like (.closed owner arm) (.closed owner arm)

/-- Two items are alike. -/
inductive Item.Like : Item → Item → Prop where
  | line (level : Nat) {t t' : String} : text t t' → Like (.line level t) (.line (level + depth) t')
  | blank : Like .blank .blank

/-- Two drafts are alike: they have taken like steps, `depth` levels apart, and agree in all that later
steps look at. -/
structure Draft.Like (d d' : Draft) : Prop where
  level : d'.level = d.level + depth
  trace : List.Forall₂ (Event.Like depth text) d.trace d'.trace
  entered : d'.entered = d.entered
  barriers : d'.barriers = d.barriers
  values : d'.values = d.values
  diagnostics : List.Forall₂ note d.diagnostics d'.diagnostics
  imports : d'.imports = d.imports
  deferred : d'.deferred = d.deferred

/-- Two expressions are alike: they have the same text, and like reports. -/
structure Argument.Like (a a' : Argument) : Prop where
  text : a'.text = a.text
  notes : List.Forall₂ note a.notes a'.notes

variable {depth text note}

/-- Like traces write like items. -/
theorem Event.Like.items {trace trace' : List Event}
    (h : List.Forall₂ (Event.Like depth text) trace trace') :
    List.Forall₂ (Item.Like depth text) (traceItems trace) (traceItems trace') := by
  induction h with
  | nil => exact .nil
  | cons hfirst _ ih =>
    cases hfirst with
    | enter | opened | closed => exact ih
    | line origin level htext => exact .cons (.line level htext) ih
    | blank => exact .cons .blank ih

namespace Draft.Like

variable {d d' e e' : Draft}

/-- Like steps after like steps. -/
theorem log (h : Draft.Like depth text note d d') {own own' : List Event}
    (hown : List.Forall₂ (Event.Like depth text) own own') :
    List.Forall₂ (Event.Like depth text) (d.trace ++ own) (d'.trace ++ own') :=
  List.rel_append h.trace hown

theorem enter (h : Draft.Like depth text note d d') (v : Nat) :
    Draft.Like depth text note (d.enter v) (d'.enter v) :=
  { h with
    trace := h.log (.cons (.enter v) .nil)
    entered := congrArg (· ++ [v]) h.entered }

theorem write (h : Draft.Like depth text note d d') (origin : Option Nat) {t t' : String}
    (htext : text t t') : Draft.Like depth text note (d.write origin t) (d'.write origin t') := by
  refine { h with trace := ?_ }
  rw [Draft.write, Draft.write, h.level]
  exact h.log (.cons (.line origin d.level htext) .nil)

theorem writeLines (h : Draft.Like depth text note d d') (hrefl : ∀ t, text t t) (origin : Option Nat)
    (t : String) : Draft.Like depth text note (d.writeLines origin t) (d'.writeLines origin t) := by
  refine { h with trace := ?_ }
  rw [Draft.writeLines, Draft.writeLines, h.level]
  refine h.log ?_
  rw [List.forall₂_map_left_iff, List.forall₂_map_right_iff, List.forall₂_same]
  intro l _
  rw [lineEvent, lineEvent]
  split
  · exact .blank origin
  · exact .line origin d.level (hrefl l)

theorem openArm (h : Draft.Like depth text note d d') (owner : Nat) (arm : Arm) :
    Draft.Like depth text note (d.openArm owner arm) (d'.openArm owner arm) := by
  refine { h with level := ?_, trace := h.log (.cons (.opened owner arm) .nil) }
  rw [Draft.openArm, Draft.openArm, h.level]
  exact Nat.add_right_comm _ _ _

/-- An arm is closed only where one has been opened: the level cannot get below the one that the
draft began with. -/
theorem closeArm (h : Draft.Like depth text note d d') (hlevel : 0 < d.level) (owner : Nat)
    (arm : Arm) : Draft.Like depth text note (d.closeArm owner arm) (d'.closeArm owner arm) := by
  refine { h with level := ?_, trace := h.log (.cons (.closed owner arm) .nil) }
  change d'.level - 1 = d.level - 1 + depth
  have heq := h.level
  omega

theorem bindOutputs (h : Draft.Like depth text note d d') (v : Nat) (ports : List String)
    (t : String) : Draft.Like depth text note (d.bindOutputs v ports t) (d'.bindOutputs v ports t) :=
  { h with values := congrArg (_ ++ ·) h.values }

theorem report (h : Draft.Like depth text note d d') {notes notes' : List Diagnostic}
    (hnotes : List.Forall₂ note notes notes') :
    Draft.Like depth text note (d.report notes) (d'.report notes') :=
  { h with diagnostics := List.rel_append h.diagnostics hnotes }

theorem require (h : Draft.Like depth text note d d') (lines : List String) :
    Draft.Like depth text note (d.require lines) (d'.require lines) :=
  { h with imports := congrArg (Imports.addAll · lines) h.imports }

theorem defer (h : Draft.Like depth text note d d') (v : Nat) :
    Draft.Like depth text note (d.defer v) (d'.defer v) :=
  { h with deferred := congrArg (· ++ [v]) h.deferred }

theorem hold (h : Draft.Like depth text note d d') (nodes : List Nat) :
    Draft.Like depth text note (d.hold nodes) (d'.hold nodes) :=
  { h with barriers := congrArg (· ++ nodes) h.barriers }

theorem letGo (h : Draft.Like depth text note d d') (nodes : List Nat) :
    Draft.Like depth text note (d.letGo nodes) (d'.letGo nodes) :=
  { h with barriers := congrArg (List.filter _) h.barriers }

/-- As many lines have been written. -/
theorem written (h : Draft.Like depth text note d d') : d'.written = d.written := by
  rw [Draft.written_eq, Draft.written_eq, (Event.Like.items h.trace).length_eq]

theorem endArm (h : Draft.Like depth text note d d') (h' : Draft.Like depth text note e e')
    (hrefl : ∀ t, text t t) (hlevel : 0 < e.level) (owner : Nat) (arm : Arm) :
    Draft.Like depth text note (d.endArm owner arm e) (d'.endArm owner arm e') := by
  rw [Draft.endArm, Draft.endArm, h.written, h'.written]
  split
  · exact (h'.write none (hrefl _)).closeArm hlevel owner arm
  · exact h'.closeArm hlevel owner arm

theorem nextArm (h : Draft.Like depth text note d d') (hrefl : ∀ t, text t t)
    (rest : List (Arm × List Nat)) :
    Draft.Like depth text note (d.nextArm rest) (d'.nextArm rest) := by
  rw [Draft.nextArm, Draft.nextArm]
  split
  · exact h
  · exact h.write none (hrefl _)

end Draft.Like

end Drafts

namespace Job

/-- Two jobs are alike: their graphs differ in labels only, they call every node by the same name and
know the same about it. The comments for a missing pattern are alike, and so are reports about one
node. -/
structure Like (text : String → String → Prop) (note : Diagnostic → Diagnostic → Prop)
    (job job' : Job) : Prop where
  graph : job.graph.Relabels job'.graph
  order : job'.order = job.order
  fittings : job'.fittings = job.fittings
  conversions : job'.conversions = job.conversions
  mode : job'.mode = job.mode
  names : ∀ v n n', job.graph.node? v = some n → job'.graph.node? v = some n' →
    job'.nameOf v n' = job.nameOf v n
  texts : ∀ t, text t t
  comments : ∀ v n n' function, job.graph.node? v = some n → job'.graph.node? v = some n' →
    job.fitting v = .missing function → text (placeholder function n) (placeholder function n')
  faults : ∀ x, note x x
  notes : ∀ v n n', job.graph.node? v = some n → job'.graph.node? v = some n' →
    ∀ kind message, note (.forNode kind message n.id n.label) (.forNode kind message n'.id n'.label) ∧
      ∀ c, note ((Diagnostic.forNode kind message n.id n.label).withConnection c)
        ((Diagnostic.forNode kind message n'.id n'.label).withConnection c)

variable {depth : Nat} {text : String → String → Prop} {note : Diagnostic → Diagnostic → Prop}
  {job job' : Job} {d d' e : Draft} {v : Nat} {n n' : Node}

namespace Like

theorem fitting_eq (hjob : Like text note job job') : job'.fitting = job.fitting := by
  funext v
  rw [fitting, hjob.fittings, fitting]

theorem opensScope_eq (hjob : Like text note job job') : job'.opensScope = job.opensScope := by
  funext v
  rw [opensScope, hjob.fitting_eq, opensScope]

section Statements

variable (hjob : Like text note job job') (h : Draft.Like depth text note d d')
  (hn : job.graph.node? v = some n) (hn' : job'.graph.node? v = some n')

include hjob h

/-- A value has the same expression. -/
theorem sourceText_eq (b : Binding) : job'.sourceText d' b = job.sourceText d b := by
  have hname : (job'.graph.node? b.source).map (job'.nameOf b.source) =
      (job.graph.node? b.source).map (job.nameOf b.source) := by
    cases hsource : job.graph.node? b.source with
    | none =>
      rw [hjob.graph.node?_eq_none hsource]
      rfl
    | some m =>
      obtain ⟨m', hm', -⟩ := hjob.graph.exists_node hsource
      rw [hm', Option.map_some, Option.map_some, hjob.names _ m m' hsource hm']
  rw [sourceText, hname, Draft.value?, h.values, sourceText, Draft.value?]

include hn hn'

theorem boundArgument (p : Port) (b : Binding) :
    Argument.Like note (job.boundArgument d n p b) (job'.boundArgument d' n' p b) := by
  have htext := hjob.sourceText_eq h b
  have htype := congrFun (congrFun hjob.graph.outputType b.source) b.sourcePort
  constructor
  · simp only [Job.boundArgument, htext, htype, hjob.conversions]
  · simp only [Job.boundArgument, htext, htype, hjob.conversions, hjob.graph.idAt]
    cases conversionNote? _ _ p with
    | none => exact .nil
    | some x =>
      have hid := (hjob.graph.node hn hn').id
      have hnote := (hjob.notes v n n' hn hn' x.1 x.2).2
      refine .cons ?_ .nil
      rw [hid] at hnote ⊢
      exact hnote _

theorem argument (p : Port) :
    Argument.Like note (job.argument d v n p) (job'.argument d' v n' p) := by
  rw [Job.argument, Job.argument, hjob.graph.binding?]
  cases job.graph.binding? v p.id with
  | some b => exact hjob.boundArgument h hn hn' p b
  | none =>
    dsimp only
    rw [freeArgument, freeArgument]
    cases p.default with
    | some value => exact ⟨rfl, .nil⟩
    | none =>
      refine ⟨rfl, ?_⟩
      dsimp only
      split
      · exact .cons (hjob.notes v n n' hn hn' _ _).1 .nil
      · exact .nil

theorem loopVariable (p : Port) :
    Argument.Like note (job.loopVariable d v n p) (job'.loopVariable d' v n' p) := by
  rw [Job.loopVariable, Job.loopVariable, hjob.graph.binding?]
  cases job.graph.binding? v p.id with
  | some b => exact hjob.boundArgument h hn hn' p b
  | none =>
    refine ⟨?_, .nil⟩
    dsimp only
    rw [itemName, hjob.names v n n' hn hn', itemName]

/-- All arguments of a node are alike. -/
theorem arguments : List.Forall₂ (Argument.Like note) (n.inputs.map (job.argument d v n))
    (n'.inputs.map (job'.argument d' v n')) := by
  rw [(hjob.graph.node hn hn').inputs, List.forall₂_map_left_iff, List.forall₂_map_right_iff,
    List.forall₂_same]
  exact fun p _ => hjob.argument h hn hn' p

end Statements

/-- Like arguments have the same texts. -/
theorem texts_eq {as as' : List Argument} (h : List.Forall₂ (Argument.Like note) as as') :
    as'.map (·.text) = as.map (·.text) := by
  induction h with
  | nil => rfl
  | cons hfirst _ ih => rw [List.map_cons, List.map_cons, hfirst.text, ih]

/-- Like arguments have like reports. -/
theorem notes_alike {as as' : List Argument} (h : List.Forall₂ (Argument.Like note) as as') :
    List.Forall₂ note (as.flatMap (·.notes)) (as'.flatMap (·.notes)) := by
  induction h with
  | nil => exact .nil
  | cons hfirst _ ih =>
    rw [List.flatMap_cons, List.flatMap_cons]
    exact List.rel_append hfirst.notes ih

section Lines

variable (hjob : Like text note job job') (h : Draft.Like depth text note d d')
  (hn : job.graph.node? v = some n) (hn' : job'.graph.node? v = some n')

include hjob h hn hn'

theorem writeFilled (kind : PatternKind) (filled : String) :
    Draft.Like depth text note (job.writeFilled d v n kind filled)
      (job'.writeFilled d' v n' kind filled) := by
  cases kind with
  | expression =>
    simp only [Job.writeFilled, hjob.names v n n' hn hn', (hjob.graph.node hn hn').outputs]
    exact (h.writeLines hjob.texts _ _).bindOutputs _ _ _
  | statement =>
    change Draft.Like depth text note (List.foldl _ d _) (List.foldl _ d' _)
    generalize ((Text.lines filled).map Text.trim).filter _ = lines
    induction lines generalizing d d' with
    | nil => exact h
    | cons l lines ih => exact ih (h.write _ (hjob.texts l))
  | block => exact h.writeLines hjob.texts _ _

theorem writePattern (p : Pattern) :
    Draft.Like depth text note (job.writePattern d v n p) (job'.writePattern d' v n' p) := by
  have harguments := hjob.arguments h hn hn'
  simp only [Job.writePattern, texts_eq harguments, ← harguments.length_eq]
  refine hjob.writeFilled (((h.report (notes_alike harguments)).report ?_).require _) hn hn' _ _
  rw [List.forall₂_map_left_iff, List.forall₂_map_right_iff, List.forall₂_same]
  exact fun index _ => (hjob.notes v n n' hn hn' _ _).1

theorem writeOutput :
    ∃ e e', job.writeOutput d v n = .ok e ∧ job'.writeOutput d' v n' = .ok e' ∧
      Draft.Like depth text note e e' := by
  have hinputs' := (hjob.graph.node hn hn').inputs
  rw [Job.writeOutput, Job.writeOutput, hjob.mode, hinputs']
  cases job.mode with
  | dataFlow => exact ⟨_, _, rfl, rfl, h.defer v⟩
  | execution =>
    cases hinputs : n.inputs with
    | nil => exact ⟨_, _, rfl, rfl, h.write _ (hjob.texts _)⟩
    | cons p ps =>
      have hargument := hjob.argument h hn hn' p
      simp only [argumentAt, hinputs', hinputs, List.getElem?_cons_zero, List.isEmpty_cons,
        Bool.false_eq_true, if_false]
      refine ⟨_, _, rfl, rfl, ?_⟩
      rw [hargument.text]
      exact (h.report hargument.notes).write _ (hjob.texts _)

end Lines

section Nodes

variable (hjob : Like text note job job') (h : Draft.Like depth text note d d')

include hjob h

/-- The lines of a node are alike. -/
theorem writeGuarded (v : Nat) :
    Draft.Like depth text note (job.writeGuarded d v) (job'.writeGuarded d' v) := by
  cases hn : job.graph.node? v with
  | none =>
    have hn' := hjob.graph.node?_eq_none hn
    simp only [Job.writeGuarded, writeNode, node, hn, hn']
    exact (h.write _ (hjob.texts _)).report (.cons (hjob.faults _) .nil)
  | some n =>
    obtain ⟨n', hn', hrelabels⟩ := hjob.graph.exists_node hn
    simp only [Job.writeGuarded, writeNode, node_eq_ok hn, node_eq_ok hn', hjob.fitting_eq,
      hrelabels.kind]
    cases hfitting : job.fitting v with
    | pattern p => exact hjob.writePattern h hn hn' p
    | missing function => exact h.write _ (hjob.comments v n n' function hn hn' hfitting)
    | absent =>
      cases n.kind with
      | input =>
        simp only [writeInput, hjob.names v n n' hn hn', hrelabels.outputs, hrelabels.declaredLiteral]
        exact (h.write _ (hjob.texts _)).bindOutputs _ _ _
      | output =>
        obtain ⟨e, e', he, he', hlike⟩ := hjob.writeOutput h hn hn'
        simp only [he, he']
        exact hlike
      | plain | conditional | loop | start | finish => exact h

theorem writeAlone (v : Nat) :
    Draft.Like depth text note (job.writeAlone v d) (job'.writeAlone v d') := by
  have hlines := hjob.writeGuarded h v
  simp only [Job.writeAlone, hjob.opensScope_eq]
  split
  · exact ((hlines.openArm _ _).write _ (hjob.texts _)).closeArm (Nat.succ_pos _) _ _
  · exact hlines

/-- The first argument of a conditional, and the arguments of a loop's head, decide whether and how a
node becomes a block. -/
theorem loopHead? (hn : job.graph.node? v = some n) (hn' : job'.graph.node? v = some n') :
    job.loopHead? d v n = none ∧ job'.loopHead? d' v n' = none ∨
      ∃ name name' collection collection', job.loopHead? d v n = some (name, collection) ∧
        job'.loopHead? d' v n' = some (name', collection') ∧ Argument.Like note name name' ∧
        Argument.Like note collection collection' := by
  rw [Job.loopHead?, Job.loopHead?, (hjob.graph.node hn hn').inputs]
  cases n.inputs with
  | nil => exact .inl ⟨rfl, rfl⟩
  | cons p ps =>
    right
    cases ps with
    | nil =>
      refine ⟨_, _, _, _, rfl, rfl, ⟨?_, .nil⟩, hjob.argument h hn hn' p⟩
      dsimp only
      rw [itemName, hjob.names v n n' hn hn', itemName]
    | cons q qs =>
      exact ⟨_, _, _, _, rfl, rfl, hjob.loopVariable h hn hn' p, hjob.argument h hn hn' q⟩

/-- A node becomes the same block in both, or none in either. -/
theorem block? (v : Nat) :
    job.block? d v = none ∧ job'.block? d' v = none ∨
      ∃ b s s', job.block? d v = some (b, s) ∧ job'.block? d' v = some (b, s') ∧
        Draft.Like depth text note s s' := by
  have hunclaimed : job'.unclaimed = job.unclaimed := by
    funext u claimed
    rw [unclaimed, hjob.graph.successors, unclaimed]
  rw [Job.block?, Job.block?]
  cases hn : job.graph.node? v with
  | none =>
    rw [hjob.graph.node?_eq_none hn]
    exact .inl ⟨rfl, rfl⟩
  | some n =>
    obtain ⟨n', hn', hrelabels⟩ := hjob.graph.exists_node hn
    rw [hn', Option.bind_some, Option.bind_some, hrelabels.kind]
    cases n.kind with
    | plain | input | output | start | finish => exact .inl ⟨rfl, rfl⟩
    | conditional =>
      simp only [conditionalBlock?, hrelabels.inputs]
      cases n.inputs.head? with
      | none => exact .inl ⟨rfl, rfl⟩
      | some p =>
        have hcondition := hjob.argument h hn hn' p
        right
        simp only [Option.map_some, hcondition.text, hjob.graph.branchTargets, hunclaimed]
        exact ⟨_, _, _, rfl, rfl, h.report hcondition.notes⟩
    | loop =>
      simp only [loopBlock?]
      rcases hjob.loopHead? h hn hn' with ⟨hnone, hnone'⟩ |
          ⟨name, name', collection, collection', hsome, hsome', hname, hcollection⟩
      · rw [hnone, hnone']
        exact .inl ⟨rfl, rfl⟩
      · right
        simp only [hsome, hsome', Option.map_some, hname.text, hcollection.text,
          hjob.graph.branchTargets, hunclaimed, hrelabels.outputs]
        exact ⟨_, _, _, rfl, rfl,
          (h.report (List.rel_append hname.notes hcollection.notes)).bindOutputs _ _ _⟩

end Nodes

section Regions

variable (hjob : Like text note job job') (h : Draft.Like depth text note d d')

include hjob h

theorem flowRegion_eq (targets : List Nat) : job'.flowRegion d' targets = job.flowRegion d targets := by
  rw [flowRegion, hjob.graph.size, hjob.graph.successors, h.entered, h.barriers, flowRegion]

theorem dataNeeds_eq (region : List Nat) : job'.dataNeeds d' region = job.dataNeeds d region := by
  rw [dataNeeds, hjob.graph.size, hjob.graph.dependencies, h.entered, hjob.graph.isDataOnly, dataNeeds]

theorem hoistable_eq (owner v : Nat) : job'.hoistable d' owner v = job.hoistable d owner v := by
  rw [hoistable, hjob.graph.size, hjob.graph.dependencies, h.entered, hjob.graph.isDataOnly, hoistable]

theorem joins_eq (b : Block) : job'.joins d' b = job.joins d b := by
  have hregion : job'.flowRegion d' = job.flowRegion d := funext fun targets =>
    hjob.flowRegion_eq h targets
  rw [joins, hjob.order, regions, hregion, joins, regions]

theorem regionNeeds_eq (b : Block) : job'.regionNeeds d' b = job.regionNeeds d b := by
  have hregion : job'.flowRegion d' = job.flowRegion d := funext fun targets =>
    hjob.flowRegion_eq h targets
  have hneeds : job'.dataNeeds d' = job.dataNeeds d := funext fun region =>
    hjob.dataNeeds_eq h region
  rw [regionNeeds, hjob.joins_eq h, hregion, hneeds, regionNeeds]

theorem held_eq (b : Block) : job'.held d' b = job.held d b := by
  rw [held, hjob.joins_eq h, h.barriers, held]

end Regions

end Like

/-- Like jobs do like work. -/
theorem Emits.like {t : Task} (hjob : Like text note job job') (hemits : Emits job t d e)
    (h : Draft.Like depth text note d d') :
    ∃ e', Emits job' t d' e' ∧ Draft.Like depth text note e e' := by
  have hdependencies := hjob.graph.dependencies
  have hsuccessors := hjob.graph.successors
  induction hemits generalizing d' with
  | value_skip hin => exact ⟨d', .value_skip (h.entered ▸ hin), h⟩
  | @value_enter v _ _ hnew _ ih =>
    obtain ⟨e', hdeps, he⟩ := ih (h.enter v)
    rw [← hdependencies] at hdeps
    exact ⟨_, .value_enter (h.entered ▸ hnew) hdeps, hjob.writeAlone he v⟩
  | values_nil => exact ⟨d', .values_nil, h⟩
  | values_cons _ _ ih ih' =>
    obtain ⟨e', hfirst, he⟩ := ih h
    obtain ⟨f', hrest, hf⟩ := ih' he
    exact ⟨f', .values_cons hfirst hrest, hf⟩
  | hoists_nil => exact ⟨d', .hoists_nil, h⟩
  | hoists_take hshared hhoistable _ _ ih ih' =>
    obtain ⟨e', hfirst, he⟩ := ih h
    obtain ⟨f', hrest, hf⟩ := ih' he
    exact ⟨f', .hoists_take hshared ((hjob.hoistable_eq h _ _).trans hhoistable) hfirst hrest, hf⟩
  | hoists_leave hleave _ ih =>
    obtain ⟨e', hrest, he⟩ := ih h
    refine ⟨e', .hoists_leave ?_ hrest, he⟩
    rwa [hjob.hoistable_eq h]
  | flow_skip hmet =>
    refine ⟨d', .flow_skip ?_, h⟩
    rwa [h.barriers, h.entered]
  | @flow_plain v _ _ _ hfree hnew _ hnone hscope _ ihDeps ih =>
    obtain ⟨e', hdeps, he⟩ := ihDeps (h.enter v)
    obtain ⟨f', hflows, hf⟩ := ih (hjob.writeGuarded he v)
    rw [← hdependencies] at hdeps
    rw [← hsuccessors] at hflows
    rcases hjob.block? he v with ⟨-, hnone'⟩ | ⟨b, s, s', hsome, -⟩
    · exact ⟨f', .flow_plain (h.barriers ▸ hfree) (h.entered ▸ hnew) hdeps hnone'
        (hjob.opensScope_eq ▸ hscope) hflows, hf⟩
    · cases hnone.symm.trans hsome
  | @flow_scope v _ _ _ hfree hnew _ hnone hscope _ ihDeps ih =>
    obtain ⟨e', hdeps, he⟩ := ihDeps (h.enter v)
    obtain ⟨f', hflows, hf⟩ := ih (hjob.writeGuarded he v)
    rw [← hdependencies] at hdeps
    rw [← hsuccessors] at hflows
    rcases hjob.block? he v with ⟨-, hnone'⟩ | ⟨b, s, s', hsome, -⟩
    · exact ⟨f', .flow_scope (h.barriers ▸ hfree) (h.entered ▸ hnew) hdeps hnone'
        (hjob.opensScope_eq ▸ hscope) hflows, hf⟩
    · cases hnone.symm.trans hsome
  | @flow_block v _ _ b s _ hfree hnew _ hblock _ ihDeps ih =>
    obtain ⟨e', hdeps, he⟩ := ihDeps (h.enter v)
    rw [← hdependencies] at hdeps
    rcases hjob.block? he v with ⟨hnone, -⟩ | ⟨b', s₁, s', hsome, hsome', hs⟩
    · cases hnone.symm.trans hblock
    · obtain ⟨rfl, rfl⟩ := Prod.mk.inj (Option.some.inj (hsome.symm.trans hblock))
      obtain ⟨f', hwalk, hf⟩ := ih hs
      exact ⟨f', .flow_block (h.barriers ▸ hfree) (h.entered ▸ hnew) hdeps hsome' hwalk, hf⟩
  | @block owner b d _ _ _ _ _ _ _ _ ihHoists ihArms ihRest ihHeld =>
    obtain ⟨e', hhoists, he⟩ := ihHoists h
    obtain ⟨f', harms, hf⟩ := ihArms ((he.hold (job.held d b)).write (some owner) (hjob.texts b.header))
    obtain ⟨k', hrest, hk⟩ := ihRest (hf.letGo (job.held d b))
    obtain ⟨i', hlast, hi⟩ := ihHeld hk
    rw [← hjob.regionNeeds_eq h, ← hjob.order] at hhoists
    rw [← hjob.held_eq h] at harms hrest hlast
    exact ⟨i', .block hhoists harms hrest hlast, hi⟩
  | flows_nil => exact ⟨d', .flows_nil, h⟩
  | flows_cons _ _ ih ih' =>
    obtain ⟨e', hfirst, he⟩ := ih h
    obtain ⟨f', hrest, hf⟩ := ih' he
    exact ⟨f', .flows_cons hfirst hrest, hf⟩
  | arms_nil => exact ⟨d', .arms_nil, h⟩
  | @arms_cons owner arm targets rest d e _ harm _ ihArm ihRest =>
    have hopen := h.openArm owner arm
    -- the arm is filled one level above the one at which it is opened
    have hlevel : 0 < e.level := by
      rw [harm.extends.level]
      exact Nat.succ_pos _
    obtain ⟨e', harm', he⟩ := ihArm hopen
    obtain ⟨f', hrest, hf⟩ :=
      ihRest ((hopen.endArm he hjob.texts hlevel owner arm).nextArm hjob.texts rest)
    exact ⟨f', .arms_cons harm' hrest, hf⟩

/-- Like jobs do like pieces of work one after the other. -/
theorem Performs.like {ts : List Task} (hjob : Like text note job job') (hperforms : Performs job ts d e)
    (h : Draft.Like depth text note d d') :
    ∃ e', Performs job' ts d' e' ∧ Draft.Like depth text note e e' := by
  induction hperforms generalizing d' with
  | nil => exact ⟨d', .nil, h⟩
  | cons hfirst _ ih =>
    obtain ⟨e', hemits, he⟩ := hfirst.like hjob h
    obtain ⟨f', hrest, hf⟩ := ih he
    exact ⟨f', .cons hemits hrest, hf⟩

namespace Like

/-- Like jobs have the same pieces of work to do. -/
theorem bodyTasks_eq (hjob : Like text note job job') : job'.bodyTasks = job.bodyTasks := by
  have hplain : job'.isPlainInput = job.isPlainInput := by
    funext v
    exact hjob.graph.node?_congr
      (fun o => o.any fun n => n.kind = .input ∧ ¬ n.hasExecutionPorts) (fun _ _ => rfl) v
  have hinput : job'.isInput = job.isInput := by
    funext v
    exact hjob.graph.node?_congr (fun o => o.any fun n => n.kind = .input) (fun _ _ => rfl) v
  have hentry : job'.entryTasks = job.entryTasks := by
    funext entry
    rw [entryTasks, entryMembers, hjob.graph.groups, hplain, entryTasks, entryMembers]
  rw [bodyTasks, hjob.mode, hjob.graph.entryPoints, hentry, hjob.order, hinput, bodyTasks]

/-- The values that are returned together at the end are alike. -/
theorem returned? (hjob : Like text note job job') (h : Draft.Like depth text note d d')
    (vs : List Nat) : List.Forall₂ (Argument.Like note) (vs.filterMap (job.returned? d))
      (vs.filterMap (job'.returned? d')) := by
  induction vs with
  | nil => exact .nil
  | cons v vs ih =>
    rw [List.filterMap_cons, List.filterMap_cons, Job.returned?, Job.returned?]
    cases hn : job.graph.node? v with
    | none =>
      rw [hjob.graph.node?_eq_none hn]
      exact ih
    | some n =>
      obtain ⟨n', hn', hrelabels⟩ := hjob.graph.exists_node hn
      rw [hn', Option.bind_some, Option.bind_some, hrelabels.inputs]
      cases n.inputs.head? with
      | none => exact ih
      | some p => exact .cons (hjob.argument h hn hn' p) ih

theorem closing (hjob : Like text note job job') (h : Draft.Like depth text note d d') :
    Draft.Like depth text note (job.closing d) (job'.closing d') := by
  have harguments := hjob.returned? h d.deferred
  have hreport := h.report (notes_alike harguments)
  simp only [Job.closing, returnAll, hjob.mode, h.deferred, texts_eq harguments]
  cases job.mode with
  | execution => exact h
  | dataFlow =>
    dsimp only
    split
    · exact hreport
    · exact hreport.write none (hjob.texts _)

/-- Like jobs write like bodies. -/
theorem body (hjob : Like text note job job') (hwell : job.WellFormed) (hwell' : job'.WellFormed)
    (h : Draft.Like depth text note d d') (hdeferred : d.deferred ⊆ d.entered)
    (hentered : ∀ v ∈ d.entered, v < job.graph.size) :
    ∃ e e', job.body d = .ok e ∧ job'.body d' = .ok e' ∧ Draft.Like depth text note e e' := by
  obtain ⟨e, hperforms, hbody⟩ := body_performs hwell d hdeferred hentered
  obtain ⟨e', hperforms', hbody'⟩ := body_performs hwell' d'
    (by rwa [h.deferred, h.entered]) (by rwa [h.entered, hjob.graph.size])
  obtain ⟨f', hlike', hf⟩ := hperforms.like hjob h
  rw [← hjob.bodyTasks_eq] at hlike'
  obtain rfl := hperforms'.unique hlike'
  exact ⟨_, _, hbody, hbody', hjob.closing hf⟩

end Like

end Job

end FlowScript
