import FlowScript.Proofs.Groups
import FlowScript.Generator

/-!
# The order of the edges

The program of a graph depends on the edges only through the links of each node: the data edges into
it and the execution edges into and out of it, each in order. Two edges that are in no such list
together can change places, and an edge that joins no nodes can be left out. All functions that read
a graph are followed from its links up to the program.
-/

namespace FlowScript

namespace FlowGraph

/-- Two graphs have the same nodes, and each node has the same links in the same order. -/
structure SameLinks (g g' : FlowGraph) : Prop where
  nodes : g'.nodes = g.nodes
  dataInto : g'.dataInto = g.dataInto
  executionInto : g'.executionInto = g.executionInto
  executionFrom : g'.executionFrom = g.executionFrom

namespace SameLinks

variable {g g' : FlowGraph}

theorem size (h : SameLinks g g') : g'.size = g.size := by
  rw [FlowGraph.size, h.nodes, FlowGraph.size]

theorem positions (h : SameLinks g g') : g'.positions = g.positions := by
  rw [FlowGraph.positions, h.size, FlowGraph.positions]

theorem node? (h : SameLinks g g') : g'.node? = g.node? := by
  funext v
  rw [FlowGraph.node?, h.nodes, FlowGraph.node?]

theorem idAt (h : SameLinks g g') : g'.idAt = g.idAt := by
  funext v
  rw [FlowGraph.idAt, h.node?, FlowGraph.idAt]

theorem hasExecutionPorts (h : SameLinks g g') : g'.hasExecutionPorts = g.hasExecutionPorts := by
  funext v
  rw [FlowGraph.hasExecutionPorts, h.node?, FlowGraph.hasExecutionPorts]

theorem isDataOnly (h : SameLinks g g') : g'.isDataOnly = g.isDataOnly := by
  funext v
  rw [FlowGraph.isDataOnly, h.node?, FlowGraph.isDataOnly]

theorem anyExecutionPorts (h : SameLinks g g') : g'.anyExecutionPorts = g.anyExecutionPorts := by
  rw [FlowGraph.anyExecutionPorts, h.nodes, FlowGraph.anyExecutionPorts]

theorem outputType (h : SameLinks g g') : g'.outputType = g.outputType := by
  funext v port
  rw [FlowGraph.outputType, h.node?, FlowGraph.outputType]

theorem dependencies (h : SameLinks g g') : g'.dependencies = g.dependencies := by
  funext v
  rw [FlowGraph.dependencies, h.dataInto, FlowGraph.dependencies]

theorem bindings (h : SameLinks g g') : g'.bindings = g.bindings := by
  funext v
  rw [FlowGraph.bindings, h.dataInto, FlowGraph.bindings]

theorem binding? (h : SameLinks g g') : g'.binding? = g.binding? := by
  funext v port
  rw [FlowGraph.binding?, h.bindings, FlowGraph.binding?]

theorem successors (h : SameLinks g g') : g'.successors = g.successors := by
  funext v
  rw [FlowGraph.successors, h.executionFrom, FlowGraph.successors]

theorem predecessors (h : SameLinks g g') : g'.predecessors = g.predecessors := by
  funext v
  rw [FlowGraph.predecessors, h.executionInto, FlowGraph.predecessors]

theorem branches (h : SameLinks g g') : g'.branches = g.branches := by
  funext v
  rw [FlowGraph.branches, h.executionFrom, FlowGraph.branches]

theorem branchTargets (h : SameLinks g g') : g'.branchTargets = g.branchTargets := by
  funext v labels
  rw [FlowGraph.branchTargets, h.branches, FlowGraph.branchTargets]

theorem entryPoints (h : SameLinks g g') : g'.entryPoints = g.entryPoints := by
  simp only [FlowGraph.entryPoints, h.anyExecutionPorts, h.positions, h.hasExecutionPorts,
    h.predecessors, h.node?]

theorem exitPoints (h : SameLinks g g') : g'.exitPoints = g.exitPoints := by
  simp only [FlowGraph.exitPoints, h.positions, h.hasExecutionPorts, h.successors]

theorem schedule (h : SameLinks g g') : g'.schedule = g.schedule := by
  have hneeds : g'.needs = g.needs := by
    funext v
    simp only [needs, h.dependencies, h.predecessors]
  rw [FlowGraph.schedule, h.size, hneeds, FlowGraph.schedule]

theorem cycleReports (h : SameLinks g g') : g'.cycleReports = g.cycleReports := by
  have hreport : g'.cycleReport = g.cycleReport := by
    funext c
    simp only [cycleReport, h.idAt, h.node?]
  funext s
  rw [FlowGraph.cycleReports, hreport, FlowGraph.cycleReports]

theorem groups (h : SameLinks g g') : g'.groups = g.groups :=
  groups_congr h.size h.dependencies h.successors h.entryPoints

theorem mode (h : SameLinks g g') : Generator.mode g' = Generator.mode g := by
  rw [Generator.mode, h.anyExecutionPorts, h.entryPoints, Generator.mode]

end SameLinks

end FlowGraph

namespace Job

/-- The job with another graph. -/
def on (job : Job) (g : FlowGraph) : Job :=
  { job with graph := g }

variable {job : Job} {g : FlowGraph}

theorem graph_on (job : Job) (g : FlowGraph) : (job.on g).graph = g :=
  rfl

theorem nameOf_on (job : Job) (g : FlowGraph) : (job.on g).nameOf = job.nameOf :=
  rfl

section Statements

theorem node_on (h : job.graph.SameLinks g) : (job.on g).node = job.node := by
  funext v
  rw [node, graph_on, h.node?, node]

theorem boundArgument_on (h : job.graph.SameLinks g) :
    (job.on g).boundArgument = job.boundArgument := by
  have hsource : (job.on g).sourceText = job.sourceText := by
    funext d b
    rw [sourceText, graph_on, h.node?, nameOf_on, sourceText]
  funext d n p b
  rw [boundArgument, hsource, graph_on, h.outputType, h.idAt]
  rfl

theorem argument_on (h : job.graph.SameLinks g) : (job.on g).argument = job.argument := by
  funext d v n p
  rw [argument, boundArgument_on h, graph_on, h.binding?, argument]

theorem argumentAt_on (h : job.graph.SameLinks g) : (job.on g).argumentAt = job.argumentAt := by
  funext d v n index
  rw [argumentAt, argument_on h, argumentAt]

theorem writeNode_on (h : job.graph.SameLinks g) : (job.on g).writeNode = job.writeNode := by
  have hpattern : (job.on g).writePattern = job.writePattern := by
    funext d v n p
    rw [writePattern, argument_on h]
    rfl
  have houtput : (job.on g).writeOutput = job.writeOutput := by
    funext d v n
    rw [writeOutput, argumentAt_on h]
    rfl
  funext d v
  rw [writeNode, node_on h, hpattern, houtput]
  rfl

theorem writeGuarded_on (h : job.graph.SameLinks g) :
    (job.on g).writeGuarded = job.writeGuarded := by
  funext d v
  rw [writeGuarded, writeNode_on h, graph_on, h.node?, writeGuarded]

theorem standalone_on (h : job.graph.SameLinks g) : (job.on g).standalone = job.standalone := by
  funext budget
  induction budget with
  | zero => rfl
  | succ budget ih =>
    funext v d
    rw [standalone, ih, writeGuarded_on h, graph_on, h.dependencies]
    rfl

theorem enter_on (h : job.graph.SameLinks g) : (job.on g).enter = job.enter := by
  funext v d
  rw [enter, standalone_on h, graph_on, h.dependencies, h.size, enter]

end Statements

section Blocks

theorem splitRegions_on (h : job.graph.SameLinks g) :
    (job.on g).splitRegions = job.splitRegions := by
  have hflow : (job.on g).flowRegion = job.flowRegion := by
    funext d targets
    rw [flowRegion, graph_on, h.size, h.successors, flowRegion]
  have hdata : (job.on g).dataNeeds = job.dataNeeds := by
    funext d region
    rw [dataNeeds, graph_on, h.size, h.dependencies, h.isDataOnly, dataNeeds]
  have hhoistable : (job.on g).hoistable = job.hoistable := by
    funext d owner v
    rw [hoistable, graph_on, h.size, h.dependencies, h.isDataOnly, hoistable]
  have hhoist : (job.on g).hoist = job.hoist := by
    funext owner needs d
    rw [hoist, hhoistable, standalone_on h, graph_on, h.size]
    rfl
  funext owner arms rest d
  rw [splitRegions, hflow, hdata, hhoist]
  rfl

theorem block?_on (h : job.graph.SameLinks g) : (job.on g).block? = job.block? := by
  have hunclaimed : (job.on g).unclaimed = job.unclaimed := by
    funext v claimed
    rw [unclaimed, graph_on, h.successors, unclaimed]
  have hconditional : (job.on g).conditionalBlock? = job.conditionalBlock? := by
    funext d v n
    rw [conditionalBlock?, argument_on h, hunclaimed, graph_on, h.branchTargets, conditionalBlock?]
  have hvariable : (job.on g).loopVariable = job.loopVariable := by
    funext d v n p
    rw [loopVariable, boundArgument_on h, graph_on, h.binding?]
    rfl
  have hhead : (job.on g).loopHead? = job.loopHead? := by
    funext d v n
    rw [loopHead?, argument_on h, hvariable]
    rfl
  have hloop : (job.on g).loopBlock? = job.loopBlock? := by
    funext d v n
    rw [loopBlock?, hhead, hunclaimed, graph_on, h.branchTargets, loopBlock?]
  funext d v
  rw [block?, hconditional, hloop, graph_on, h.node?, block?]

theorem flow_on (h : job.graph.SameLinks g) : (job.on g).flow = job.flow := by
  have hblock : (job.on g).walkBlock = job.walkBlock := by
    funext walk owner b d
    rw [walkBlock, splitRegions_on h, walkBlock]
  have hplain : (job.on g).walkPlain = job.walkPlain := by
    funext walk v d
    rw [walkPlain, writeGuarded_on h, graph_on, h.successors]
    rfl
  funext budget
  induction budget with
  | zero => rfl
  | succ budget ih =>
    funext v d
    rw [flow, ih, enter_on h, block?_on h, hblock, hplain, flow]

end Blocks

section Bodies

theorem executionBody_on (h : job.graph.SameLinks g) :
    (job.on g).executionBody = job.executionBody := by
  have hdeclare : (job.on g).declareInputs = job.declareInputs := by
    funext members d
    rw [declareInputs, node_on h, standalone_on h, graph_on, h.size, declareInputs]
  have hentry : (job.on g).walkEntry = job.walkEntry := by
    funext groups d entry
    rw [walkEntry, hdeclare, flow_on h, graph_on, h.size, walkEntry]
  funext d
  rw [executionBody, hentry, flow_on h, graph_on, h.size, h.entryPoints, h.groups]
  rfl

theorem dataFlowBody_on (h : job.graph.SameLinks g) :
    (job.on g).dataFlowBody = job.dataFlowBody := by
  have hinputs : (job.on g).inputsFirst = job.inputsFirst := by
    funext d
    rw [inputsFirst, node_on h, standalone_on h, graph_on, h.size]
    rfl
  have hreturn : (job.on g).returnValue = job.returnValue := by
    funext r v
    rw [returnValue, node_on h, argumentAt_on h, returnValue]
  funext d
  rw [dataFlowBody, hinputs, standalone_on h, graph_on, h.size, hreturn]
  rfl

/-- The body that a job writes depends on the graph only through its nodes and their links. -/
theorem body_on (h : job.graph.SameLinks g) : (job.on g).body = job.body := by
  funext d
  rw [body, executionBody_on h, dataFlowBody_on h]
  rfl

end Bodies

end Job

/-- What is resolved about a graph: its schedule with the cycles, where it starts and ends, its groups,
and the links of every node. -/
structure FlowGraph.SameResolution (g g' : FlowGraph) : Prop where
  schedule : g'.schedule = g.schedule
  entryPoints : g'.entryPoints = g.entryPoints
  exitPoints : g'.exitPoints = g.exitPoints
  groups : g'.groups = g.groups
  dependencies : g'.dependencies = g.dependencies
  bindings : g'.bindings = g.bindings
  successors : g'.successors = g.successors
  predecessors : g'.predecessors = g.predecessors
  branches : g'.branches = g.branches

/-- Two documents are resolved in the same way, and generators for them do the same with every source:
they write the same program with the same reports, know the same then, and leave the source in the
same state. -/
structure Document.SameProgram (doc doc' : Document) : Prop where
  resolution : (FlowGraph.ofDocument doc).SameResolution (.ofDocument doc')
  run : ∀ {σ : Type} (ask : PatternSource σ) (s : σ) (settings : Settings)
    (conversions : Conversions) (known : List (String × Option Pattern)),
    let result (doc : Document) :=
      (⟨.ofDocument doc, settings, conversions, known⟩ : Generator).run ask s
    (result doc').1 = (result doc).1 ∧ (result doc').2.1.known = (result doc).2.1.known ∧
      (result doc').2.2 = (result doc).2.2

namespace FlowGraph

/-- The same links are resolved in the same way. -/
theorem SameLinks.sameResolution {g g' : FlowGraph} (h : SameLinks g g') : SameResolution g g' where
  schedule := h.schedule
  entryPoints := h.entryPoints
  exitPoints := h.exitPoints
  groups := h.groups
  dependencies := h.dependencies
  bindings := h.bindings
  successors := h.successors
  predecessors := h.predecessors
  branches := h.branches

/-- The same links make the same program. -/
theorem SameLinks.sameProgram {doc doc' : Document}
    (h : SameLinks (.ofDocument doc) (.ofDocument doc')) : doc.SameProgram doc' where
  resolution := h.sameResolution
  run := by
    intro σ ask s settings conversions known
    let gen : Generator := ⟨.ofDocument doc, settings, conversions, known⟩
    let gen' : Generator := ⟨.ofDocument doc', settings, conversions, known⟩
    have hfit : gen'.fitAll ask s = gen.fitAll ask s :=
      congrArg (List.foldl (Generator.fitNode ask settings.language) ⟨[], [], known, s⟩) h.nodes
    have hjob (schedule : Schedule) (fittings : List Fitting) :
        gen'.job schedule fittings = (gen.job schedule fittings).on gen'.graph := by
      rw [Generator.job, h.nodes, h.mode]
      rfl
    have hwrite : gen'.write = gen.write := by
      funext fittings notes
      rw [Generator.write, h.schedule, h.cycleReports, hjob, Job.body_on h]
      rfl
    refine ⟨?_, congrArg Fitted.known hfit, congrArg Fitted.source hfit⟩
    change gen'.write (gen'.fitAll ask s).fittings (gen'.fitAll ask s).notes = _
    rw [hfit, hwrite]
    rfl

end FlowGraph

/-- Two edges are in no list of links together. -/
structure Edge.Apart (x y : Edge) : Prop where
  data : x.kind = .data → y.kind = .data → x.target ≠ y.target
  execution : x.kind = .execution → y.kind = .execution → x.source ≠ y.source ∧ x.target ≠ y.target

/-- Neighbours of which a filter drops one can change places. -/
theorem filter_swap {α : Type} {p : α → Bool} {x y : α} (h : p x = true → p y = false)
    (before after : List α) :
    (before ++ y :: x :: after).filter p = (before ++ x :: y :: after).filter p := by
  rw [List.filter_append, List.filter_append]
  cases hx : p x with
  | false => simp [List.filter_cons, hx]
  | true => simp [hx, h hx]

/-- Edges that are in no list of links together can change places. -/
theorem Edge.Apart.sameLinks {x y : Edge} (h : x.Apart y) (nodes : List Node)
    (before after : List Edge) : FlowGraph.SameLinks ⟨nodes, before ++ x :: y :: after⟩
      ⟨nodes, before ++ y :: x :: after⟩ where
  nodes := rfl
  dataInto := by
    funext v
    refine filter_swap (fun hx => ?_) before after
    obtain ⟨hkind, rfl⟩ := of_decide_eq_true hx
    exact decide_eq_false fun hy => h.data hkind hy.1 hy.2.symm
  executionInto := by
    funext v
    refine filter_swap (fun hx => ?_) before after
    obtain ⟨hkind, rfl⟩ := of_decide_eq_true hx
    exact decide_eq_false fun hy => (h.execution hkind hy.1).2 hy.2.symm
  executionFrom := by
    funext v
    refine filter_swap (fun hx => ?_) before after
    obtain ⟨hkind, rfl⟩ := of_decide_eq_true hx
    exact decide_eq_false fun hy => (h.execution hkind hy.1).1 hy.2.symm

namespace Document.Edge

/-- The kind of an edge of a document. -/
def kind (e : Document.Edge) : EdgeKind :=
  edgeKind (e.data.bind (·.type)) (Handle.parse (e.sourceHandle.getD ""))
    (Handle.parse (e.targetHandle.getD ""))

/-- Two edges do not depend on their order: they differ in their kind, or they are data edges into
different nodes, or execution edges that have no end in common. -/
def Independent (e f : Document.Edge) : Prop :=
  match e.kind, f.kind with
  | .data, .data => e.target ≠ f.target
  | .execution, .execution => e.source ≠ f.source ∧ e.target ≠ f.target
  | .data, .execution | .execution, .data => True

end Document.Edge

/-- A position has one id. -/
theorem position?_inj {nodes : List Node} {a b : String} {v : Nat}
    (ha : position? nodes a = some v) (hb : position? nodes b = some v) : a = b := by
  obtain ⟨_, hfirst, -⟩ := List.findIdx?_eq_some_iff_getElem.mp ha
  obtain ⟨_, hsecond, -⟩ := List.findIdx?_eq_some_iff_getElem.mp hb
  exact (eq_of_beq hfirst).symm.trans (eq_of_beq hsecond)

/-- An edge that counts keeps its kind, and its ends are the positions of their ids. -/
theorem Edge.ofDocument?_eq_some {nodes : List Node} {e : Document.Edge} {x : Edge}
    (h : Edge.ofDocument? nodes e = some x) : x.kind = e.kind ∧
      position? nodes e.source = some x.source ∧ position? nodes e.target = some x.target := by
  simp only [Edge.ofDocument?, Option.bind_eq_bind, Option.bind_eq_some_iff, Option.some.injEq] at h
  obtain ⟨s, hs, t, ht, n, -, rfl⟩ := h
  exact ⟨rfl, hs, ht⟩

/-- Independent edges are in no list of links together. -/
theorem Edge.apart_of_independent {nodes : List Node} {e f : Document.Edge} {x y : Edge}
    (h : e.Independent f) (hx : Edge.ofDocument? nodes e = some x)
    (hy : Edge.ofDocument? nodes f = some y) : x.Apart y := by
  obtain ⟨hkind, hsource, htarget⟩ := Edge.ofDocument?_eq_some hx
  obtain ⟨hkind', hsource', htarget'⟩ := Edge.ofDocument?_eq_some hy
  have htargets (hne : e.target ≠ f.target) : x.target ≠ y.target :=
    fun heq => hne (position?_inj htarget (heq ▸ htarget'))
  have hsources (hne : e.source ≠ f.source) : x.source ≠ y.source :=
    fun heq => hne (position?_inj hsource (heq ▸ hsource'))
  constructor
  · intro hdata hdata'
    rw [Document.Edge.Independent, ← hkind, ← hkind', hdata, hdata'] at h
    exact htargets h
  · intro hexecution hexecution'
    rw [Document.Edge.Independent, ← hkind, ← hkind', hexecution, hexecution'] at h
    exact ⟨hsources h.1, htargets h.2⟩

/-- An edge with an end that no node has does not count. -/
theorem Edge.ofDocument?_eq_none {nodes : List Node} {e : Document.Edge}
    (h : (∀ n ∈ nodes, n.id ≠ e.source) ∨ ∀ n ∈ nodes, n.id ≠ e.target) :
    Edge.ofDocument? nodes e = none := by
  have hnone {id : String} (hid : ∀ n ∈ nodes, n.id ≠ id) : position? nodes id = none :=
    List.findIdx?_eq_none_iff.mpr fun n hn => beq_false_of_ne (hid n hn)
  rcases h with h | h
  · simp [Edge.ofDocument?, hnone h]
  · simp [Edge.ofDocument?, hnone h]

/-- Independent edges that are next to each other can change places, and an edge with an end that no
node has can be put anywhere: graph and program stay what they are, down to the order of everything
that is resolved and reported. -/
theorem Document.independent_edges_commute (nodes : List Document.Node)
    (before after : List Document.Edge) (e : Document.Edge) :
    (∀ f, e.Independent f → SameProgram ⟨nodes, before ++ e :: f :: after⟩
      ⟨nodes, before ++ f :: e :: after⟩) ∧
    ((∀ n ∈ nodes, n.id ≠ e.source) ∨ (∀ n ∈ nodes, n.id ≠ e.target) →
      SameProgram ⟨nodes, before ++ after⟩ ⟨nodes, before ++ e :: after⟩) := by
  let counted := (firstDeclared [] nodes).map Node.ofDocument
  constructor
  · intro f h
    apply FlowGraph.SameLinks.sameProgram
    simp only [FlowGraph.ofDocument, List.filterMap_append, List.filterMap_cons]
    cases he : Edge.ofDocument? counted e with
    | none => exact ⟨rfl, rfl, rfl, rfl⟩
    | some x =>
      cases hf : Edge.ofDocument? counted f with
      | none => exact ⟨rfl, rfl, rfl, rfl⟩
      | some y => exact (Edge.apart_of_independent h he hf).sameLinks counted _ _
  · intro h
    apply FlowGraph.SameLinks.sameProgram
    have habsent {id : String} (hid : ∀ n ∈ nodes, n.id ≠ id) : ∀ n ∈ counted, n.id ≠ id := by
      intro n hn heq
      obtain ⟨m, hm, rfl⟩ := List.mem_map.mp hn
      obtain ⟨-, k, hk, hkid⟩ := exists_firstDeclared_iff.mp ⟨m, hm, heq⟩
      exact hid k hk hkid
    have hnone : Edge.ofDocument? counted e = none :=
      Edge.ofDocument?_eq_none (h.imp habsent habsent)
    simp only [FlowGraph.ofDocument, List.filterMap_append, List.filterMap_cons]
    rw [hnone]
    exact ⟨rfl, rfl, rfl, rfl⟩

namespace Document

/-- An input and the conditional that reads it, with a node in its branch. -/
def checkNodes : List Document.Node :=
  [⟨"flag", "flag", none, some .input, [], [⟨"out", "out", "bool", false, none⟩], none, [], [], none,
      none⟩,
    ⟨"check", "check", none, some .conditional, [⟨"cond", "cond", "bool", false, none⟩], [], some true,
      [], [], none, none⟩,
    ⟨"yes", "yes", none, some .output, [], [], some true, [], [], none, none⟩]

/-- The condition of the conditional. -/
def checkCondition : Document.Edge :=
  ⟨"condition", "flag", "check", some "out", some "cond", none⟩

/-- The branch of the conditional. -/
def checkBranch : Document.Edge :=
  ⟨"then", "check", "yes", none, none, some ⟨some .execution, some "then"⟩⟩

/-- The condition and the branch can be declared in either order. -/
theorem condition_and_branch_commute : checkCondition.Independent checkBranch ∧
    SameProgram ⟨checkNodes, [checkCondition, checkBranch]⟩
      ⟨checkNodes, [checkBranch, checkCondition]⟩ := by
  have hkinds : checkCondition.kind = .data ∧ checkBranch.kind = .execution := by decide
  have hindependent : checkCondition.Independent checkBranch := by
    rw [Edge.Independent, hkinds.1, hkinds.2]
    trivial
  exact ⟨hindependent,
    (independent_edges_commute checkNodes [] [] checkCondition).1 checkBranch hindependent⟩

-- the order of two edges into one port does matter: the last one binds the port
example : (FlowGraph.ofDocument ⟨checkNodes, [⟨"a", "flag", "check", some "x", some "cond", none⟩,
      checkCondition]⟩).bindings 1 ≠
    (FlowGraph.ofDocument ⟨checkNodes, [checkCondition,
      ⟨"a", "flag", "check", some "x", some "cond", none⟩]⟩).bindings 1 := by
  decide

end Document

end FlowScript
