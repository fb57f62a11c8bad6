import FlowScript.Proofs.Rendering
import FlowScript.Proofs.Sources
import FlowScript.Proofs.Turns

/-!
# What a port reads

The last data edge into a port binds it. A node that is written on lines of its own, and not as a
block, is held by its variable from then on, so that whoever reads it reads the variable, brought to
the type of the port. Together with the order of the lines this says that a program without circles
of data edges computes every value before it uses it.
-/

namespace FlowScript

open Relation (ReflTransGen TransGen)

/-- Binding a port changes what feeds this port and no other. -/
theorem find?_bindPort (b : Binding) (bs : List Binding) (port : String) :
    (bindPort b bs).find? (·.targetPort == port) =
      if b.targetPort = port then some b else bs.find? (·.targetPort == port) := by
  induction bs with
  | nil =>
    by_cases hport : b.targetPort = port
    · simp [bindPort, hport]
    · simp [bindPort, beq_false_of_ne hport, hport]
  | cons c rest ih =>
    rw [bindPort]
    by_cases hsame : c.targetPort = b.targetPort
    · by_cases hport : b.targetPort = port
      · simp [hsame, hport]
      · simp [hsame, hport, beq_false_of_ne hport]
    · rw [if_neg hsame, List.find?_cons, List.find?_cons, ih]
      by_cases hport : b.targetPort = port
      · have hother : c.targetPort ≠ port := fun h => hsame (h.trans hport.symm)
        simp [hport, beq_false_of_ne hother]
      · rw [if_neg hport, if_neg hport]

namespace FlowGraph

variable {g : FlowGraph}

/-- A data edge is the last one into its port. -/
def LastInto (g : FlowGraph) (e : Edge) : Prop :=
  e.kind = .data ∧ ∃ before after, g.edges = before ++ e :: after ∧
    ∀ f ∈ after, f.kind = .data → f.target = e.target → f.targetPort ≠ e.targetPort

/-- Data edges that all lead to later nodes run in no circle. -/
theorem feeds_acyclic (h : ∀ e ∈ g.edges, e.kind = .data → e.source < e.target) (v : Nat) :
    ¬ TransGen g.Feeds v v := by
  have hlt : TransGen g.Feeds ≤ (· < ·) := by
    refine Relation.transGen_minimal fun a b hab => ?_
    obtain ⟨e, he, hkind, rfl, rfl⟩ := hab
    exact h e he hkind
  exact fun hv => Nat.lt_irrefl v (hlt v v hv)

/-- The last data edge into a port is an edge of the graph. -/
theorem LastInto.mem_edges {e : Edge} (h : g.LastInto e) : e ∈ g.edges := by
  obtain ⟨-, before, after, hedges, -⟩ := h
  simp [hedges]

/-- The last data edge into a port binds it. -/
theorem LastInto.binding?_eq {e : Edge} (h : g.LastInto e) :
    g.binding? e.target e.targetPort = some e.binding := by
  obtain ⟨hkind, before, after, hedges, hafter⟩ := h
  have hdata : g.dataInto e.target =
      before.filter (fun f => f.kind = .data ∧ f.target = e.target) ++
        e :: after.filter (fun f => f.kind = .data ∧ f.target = e.target) := by
    rw [dataInto, hedges, List.filter_append, List.filter_cons_of_pos (by simp [hkind])]
  -- the edges after it bind other ports
  have hkeep (fs : List Edge) (hfs : ∀ f ∈ fs, f.targetPort ≠ e.targetPort) (bs : List Binding)
      (hbs : bs.find? (·.targetPort == e.targetPort) = some e.binding) :
      (fs.foldl (fun bs f => bindPort f.binding bs) bs).find? (·.targetPort == e.targetPort) =
        some e.binding := by
    induction fs generalizing bs with
    | nil => exact hbs
    | cons f fs ih =>
      refine ih (fun x hx => hfs x (List.mem_cons_of_mem _ hx)) _ ?_
      rw [find?_bindPort, if_neg (by exact hfs f List.mem_cons_self), hbs]
  rw [binding?, bindings, hdata, List.foldl_append, List.foldl_cons]
  refine hkeep _ (fun f hf => ?_) _ ?_
  · obtain ⟨hin, hf⟩ := List.mem_filter.mp hf
    obtain ⟨hfkind, hftarget⟩ := of_decide_eq_true hf
    exact hafter f hin hfkind hftarget
  · rw [find?_bindPort]
    exact if_pos rfl

end FlowGraph

namespace Job

variable {job : Job} {S : Nat → Prop} {d e : Draft} {v : Nat} {n : Node}

/-- The values of a node's ports are held by its variable. -/
def HeldByName (job : Job) (v : Nat) (n : Node) (d : Draft) : Prop :=
  ∀ x ∈ d.values, x.1.1 = v → x.2 = job.nameOf v n

/-- No step changes what holds the values of a node, unless it makes the node a loop. -/
theorem Step.heldByName (hn : job.graph.node? v = some n) (hloop : n.kind = .loop → ¬ S v)
    (h : Step job S d e) (hd : job.HeldByName v n d) : job.HeldByName v n e := by
  cases h with
  | enter | line | openArm | closeArm | hold | letGo => exact hd
  | @lines u =>
    obtain ⟨bound, hvalues, hbound⟩ := (writeGuarded_writes job d u).values
    intro x hx hxv
    rw [hvalues] at hx
    rcases List.mem_append.mp hx with hx | hx
    · obtain ⟨hu, m, hm, hname⟩ := hbound x hx
      obtain rfl : u = v := hu.symm.trans hxv
      obtain rfl : m = n := Option.some.inj (hm.symm.trans hn)
      exact hname
    · exact hd x hx hxv
  | @shape u _ b _ hshape hblock =>
    obtain ⟨m, hm, ⟨-, hcond⟩ | ⟨hkind, hloop'⟩⟩ := block?_eq_some hblock
    · obtain ⟨-, -, -, -, rfl⟩ := conditionalBlock?_eq_some hcond
      exact hd
    · obtain ⟨name, -, -, -, -, -, rfl⟩ := loopBlock?_eq_some hloop'
      intro x hx hxv
      rcases List.mem_append.mp hx with hx | hx
      · obtain ⟨port, -, rfl⟩ := List.mem_map.mp hx
        obtain rfl : u = v := hxv
        obtain rfl : m = n := Option.some.inj (hm.symm.trans hn)
        exact absurd hshape (hloop hkind)
      · exact hd x hx hxv

/-- The expression for a port of a node that its variable holds is the variable. -/
theorem sourceText_of_heldByName {b : Binding} (hn : job.graph.node? b.source = some n)
    (hd : job.HeldByName b.source n d) : job.sourceText d b = job.nameOf b.source n := by
  rw [sourceText, hn]
  cases hvalue : d.value? b.source b.sourcePort with
  | none => rfl
  | some x =>
    obtain ⟨before, after, hvalues, -⟩ := List.lookup_eq_some_iff.mp hvalue
    exact hd ((b.source, b.sourcePort), x) (by simp [hvalues]) rfl

/-- The expression for a port that an edge binds is the variable of the edge's source, brought to
the type of the port. -/
theorem argument_text {edge : Edge} (hlast : job.graph.LastInto edge) {source target : Node}
    {p : Port} (hport : p.id = edge.targetPort) (hn : job.graph.node? edge.source = some source)
    (hd : job.HeldByName edge.source source d) :
    (job.argument d edge.target target p).text =
      (job.conversions.convert (job.nameOf edge.source source)
        (job.graph.outputType edge.source edge.sourcePort) p.type).expression := by
  have hsource : job.sourceText d edge.binding = job.nameOf edge.source source :=
    @sourceText_of_heldByName job d source edge.binding hn hd
  simp only [argument, hport, hlast.binding?_eq, boundArgument, hsource]
  simp only [Edge.binding]

/-- A port that an edge binds gives the same expression for the variable of a loop. -/
theorem loopVariable_eq_argument {edge : Edge} (hlast : job.graph.LastInto edge) {target : Node}
    {p : Port} (hport : p.id = edge.targetPort) :
    job.loopVariable d edge.target target p = job.argument d edge.target target p := by
  simp only [loopVariable, argument, hport, hlast.binding?_eq]

/-- Lines that assign a variable. -/
def Assigns (lines : List Event) (v : Nat) (name : String) : Prop :=
  ∃ level text, lines = [.line (some v) level (name ++ " = " ++ text)] ∨
    lines = (Text.lines (name ++ " = " ++ text)).map (Draft.lineEvent (some v) level)

/-- A node that declares its variable: an input without function, or a node that is written through
an expression pattern and not as a block. -/
def Declares (job : Job) (d : Draft) (v : Nat) (n : Node) : Prop :=
  n.kind = .input ∧ n.functionId = none ∨
    ∃ p, job.fitting v = .pattern p ∧ p.kind = .expression ∧ ¬ d.Opened v

/-- An input without pattern assigns its variable in its turn. -/
theorem Turn.assigns_of_input {own : List Event} (hn : job.graph.node? v = some n)
    (hkind : n.kind = .input) (hfitting : job.fitting v = .absent) (h : job.Turn S v d own) :
    Assigns own v (job.nameOf v n) := by
  cases h with
  | lines htrace =>
    have hwritten : job.writeGuarded d v = job.writeInput d v n := by
      simp [writeGuarded, writeNode, node_eq_ok hn, hfitting, hkind]
    rw [hwritten] at htrace
    exact ⟨d.level, declaredLiteral n, .inl (List.append_cancel_left htrace).symm⟩
  | header _ hblock =>
    obtain ⟨m, hm, hcases⟩ := block?_eq_some hblock
    obtain rfl : m = n := Option.some.inj (hm.symm.trans hn)
    rcases hcases with ⟨hcond, -⟩ | ⟨hloop, -⟩
    · cases hkind.symm.trans hcond
    · cases hkind.symm.trans hloop

/-- A node with an expression pattern that does not become a block assigns its variable in its
turn. -/
theorem Turn.assigns_of_expression {own : List Event} {p : Pattern}
    (hn : job.graph.node? v = some n) (hfitting : job.fitting v = .pattern p)
    (hkind : p.kind = .expression) (hnot : ¬ S v) (h : job.Turn S v d own) :
    Assigns own v (job.nameOf v n) := by
  cases h with
  | lines htrace =>
    have hwritten : job.writeGuarded d v = job.writePattern d v n p := by
      simp [writeGuarded, writeNode, node_eq_ok hn, hfitting]
    rw [hwritten, writePattern] at htrace
    simp only [hkind, writeFilled] at htrace
    exact ⟨d.level, _, .inr (List.append_cancel_left htrace).symm⟩
  | header hshape => exact absurd hshape hnot

/-- Pieces of work that are no blocks treat the lines of every node. -/
theorem Performs.treats {ts : List Task} (h : Performs job ts d e) (hopened : e.Opens S)
    (hts : ∀ t ∈ ts, ∀ b, t ≠ .block v b) : Treats job S v d e := by
  induction h with
  | nil => exact .refl _
  | cons hfirst hrest ih =>
    have hbefore := hopened.earlier hrest.extends.trace
    have htask := (hfirst.treats hbefore).treats (hts _ List.mem_cons_self)
    exact htask.trans (hfirst.steps hbefore)
      (ih hopened fun t ht => hts t (List.mem_cons_of_mem _ ht)) (hrest.steps hopened)

/-- In a body, every node has its turn once. -/
theorem Performs.turn (hjob : job.WellFormed) (h : Performs job job.bodyTasks d e)
    (hopened : e.Opens S) (hbarriers : d.barriers = []) (hentered : d.entered = [])
    (htrace : d.trace = []) (hv : v < job.graph.size) :
    ∃ w, ReflTransGen (Step job S) d w ∧ job.Turn S v w (ownLines e.trace v) := by
  have htasks : ∀ t ∈ job.bodyTasks, ∀ b, t ≠ .block v b := by
    intro t ht b
    rcases eq_of_mem_bodyTasks ht with ⟨vs, rfl⟩ | ⟨u, rfl⟩ | ⟨vs, rfl⟩
    all_goals exact Task.noConfusion
  have hin : v ∈ e.entered := h.mem_entered hjob hbarriers hv
  cases h.treats hopened htasks with
  | rests hrests => exact absurd (hrests hin) (by simp [hentered])
  | @writes w own _ _ hsteps hturn hlines =>
    have hown : ownLines e.trace v = own := by simpa [htrace, ownLines] using hlines
    exact ⟨w, hsteps, hown ▸ hturn⟩

/-- The end of a body leaves the lines of all nodes alone. -/
theorem ownLines_closing (job : Job) (d : Draft) (v : Nat) :
    ownLines (job.closing d).trace v = ownLines d.trace v := by
  obtain ⟨new, htrace, hnew⟩ := closing_trace job d
  have hnone : ownLines new v = [] := by
    rw [ownLines, List.filter_eq_nil_iff]
    intro x hx
    obtain ⟨level, text, rfl⟩ := hnew x hx
    simp [Event.origin?]
  rw [htrace, ownLines, List.filter_append]
  exact (congrArg _ hnone).trans (List.append_nil _)

/-- In a body, the lines of a node come before the lines of its readers. -/
theorem Performs.sourcesFirst (hjob : job.WellFormed)
    (hacyclic : ∀ v, ¬ TransGen job.graph.Feeds v v) (h : Performs job job.bodyTasks d e)
    (htrace : d.trace = []) : job.graph.SourcesFirst (job.closing e).trace := by
  have hstart : Draft.Tidy job.graph (fun _ => False) d :=
    ⟨fun _ => False.elim, by simp [htrace], by simp [FlowGraph.SourcesFirst, htrace]⟩
  have hend : Draft.Tidy job.graph (fun _ => False) e := by
    refine h.keeps (fun t ht d e hemits hd => ?_) hstart
    rcases eq_of_mem_bodyTasks ht with ⟨vs, rfl⟩ | ⟨u, rfl⟩ | ⟨vs, rfl⟩
    · exact hemits.tidy hjob.graph hacyclic hd fun _ _ _ _ _ _ _ => id
    · exact hemits.tidy hjob.graph hacyclic hd fun _ => id
    · exact hemits.tidy hjob.graph hacyclic hd fun _ => id
  obtain ⟨new, hclosing, hnew⟩ := closing_trace job e
  refine (hend.silent (closing_entered job e) hclosing fun x hx => ?_).ordered
  obtain ⟨level, text, rfl⟩ := hnew x hx
  rfl

end Job

/-- What is known about a function is about the function of a node. -/
def Fitting.IsFor (n : Node) : Fitting → Prop
  | .absent => n.functionId = none
  | .pattern _ => ∃ function, n.functionId = some function
  | .missing function => n.functionId = some function

namespace Generator

variable {σ : Type}

/-- Looking up a node adds what is known about its function. -/
theorem fitNode_fittings (ask : PatternSource σ) (language : String) (r : Fitted σ) (n : Node) :
    ∃ fitting, (fitNode ask language r n).fittings = r.fittings ++ [fitting] ∧ fitting.IsFor n := by
  rw [fitNode]
  split
  · rename_i hnone
    exact ⟨.absent, rfl, hnone⟩
  · rename_i function hfunction
    refine ⟨_, rfl, ?_⟩
    cases (lookup ask language function r.known r.source).1 with
    | found p => exact ⟨function, hfunction⟩
    | notFound => exact hfunction
    | failed x => exact hfunction

/-- Looking up nodes adds what is known about them, in order. -/
theorem foldl_fitNode_fittings (ask : PatternSource σ) (language : String) (nodes : List Node)
    (r : Fitted σ) : ∃ fittings, (nodes.foldl (fitNode ask language) r).fittings =
      r.fittings ++ fittings ∧
      ∀ (v : Nat) (n : Node), nodes[v]? = some n → ∃ x, fittings[v]? = some x ∧ x.IsFor n := by
  induction nodes generalizing r with
  | nil => exact ⟨[], by simp⟩
  | cons m nodes ih =>
    obtain ⟨fitting, hfirst, hfor⟩ := fitNode_fittings ask language r m
    obtain ⟨fittings, hrest, hall⟩ := ih (fitNode ask language r m)
    refine ⟨fitting :: fittings, ?_, fun v n hn => ?_⟩
    · rw [List.foldl_cons, hrest, hfirst, List.append_assoc]
      rfl
    · cases v with
      | zero =>
        obtain rfl : m = n := by simpa using hn
        exact ⟨fitting, rfl, hfor⟩
      | succ v => exact hall v n hn

/-- What is known about a node is about its own function. -/
theorem fitting_isFor (ask : PatternSource σ) (gen : Generator) (s : σ) {v : Nat} {n : Node}
    (hn : gen.graph.node? v = some n) : ((gen.fittedJob ask s).fitting v).IsFor n := by
  obtain ⟨fittings, hfittings, hall⟩ :=
    foldl_fitNode_fittings ask gen.settings.language gen.graph.nodes ⟨[], [], gen.known, s⟩
  obtain ⟨x, hx, hfor⟩ := hall v n hn
  change ((gen.fitAll ask s).fittings.getD v .absent).IsFor n
  rw [fitAll, hfittings, List.nil_append, List.getD_eq_getElem?_getD, hx]
  exact hfor

/-- Nothing is known about the function of a node without one. -/
theorem fitting_absent (ask : PatternSource σ) (gen : Generator) (s : σ) {v : Nat} {n : Node}
    (hn : gen.graph.node? v = some n) (hnone : n.functionId = none) :
    (gen.fittedJob ask s).fitting v = .absent := by
  have hfor := fitting_isFor ask gen s hn
  cases hfitting : (gen.fittedJob ask s).fitting v with
  | absent => rfl
  | pattern p =>
    rw [hfitting] at hfor
    obtain ⟨function, hsome⟩ := hfor
    cases hnone.symm.trans hsome
  | missing function =>
    rw [hfitting] at hfor
    cases hnone.symm.trans hfor

/-- Without circles of data edges, the program writes the lines of every node before the lines of
the nodes that read it. If the last data edge into a port starts at a node that declares its
variable, then the expression for the port is this variable, converted as the types of the two ports
ask for: in the state in which the node of the port has its turn, also if the port names the variable
of a loop, and in the state in which the program returns its values. -/
theorem values_are_computed_before_use (ask : PatternSource σ) (s : σ) (doc : Document)
    (settings : Settings) (conversions : Conversions) (known : List (String × Option Pattern))
    (hacyclic : ∀ v, ¬ TransGen (FlowGraph.ofDocument doc).Feeds v v) :
    let gen : Generator := ⟨.ofDocument doc, settings, conversions, known⟩
    let job := gen.fittedJob ask s
    ∃ c d, gen.rendering ask s = .ok d ∧ d = job.closing c ∧
      gen.graph.SourcesFirst d.trace ∧
      ∀ (e : Edge) (source target : Node) (p : Port), gen.graph.LastInto e →
        gen.graph.node? e.source = some source → gen.graph.node? e.target = some target →
        p ∈ target.inputs → p.id = e.targetPort → job.Declares d e.source source →
        let expression := (conversions.convert (job.nameOf e.source source)
          (gen.graph.outputType e.source e.sourcePort) p.type).expression
        Job.Assigns (ownLines d.trace e.source) e.source (job.nameOf e.source source) ∧
        (∃ w, job.Turn d.Opened e.target w (ownLines d.trace e.target) ∧
          (job.argument w e.target target p).text = expression ∧
          (job.loopVariable w e.target target p).text = expression) ∧
        (job.argument c e.target target p).text = expression := by
  intro gen job
  have hg : gen.graph.WellFormed := FlowGraph.ofDocument_wellFormed doc
  have hjob : job.WellFormed := fittedJob_wellFormed ask hg s
  obtain ⟨c, hperforms, hrendering⟩ := rendering_performs ask hg s
  refine ⟨c, job.closing c, hrendering, rfl, hperforms.sourcesFirst hjob hacyclic rfl, ?_⟩
  intro e source target p hlast hsource htarget _ hport hdeclares expression
  let S : Nat → Prop := (job.closing c).Opened
  have hopened : c.Opens S := fun v hv =>
    hv.imp fun _ hin => (Job.closing_extends job c).trace.subset hin
  have hloop : source.kind = .loop → ¬ S e.source := by
    intro hkind
    rcases hdeclares with ⟨hinput, -⟩ | ⟨-, -, -, hnot⟩
    · cases hinput.symm.trans hkind
    · exact hnot
  -- in every state on the way, the variable of the source holds its values
  have hheld {w : Draft} (hsteps : ReflTransGen (Job.Step job S) (gen.startDraft ask s) w) :
      job.HeldByName e.source source w :=
    Job.keeps_of_step hsteps (fun _ _ => Job.Step.heldByName hsource hloop) (fun _ hx => by cases hx)
  have hturn (v : Nat) (hv : v < gen.graph.size) :=
    hperforms.turn hjob hopened rfl rfl rfl hv
  have hedge : e ∈ gen.graph.edges := hlast.mem_edges
  obtain ⟨u, -, hturnSource⟩ := hturn e.source (hg.sources e hedge)
  obtain ⟨w, hsteps, hturnTarget⟩ := hturn e.target (hg.targets e hedge)
  rw [Job.ownLines_closing, Job.ownLines_closing]
  have htext {w : Draft} (hsteps : ReflTransGen (Job.Step job S) (gen.startDraft ask s) w) :
      (job.argument w e.target target p).text = expression :=
    Job.argument_text hlast hport hsource (hheld hsteps)
  have hvariable : (job.loopVariable w e.target target p).text = expression :=
    (congrArg Argument.text (Job.loopVariable_eq_argument hlast hport)).trans (htext hsteps)
  refine ⟨?_, ⟨w, hturnTarget, htext hsteps, hvariable⟩, htext (hperforms.steps hopened)⟩
  rcases hdeclares with ⟨hkind, hnone⟩ | ⟨pattern, hfitting, hkind, hnot⟩
  · exact hturnSource.assigns_of_input hsource hkind (fitting_absent ask gen s hsource hnone)
  · exact hturnSource.assigns_of_expression hsource hfitting hkind hnot

/-- A conditional whose branches read one value, which reads the input that the condition reads. -/
def sharedReading : Document where
  nodes :=
    [⟨"flag", "flag", none, some .input, [], [⟨"out", "out", "int", false, none⟩], none, [], [],
        none, none⟩,
      ⟨"twice", "twice", none, some .plain, [⟨"in", "in", "str", false, none⟩],
        [⟨"out", "out", "str", false, none⟩], none, [], [], some "double", none⟩,
      ⟨"check", "check", none, some .conditional, [⟨"cond", "cond", "bool", false, none⟩], [],
        some true, [], [], none, none⟩,
      ⟨"yes", "yes", none, some .output, [⟨"in", "in", "str", false, none⟩], [], some true, [], [],
        none, none⟩,
      ⟨"no", "no", none, some .output, [⟨"in", "in", "str", false, none⟩], [], some true, [], [],
        none, none⟩]
  edges :=
    [⟨"condition", "flag", "check", some "out", some "cond", none⟩,
      ⟨"doubled", "flag", "twice", some "out", some "in", none⟩,
      ⟨"left", "twice", "yes", some "out", some "in", none⟩,
      ⟨"right", "twice", "no", some "out", some "in", none⟩,
      ⟨"then", "check", "yes", none, none, some ⟨some .execution, some "then"⟩⟩,
      ⟨"else", "check", "no", none, none, some ⟨some .execution, some "else"⟩⟩]

/-- A source that knows one pattern. -/
def doubling : PatternSource Unit := fun s _ _ =>
  (.found ⟨"\x7b0\x7d * 2", .expression, []⟩, s)

/-- The value that both branches read is computed from the input, as a text. -/
theorem sharedReading_computed_before_use :
    (∀ v, ¬ TransGen (FlowGraph.ofDocument sharedReading).Feeds v v) ∧
      let gen := Generator.new (.ofDocument sharedReading) .standard
      ∃ d, gen.rendering doubling () = .ok d ∧ gen.graph.SourcesFirst d.trace ∧
        Job.Assigns (ownLines d.trace 0) 0 "flag_flag" ∧
        ∃ w, (gen.fittedJob doubling ()).Turn d.Opened 1 w (ownLines d.trace 1) ∧
          ∃ n p, gen.graph.node? 1 = some n ∧ p ∈ n.inputs ∧
            ((gen.fittedJob doubling ()).argument w 1 n p).text = "str(flag_flag)" := by
  have hacyclic : ∀ v, ¬ TransGen (FlowGraph.ofDocument sharedReading).Feeds v v :=
    FlowGraph.feeds_acyclic (by decide)
  obtain ⟨c, d, hrendering, -, hordered, hports⟩ := values_are_computed_before_use doubling ()
    sharedReading .standard (.standard .standard) [] hacyclic
  obtain ⟨hassigns, ⟨w, hturn, htext, -⟩, -⟩ := hports ⟨"doubled", 0, 1, .data, "out", "in", none⟩ _ _
    ⟨"in", "in", "str", false, none⟩
    ⟨rfl, [⟨"condition", 0, 2, .data, "out", "cond", none⟩], _, rfl, by decide⟩ rfl rfl
    (List.mem_singleton.mpr rfl) rfl (.inl ⟨rfl, rfl⟩)
  exact ⟨hacyclic, d, hrendering, hordered, hassigns, w, hturn, _, _, rfl,
    List.mem_singleton.mpr rfl, htext⟩

end Generator

end FlowScript
