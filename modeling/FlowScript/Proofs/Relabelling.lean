import FlowScript.Proofs.Apart
import FlowScript.Proofs.Likeness

/-!
# What labels can do to a program

The label of a node goes into the name of its variable, into reports and, if the pattern of the node
is missing, into a comment. Graphs that differ in labels only, and name their variables the same, have
programs with the same code: what differs are comment lines. That asks for comments that are one line
each, under an indentation that is blank. A label or a function with a line feed in it breaks the
comment, and what comes after the line feed is code.
-/

namespace FlowScript

namespace Text

/-- Whether the first character of a line that is not blank begins a comment. -/
def isComment (line : String) : Bool :=
  (line.toList.dropWhile isBlank).head? == some '#'

/-- The lines of a program that are not comments. -/
def codeLines (code : String) : List String :=
  (lines code).filter fun l => !isComment l

/-- Lines are cut one after the other: after a line feed, cutting starts anew. -/
theorem cutLines_append (line cs rest : List Char) :
    cutLines line (cs ++ '\n' :: rest) = cutLines line (cs ++ ['\n']) ++ cutLines [] rest := by
  induction cs generalizing line with
  | nil => simp [cutLines]
  | cons c cs ih =>
    rw [List.cons_append, List.cons_append, cutLines, cutLines]
    split
    · rw [ih, List.cons_append]
    · exact ih _

/-- The code of a text goes on after a line feed. -/
theorem codeLines_append (a b : String) :
    codeLines (a ++ "\n" ++ b) = codeLines (a ++ "\n") ++ codeLines b := by
  have hcut := cutLines_append [] a.toList b.toList
  rw [codeLines, codeLines, codeLines, ← List.filter_append, lines, lines, lines, ← List.map_append]
  simp only [String.toList_append, List.append_assoc]
  exact congrArg _ (congrArg _ hcut)

/-- A line that begins blank and goes on with a comment sign is a comment. -/
theorem isComment_of_blank {blank : List Char} (hblank : ∀ c ∈ blank, isBlank c = true)
    (rest : List Char) : isComment (String.ofList (blank ++ '#' :: rest)) = true := by
  have hdrop : (blank ++ '#' :: rest).dropWhile isBlank = '#' :: rest := by
    rw [List.dropWhile_append_of_pos hblank]
    rfl
  rw [isComment, String.toList_ofList, hdrop]
  rfl

/-- Text without a line feed is one line. -/
theorem cutLines_line {cs : List Char} (hcs : '\n' ∉ cs) (line : List Char) :
    cutLines line (cs ++ ['\n']) = [(dropReturn (cs.reverse ++ line)).reverse] := by
  induction cs generalizing line with
  | nil => rfl
  | cons c cs ih =>
    have hc : ¬ c = '\n' := fun h => hcs (h ▸ List.mem_cons_self)
    rw [List.cons_append, cutLines, if_neg hc, ih fun h => hcs (List.mem_cons_of_mem _ h),
      List.reverse_cons, List.append_assoc]
    rfl

/-- The end of a line keeps what comes before a comment sign. -/
theorem dropReturn_comment (line rest : List Char) :
    ∃ more, (dropReturn (rest ++ '#' :: line)).reverse = line.reverse ++ '#' :: more := by
  cases rest with
  | nil => exact ⟨[], by simp [dropReturn]⟩
  | cons c rest =>
    rw [List.cons_append, dropReturn.eq_def]
    split
    · rename_i heq
      obtain ⟨-, rfl⟩ := List.cons.inj heq
      exact ⟨rest.reverse, by simp⟩
    · exact ⟨(c :: rest).reverse, by simp⟩

/-- A line that is a comment after blank characters is no code. -/
theorem filter_cutLines_comment {line rest : List Char} (hline : ∀ c ∈ line, isBlank c = true)
    (hrest : '\n' ∉ rest) :
    ((cutLines line ('#' :: rest ++ ['\n'])).map String.ofList).filter (fun l => !isComment l) = [] := by
  have hone : '\n' ∉ '#' :: rest := by simpa using hrest
  obtain ⟨more, hmore⟩ := dropReturn_comment line rest.reverse
  have hblank : ∀ c ∈ line.reverse, isBlank c = true := by simpa using hline
  have hcomment := isComment_of_blank hblank more
  rw [cutLines_line hone, List.reverse_cons, List.append_assoc, List.singleton_append, hmore,
    List.map_singleton, List.filter_cons_of_neg (by simp [-String.ofList_append, hcomment])]
  rfl

/-- A comment after blank characters, up to a line feed, leaves only what the blank characters do. -/
theorem cutLines_comment {blank line rest : List Char} (hblank : ∀ c ∈ blank, isBlank c = true)
    (hline : ∀ c ∈ line, isBlank c = true) (hrest : '\n' ∉ rest) :
    ((cutLines line (blank ++ '#' :: rest ++ ['\n'])).map String.ofList).filter
        (fun l => !isComment l) =
      ((cutLines line (blank ++ ['#', '\n'])).map String.ofList).filter fun l => !isComment l := by
  induction blank generalizing line with
  | nil =>
    rw [List.nil_append, filter_cutLines_comment hline hrest]
    exact (filter_cutLines_comment hline List.not_mem_nil).symm
  | cons c blank ih =>
    have hblank' : ∀ c ∈ blank, isBlank c = true := fun x hx => hblank x (List.mem_cons_of_mem _ hx)
    rw [List.cons_append, List.cons_append, List.cons_append, cutLines, cutLines]
    split
    · rw [List.map_cons, List.map_cons, List.filter_cons, List.filter_cons,
        ih hblank' (by simp)]
    · refine ih hblank' fun x hx => ?_
      rcases List.mem_cons.mp hx with rfl | hx
      · exact hblank _ List.mem_cons_self
      · exact hline x hx

/-- What a comment says on its line does not reach the code, whatever follows it. -/
theorem codeLines_comment {blank : String} (hblank : isBlankText blank = true) (tail : String)
    {rest rest' : String} (hrest : '\n' ∉ rest.toList) (hrest' : '\n' ∉ rest'.toList) :
    codeLines (blank ++ ("#" ++ rest ++ tail) ++ "\n") =
      codeLines (blank ++ ("#" ++ rest' ++ tail) ++ "\n") := by
  have hall : ∀ c ∈ blank.toList, isBlank c = true := List.all_eq_true.mp hblank
  -- the comment goes on up to the first line feed after it
  have hfeed : '\n' ∈ tail.toList ++ ['\n'] := by simp
  obtain ⟨before, after, hcut, hbefore⟩ := List.eq_append_cons_of_mem hfeed
  have hlines {text : String} (htext : '\n' ∉ text.toList) :
      codeLines (blank ++ ("#" ++ text ++ tail) ++ "\n") =
        ((cutLines [] (blank.toList ++ ['#', '\n'])).map String.ofList).filter (fun l => !isComment l) ++
          ((cutLines [] after).map String.ofList).filter fun l => !isComment l := by
    have hcomment : '\n' ∉ text.toList ++ before := by simpa using ⟨htext, hbefore⟩
    have hsplit : (blank ++ ("#" ++ text ++ tail) ++ "\n").toList =
        (blank.toList ++ '#' :: (text.toList ++ before)) ++ '\n' :: after := by
      simp only [String.toList_append, List.append_assoc, List.cons_append]
      exact congrArg (fun l => blank.toList ++ '#' :: (text.toList ++ l)) hcut
    rw [codeLines, lines, hsplit, cutLines_append, List.map_append, List.filter_append,
      cutLines_comment hall (by simp) hcomment]
  rw [hlines hrest, hlines hrest']

end Text

/-- Two lines have the same code at every level of an indentation. -/
def SameCode (unit t t' : String) : Prop :=
  ∀ level, Text.codeLines ((Item.line level t).render unit) =
    Text.codeLines ((Item.line level t').render unit)

/-- Levels of a blank indentation are blank. -/
theorem isBlankText_replicate {unit : String} (hunit : Text.isBlankText unit = true) (level : Nat) :
    Text.isBlankText (String.join (List.replicate level unit)) = true := by
  induction level with
  | zero => rfl
  | succ level ih =>
    rw [List.replicate_succ, String.join_cons, Text.isBlankText, String.toList_append, List.all_append]
    exact Bool.and_eq_true_iff.mpr ⟨hunit, ih⟩

/-- The comments for a missing pattern have the same code, if they are one line each and the
indentation is blank. -/
theorem sameCode_placeholder {unit function : String} {n n' : Node}
    (hunit : Text.isBlankText unit = true) (hfunction : '\n' ∉ function.toList) (hid : n'.id = n.id)
    (hlabel : '\n' ∉ n.label.toList) (hlabel' : '\n' ∉ n'.label.toList) :
    SameCode unit (Job.placeholder function n) (Job.placeholder function n') := by
  intro level
  have hrest {label : String} (hlabel : '\n' ∉ label.toList) :
      '\n' ∉ (" missing syntax pattern '" ++ function ++ "' for node '" ++ label ++ "' (").toList := by
    simp [hfunction, hlabel]
  have hcode := Text.codeLines_comment (isBlankText_replicate hunit level) (n.id ++ ")")
    (hrest hlabel) (hrest hlabel')
  have hcomment (m : Node) : Job.placeholder function m =
      "#" ++ (" missing syntax pattern '" ++ function ++ "' for node '" ++ m.label ++ "' (") ++
        (m.id ++ ")") := by
    have hsign : "# missing syntax pattern '" = "#" ++ " missing syntax pattern '" := by simp
    unfold Job.placeholder
    rw [hsign]
    simp only [String.append_assoc]
  rw [hcomment, hcomment, hid]
  exact hcode

namespace Item.Like

variable {unit : String}

/-- Items that are alike have the same code. -/
theorem codeLines {items items' : List Item}
    (h : List.Forall₂ (Item.Like 0 (SameCode unit)) items items') :
    Text.codeLines (renderItems unit items') = Text.codeLines (renderItems unit items) := by
  induction h with
  | nil => rfl
  | cons hfirst _ ih =>
    rw [renderItems, renderItems, List.map_cons, List.map_cons, String.join_cons, String.join_cons]
    cases hfirst with
    | line level htext =>
      rw [Item.render, Item.render, Text.codeLines_append, Text.codeLines_append]
      exact congrArg₂ (· ++ ·) (htext level).symm ih
    | blank =>
      rw [Item.render, ← String.empty_append (s := "\n"), Text.codeLines_append, Text.codeLines_append]
      exact congrArg (_ ++ ·) ih

variable {text : String → String → Prop} (htext : ∀ t, text t t)

include htext

/-- Lines and blank lines are like themselves. -/
theorem refl {items : List Item} (hitems : ∀ t, .verbatim t ∉ items) :
    List.Forall₂ (Item.Like 0 text) items items := by
  refine List.forall₂_same.mpr fun x hx => ?_
  cases x with
  | line level t => exact .line level (htext t)
  | blank => exact .blank
  | verbatim t => exact absurd hx (hitems t)

/-- Programs with like bodies are alike. -/
theorem program {body body' : List Item} (h : List.Forall₂ (Item.Like 0 text) body body')
    (imports : List String) (settings : Settings) :
    List.Forall₂ (Item.Like 0 text) (Program.items ⟨imports, body⟩ settings)
      (Program.items ⟨imports, body'⟩ settings) := by
  have hheader : ∀ t, .verbatim t ∉ Program.headerItems settings.header := by
    cases settings.header <;> simp [Program.headerItems]
  have himports : ∀ t, .verbatim t ∉ Program.importItems imports := by
    cases imports <;> simp [Program.importItems]
  have hshifted : List.Forall₂ (Item.Like 0 text) (Program.functionItems body)
      (Program.functionItems body') := by
    rw [Program.functionItems, Program.functionItems]
    cases h with
    | nil => exact refl htext (by simp)
    | cons hfirst hrest =>
      rw [List.isEmpty_cons, if_neg Bool.false_ne_true, List.isEmpty_cons, if_neg Bool.false_ne_true,
        List.forall₂_map_left_iff, List.forall₂_map_right_iff]
      refine List.Forall₂.imp (fun x y hxy => ?_) (List.Forall₂.cons hfirst hrest)
      cases hxy with
      | line level ht => exact .line (level + 1) ht
      | blank => exact .blank
  rw [Program.items, Program.items]
  refine List.rel_append (List.rel_append (refl htext hheader) (refl htext himports)) ?_
  split
  · exact .cons (.line 0 (htext _)) (List.rel_append hshifted (refl htext (by simp)))
  · exact h

end Item.Like

namespace Document

/-- A declaration that differs from another one in its label only. Its kind is declared, and the
label names its variable the same. -/
structure Node.Relabels (n n' : Document.Node) : Prop where
  same : n' = { n with label := n'.label }
  kind : n.kind.isSome = true
  name : Naming.nameFor n'.label n'.id = Naming.nameFor n.label n.id

/-- Two documents differ in the labels of nodes only, and the labels name variables the same. -/
structure Relabels (doc doc' : Document) : Prop where
  nodes : List.Forall₂ Node.Relabels doc.nodes doc'.nodes
  edges : doc'.edges = doc.edges

/-- Of several declarations with one id the first counts, whatever its label. -/
theorem Node.Relabels.firstDeclared {nodes nodes' : List Document.Node}
    (h : List.Forall₂ Node.Relabels nodes nodes') (seen : List String) :
    List.Forall₂ Node.Relabels (firstDeclared seen nodes) (firstDeclared seen nodes') := by
  induction h generalizing seen with
  | nil => exact .nil
  | @cons n n' _ _ hfirst _ ih =>
    have hid : n'.id = n.id := by rw [hfirst.same]
    rw [FlowScript.firstDeclared, FlowScript.firstDeclared, hid]
    split
    · exact ih seen
    · exact .cons hfirst (ih _)

/-- The nodes that declarations describe differ in their labels only. -/
theorem Node.Relabels.ofDocument {n n' : Document.Node} (h : Node.Relabels n n') :
    (FlowScript.Node.ofDocument n).Relabels (FlowScript.Node.ofDocument n') := by
  obtain ⟨kind, hkind⟩ := Option.isSome_iff_exists.mp h.kind
  rw [FlowScript.Node.Relabels, h.same, FlowScript.Node.ofDocument, FlowScript.Node.ofDocument]
  simp only [hkind, Kind.classify, Option.getD_some]

/-- Nodes are found at the same positions. -/
theorem position?_eq {nodes nodes' : List FlowScript.Node}
    (h : List.Forall₂ FlowScript.Node.Relabels nodes nodes') (id : String) :
    position? nodes' id = position? nodes id := by
  rw [position?, position?]
  induction h with
  | nil => rfl
  | cons hfirst _ ih => rw [List.findIdx?_cons, List.findIdx?_cons, hfirst.id, ih]

/-- An edge joins the same nodes, under the same label. -/
theorem edge_eq {nodes nodes' : List FlowScript.Node}
    (h : List.Forall₂ FlowScript.Node.Relabels nodes nodes') (e : Document.Edge) :
    FlowScript.Edge.ofDocument? nodes' e = FlowScript.Edge.ofDocument? nodes e := by
  have hgraph : FlowGraph.Relabels ⟨nodes, []⟩ ⟨nodes', []⟩ := ⟨h, rfl⟩
  rw [FlowScript.Edge.ofDocument?, position?_eq h, position?_eq h, FlowScript.Edge.ofDocument?]
  cases position? nodes e.source with
  | none => rfl
  | some source =>
    cases position? nodes e.target with
    | none => rfl
    | some target => exact hgraph.node?_congr (fun o => o.bind _) (fun _ _ => rfl) source

namespace Relabels

variable {doc doc' : Document}

/-- The nodes of the graphs, pair by pair. -/
theorem graphNodes (h : Relabels doc doc') :
    List.Forall₂ (fun n n' => n.Relabels n' ∧ Naming.ofNode n' = Naming.ofNode n)
      (FlowGraph.ofDocument doc).nodes (FlowGraph.ofDocument doc').nodes := by
  change List.Forall₂ _ (List.map _ _) (List.map _ _)
  rw [List.forall₂_map_left_iff, List.forall₂_map_right_iff]
  exact (Node.Relabels.firstDeclared h.nodes []).imp fun n n' hn => ⟨hn.ofDocument, hn.name⟩

/-- The graphs differ in the labels of their nodes only. -/
theorem graph (h : Relabels doc doc') :
    (FlowGraph.ofDocument doc).Relabels (FlowGraph.ofDocument doc') := by
  have hnodes := h.graphNodes.imp fun _ _ hn => hn.1
  refine ⟨hnodes, ?_⟩
  change doc'.edges.filterMap _ = doc.edges.filterMap _
  rw [h.edges]
  exact List.filterMap_congr fun e _ => edge_eq hnodes e

/-- All variables have the same names. -/
theorem names (h : Relabels doc doc') : Naming.assign (FlowGraph.ofDocument doc').nodes =
    Naming.assign (FlowGraph.ofDocument doc).nodes := by
  have hnodes := h.graphNodes
  generalize (FlowGraph.ofDocument doc).nodes = nodes, (FlowGraph.ofDocument doc').nodes = nodes'
    at hnodes
  have hfold (taken : List String) :
      nodes'.foldl (fun taken n => taken ++ [Naming.fresh taken (Naming.ofNode n)]) taken =
        nodes.foldl (fun taken n => taken ++ [Naming.fresh taken (Naming.ofNode n)]) taken := by
    induction hnodes generalizing taken with
    | nil => rfl
    | cons hfirst _ ih => rw [List.foldl_cons, List.foldl_cons, hfirst.2, ih]
  exact hfold []

end Relabels

end Document

/-- A report without the label of its node. -/
def Diagnostic.unlabelled (d : Diagnostic) : Diagnostic :=
  { d with nodeLabel := none }

/-- Reports that agree but for labels, pair by pair. -/
theorem forall₂_unlabelled {notes notes' : List Diagnostic} :
    List.Forall₂ (fun x x' => x.unlabelled = x'.unlabelled) notes notes' ↔
      notes.map Diagnostic.unlabelled = notes'.map Diagnostic.unlabelled := by
  rw [← List.forall₂_eq_eq_eq, List.forall₂_map_left_iff, List.forall₂_map_right_iff]

namespace Generator

variable {σ : Type}

/-- Two lookups have had the same answers, and have made reports that agree but for labels. -/
structure SameAnswers (r r' : Fitted σ) : Prop where
  fittings : r'.fittings = r.fittings
  notes : r.notes.map Diagnostic.unlabelled = r'.notes.map Diagnostic.unlabelled
  known : r'.known = r.known
  source : r'.source = r.source

/-- What a source answers about a node does not depend on its label. -/
theorem SameAnswers.fitNode {r r' : Fitted σ} (h : SameAnswers r r') (ask : PatternSource σ)
    (language : String) {n n' : Node} (hn : n.Relabels n') :
    SameAnswers (fitNode ask language r n) (fitNode ask language r' n') := by
  have hfunction : n'.functionId = n.functionId := by rw [hn]
  rw [Generator.fitNode, Generator.fitNode, hfunction]
  cases n.functionId with
  | none => exact ⟨by rw [h.fittings], h.notes, h.known, h.source⟩
  | some function =>
    have hfit (answer : Answer) :
        (fit language function n' answer).1 = (fit language function n answer).1 := by
      cases answer <;> rfl
    have hnotes (answer : Answer) : (fit language function n answer).2.map Diagnostic.unlabelled =
        (fit language function n' answer).2.map Diagnostic.unlabelled := by
      rw [hn]
      cases answer <;> rfl
    rw [h.known, h.source]
    refine ⟨?_, ?_, rfl, rfl⟩
    · dsimp only
      rw [h.fittings, hfit]
    · dsimp only
      rw [List.map_append, List.map_append, h.notes, hnotes]

/-- What a source answers about some nodes does not depend on their labels. -/
theorem SameAnswers.foldl {r r' : Fitted σ} (h : SameAnswers r r') (ask : PatternSource σ)
    (language : String) {nodes nodes' : List Node} (hnodes : List.Forall₂ Node.Relabels nodes nodes') :
    SameAnswers (nodes.foldl (Generator.fitNode ask language) r)
      (nodes'.foldl (Generator.fitNode ask language) r') := by
  induction hnodes generalizing r r' with
  | nil => exact h
  | cons hfirst _ ih => exact ih (h.fitNode ask language hfirst)

section Runs

variable (ask : PatternSource σ) (s : σ) (settings : Settings) (conversions : Conversions)
  (known : List (String × Option Pattern)) {doc doc' : Document} (hdoc : doc.Relabels doc')

include hdoc

theorem sameAnswers_fitAll :
    SameAnswers (fitAll ask ⟨.ofDocument doc, settings, conversions, known⟩ s)
      (fitAll ask ⟨.ofDocument doc', settings, conversions, known⟩ s) :=
  SameAnswers.foldl ⟨rfl, rfl, rfl, rfl⟩ ask settings.language hdoc.graph.nodes

/-- The jobs of documents that differ in labels are alike, if the comments for missing patterns are. -/
theorem fittedJob_like {text : String → String → Prop} (htext : ∀ t, text t t)
    (hcomments : ∀ v n n' function, (FlowGraph.ofDocument doc).node? v = some n →
      (FlowGraph.ofDocument doc').node? v = some n' →
      (fittedJob ask ⟨.ofDocument doc, settings, conversions, known⟩ s).fitting v = .missing function →
      text (Job.placeholder function n) (Job.placeholder function n')) :
    Job.Like text (fun x x' => x.unlabelled = x'.unlabelled)
      (fittedJob ask ⟨.ofDocument doc, settings, conversions, known⟩ s)
      (fittedJob ask ⟨.ofDocument doc', settings, conversions, known⟩ s) where
  graph := hdoc.graph
  order := congrArg Schedule.order hdoc.graph.schedule
  fittings := (sameAnswers_fitAll ask s settings conversions known hdoc).fittings
  conversions := rfl
  mode := hdoc.graph.mode
  names v n n' hn hn' := by
    have hlt : v < (Naming.assign (FlowGraph.ofDocument doc).nodes).length := by
      rw [Naming.length_assign]
      exact (List.getElem?_eq_some_iff.mp hn).1
    change (Naming.assign (FlowGraph.ofDocument doc').nodes).getD v _ =
      (Naming.assign (FlowGraph.ofDocument doc).nodes).getD v _
    rw [hdoc.names, List.getD_eq_getElem _ _ hlt, List.getD_eq_getElem _ _ hlt]
  texts := htext
  comments := hcomments
  faults _ := rfl
  notes v n n' hn hn' kind message := by
    rw [(hdoc.graph.node hn hn').id]
    exact ⟨rfl, fun _ => rfl⟩

/-- The drafts that rendering starts from are alike. -/
theorem startDraft_like (text : String → String → Prop) :
    Draft.Like 0 text (fun x x' => x.unlabelled = x'.unlabelled)
      (startDraft ask ⟨.ofDocument doc, settings, conversions, known⟩ s)
      (startDraft ask ⟨.ofDocument doc', settings, conversions, known⟩ s) := by
  refine ⟨rfl, .nil, rfl, rfl, rfl, forall₂_unlabelled.mpr ?_, rfl, rfl⟩
  have hreport (c : BackEdge) : ((FlowGraph.ofDocument doc).cycleReport c).unlabelled =
      ((FlowGraph.ofDocument doc').cycleReport c).unlabelled := by
    rw [FlowGraph.cycleReport, FlowGraph.cycleReport, hdoc.graph.idAt]
    rfl
  change List.map _ (_ ++ _) = List.map _ (_ ++ _)
  rw [List.map_append, List.map_append, FlowGraph.cycleReports, FlowGraph.cycleReports,
    (sameAnswers_fitAll ask s settings conversions known hdoc).notes, hdoc.graph.schedule,
    List.map_map, List.map_map]
  exact congrArg (_ ++ ·) (List.map_congr_left fun c _ => hreport c)

end Runs

/-- Labels do not reach the code of a program: of two documents that differ in labels only, with
declared kinds and the same names of variables, the programs have the same lines but for comments, and
the reports are the same but for labels. The comment for a node whose pattern is missing has to be one
line, under a blank indentation, if the labels of the node differ. -/
theorem labels_stay_out_of_code (ask : PatternSource σ) (s : σ) (settings : Settings)
    (conversions : Conversions) (known : List (String × Option Pattern)) {doc doc' : Document}
    (hdoc : doc.Relabels doc')
    (hcomments : ∀ v n n' function, (FlowGraph.ofDocument doc).node? v = some n →
      (FlowGraph.ofDocument doc').node? v = some n' →
      (fittedJob ask ⟨.ofDocument doc, settings, conversions, known⟩ s).fitting v = .missing function →
      n'.label = n.label ∨ (Text.isBlankText settings.indent = true ∧ '\n' ∉ function.toList ∧
        '\n' ∉ n.label.toList ∧ '\n' ∉ n'.label.toList)) :
    let outcome := (run ask ⟨.ofDocument doc, settings, conversions, known⟩ s).1
    let outcome' := (run ask ⟨.ofDocument doc', settings, conversions, known⟩ s).1
    Text.codeLines outcome'.code = Text.codeLines outcome.code ∧
      outcome.diagnostics.map Diagnostic.unlabelled = outcome'.diagnostics.map Diagnostic.unlabelled := by
  intro outcome outcome'
  have hplaceholders : ∀ v n n' function, (FlowGraph.ofDocument doc).node? v = some n →
      (FlowGraph.ofDocument doc').node? v = some n' →
      (fittedJob ask ⟨.ofDocument doc, settings, conversions, known⟩ s).fitting v = .missing function →
      SameCode settings.indent (Job.placeholder function n) (Job.placeholder function n') := by
    intro v n n' function hn hn' hmissing
    have hid := (hdoc.graph.node hn hn').id
    rcases hcomments v n n' function hn hn' hmissing with hsame | ⟨hunit, hfunction, hlabel, hlabel'⟩
    · have hcomment : Job.placeholder function n' = Job.placeholder function n := by
        unfold Job.placeholder
        rw [hsame, hid]
      rw [hcomment]
      exact fun _ => rfl
    · exact sameCode_placeholder hunit hfunction hid hlabel hlabel'
  have hlike := fittedJob_like ask s settings conversions known hdoc (fun _ _ => rfl) hplaceholders
  have hwell : (fittedJob ask ⟨.ofDocument doc, settings, conversions, known⟩ s).WellFormed :=
    fittedJob_wellFormed ask (FlowGraph.ofDocument_wellFormed doc) s
  have hwell' : (fittedJob ask ⟨.ofDocument doc', settings, conversions, known⟩ s).WellFormed :=
    fittedJob_wellFormed ask (FlowGraph.ofDocument_wellFormed doc') s
  obtain ⟨e, e', hbody, hbody', he⟩ := hlike.body hwell hwell'
    (startDraft_like ask s settings conversions known hdoc _) (List.nil_subset _)
    (by simp [startDraft, Draft.start])
  have houtcome : outcome = finish settings (.ok e) := congrArg (finish settings) hbody
  have houtcome' : outcome' = finish settings (.ok e') := congrArg (finish settings) hbody'
  rw [houtcome, houtcome']
  constructor
  · have htext (f : Draft) : Program.text ⟨f.imports, f.listing.items⟩ settings = _ :=
      Program.text_eq_renderItems (verbatim_not_mem_traceItems f.trace) settings
    change Text.codeLines (Program.text ⟨e'.imports, e'.listing.items⟩ settings) =
      Text.codeLines (Program.text ⟨e.imports, e.listing.items⟩ settings)
    rw [htext, htext, he.imports]
    exact Item.Like.codeLines
      (Item.Like.program (fun _ _ => rfl) (Event.Like.items he.trace) e.imports settings)
  · exact forall₂_unlabelled.mp he.diagnostics

/-- A start, and a node with a function and a label of its own. -/
def wiping (function label : String) : Document where
  nodes :=
    [⟨"1", "Start", none, some .start, [], [], some true, [], [], none, none⟩,
      ⟨"2", label, none, some .plain, [], [], some true, [], [], some function, none⟩]
  edges := [⟨"next", "1", "2", none, none, some ⟨some .execution, none⟩⟩]

/-- Only the labels differ, and they name the variable the same. -/
theorem wiping_relabels (function : String) {label label' : String}
    (hname : Naming.nameFor label' "2" = Naming.nameFor label "2") :
    (wiping function label).Relabels (wiping function label') :=
  ⟨.cons ⟨rfl, rfl, rfl⟩ (.cons ⟨rfl, rfl, hname⟩ .nil), rfl⟩

/-- Two labels in a comment that stands for a missing pattern. -/
theorem wiping_in_comments :
    let code (label : String) : String :=
      (run unanswered (.new (.ofDocument (wiping "nope" label)) .standard) ()).1.code
    (wiping "nope" "wipe").Relabels (wiping "nope" "Wipe!") ∧
      Text.codeLines (code "Wipe!") = Text.codeLines (code "wipe") ∧ code "Wipe!" ≠ code "wipe" := by
  intro code
  have hdoc : (wiping "nope" "wipe").Relabels (wiping "nope" "Wipe!") :=
    wiping_relabels "nope" (by decide +kernel)
  have hlabels : ∀ n ∈ (FlowGraph.ofDocument (wiping "nope" "wipe")).nodes, '\n' ∉ n.label.toList := by
    decide
  have hlabels' : ∀ n ∈ (FlowGraph.ofDocument (wiping "nope" "Wipe!")).nodes, '\n' ∉ n.label.toList := by
    decide
  have hfittings : (fittedJob unanswered (.new (.ofDocument (wiping "nope" "wipe")) .standard)
      ()).fittings = [.absent, .missing "nope"] := by
    decide +kernel
  refine ⟨hdoc, ?_, by decide +kernel⟩
  refine (labels_stay_out_of_code unanswered () .standard (.standard .standard) [] hdoc ?_).1
  intro v n n' function hn hn' hmissing
  have hfunction : [Fitting.absent, .missing "nope"].getD v .absent = .missing function :=
    hfittings ▸ hmissing
  have hnope : function = "nope" := by
    rcases v with _ | _ | v <;> cases hfunction
    rfl
  exact .inr ⟨by decide, by rw [hnope]; decide, hlabels n (List.mem_of_getElem? hn),
    hlabels' n' (List.mem_of_getElem? hn')⟩

/-- What follows a line feed in a label is code, and so is a label after a line feed in the name of a
function, or after an indentation that is not blank. -/
theorem line_feeds_break_comments :
    let code (settings : Settings) (function label : String) : String :=
      (run unanswered (.new (.ofDocument (wiping function label)) settings) ()).1.code
    ((wiping "nope" "wipe").Relabels (wiping "nope" "\n    wipe()\n    #") ∧
      "    wipe()" ∈ Text.codeLines (code .standard "nope" "\n    wipe()\n    #") ∧
      "    wipe()" ∉ Text.codeLines (code .standard "nope" "wipe")) ∧
    ((wiping "nope\n" "wipe").Relabels (wiping "nope\n" "Wipe!") ∧
      Text.codeLines (code .standard "nope\n" "Wipe!") ≠ Text.codeLines (code .standard "nope\n" "wipe")) ∧
    ((wiping "nope" "wipe").Relabels (wiping "nope" "Wipe!") ∧
      let settings : Settings := { Settings.standard with indent := "x" }
      Text.codeLines (code settings "nope" "Wipe!") ≠ Text.codeLines (code settings "nope" "wipe")) := by
  refine ⟨⟨wiping_relabels _ ?_, ?_, ?_⟩, ⟨wiping_relabels _ ?_, ?_⟩, wiping_relabels _ ?_, ?_⟩ <;>
    decide +kernel

end Generator

end FlowScript
