import FlowScript.Lint.Connections
import FlowScript.Proofs.Reading
import FlowScript.Proofs.Visits

/-!
# Reports about types

What a generator reports about the types at a port is what a check of the edges alone finds about
the edge that feeds it. The reports of a node arise in its one turn, one for each port whose types
need one, so a port is reported exactly as often as its last edge is found.
-/

namespace FlowScript

open Relation (ReflTransGen)

/-- Whether reports of a kind are about the types at both ends of a connection. -/
def DiagnosticKind.isAboutTypes : DiagnosticKind → Bool
  | .typeIncompatible | .typeConversionApplied => true
  | _ => false

/-- The kind of the report that a pair of types calls for. -/
def Compatibility.reportKind? : Compatibility → Option DiagnosticKind
  | .withConversion => some .typeConversionApplied
  | .incompatible => some .typeIncompatible
  | .compatible | .unknown => none

namespace Diagnostic

/-- What a report says, apart from its words. -/
def gist (r : Diagnostic) : DiagnosticKind × Option String × Option Connection :=
  (r.kind, r.nodeId, r.connection)

/-- Whether a report is about the types at an input port, given by the ids of node and port. -/
def concerns (node port : String) (r : Diagnostic) : Bool :=
  r.kind.isAboutTypes && r.connection.any fun c => c.targetNode == node && c.targetPort == port

end Diagnostic

/-- The type `any` needs no report. -/
theorem TypeRules.check_any (rules : TypeRules) (t : String) :
    rules.check "any" t = .compatible := by
  have hany : TypeName.canonical "any" = "any" := by decide +kernel
  simp [check, hany]

namespace Conversions

/-- A conversion reports how its types fit. -/
theorem convert_compatibility (c : Conversions) (x s t : String) :
    (c.convert x s t).compatibility = c.rules.check s t := by
  simp only [convert]
  generalize c.rules.check s t = fits
  by_cases h : fits = .withConversion
  · rw [if_pos h]
    cases c.functions.lookup (TypeName.canonical s, TypeName.canonical t) with
    | some f => rfl
    | none => cases fallback? x (TypeName.canonical s) (TypeName.canonical t) <;> rfl
  · rw [if_neg h]

/-- Every conversion that the usual rules ask for is made. -/
theorem standard_applied {s t : String} (h : TypeRules.standard.check s t = .withConversion)
    (x : String) : ((standard .standard).convert x s t).applied = true := by
  have hpair : (TypeName.canonical s, TypeName.canonical t) ∈ TypeRules.standard.pairs := by
    rw [TypeRules.check] at h
    split_ifs at h with _ hpair
    simpa using hpair
  have hcheck : (standard .standard).rules.check s t = .withConversion := h
  rw [convert, if_pos hcheck]
  generalize TypeName.canonical s = a at hpair
  generalize TypeName.canonical t = b at hpair
  simp only [TypeRules.standard, List.mem_cons, List.not_mem_nil, or_false, Prod.mk.injEq] at hpair
  rcases hpair with ⟨rfl, rfl⟩ | ⟨rfl, rfl⟩ | ⟨rfl, rfl⟩ | ⟨rfl, rfl⟩ | ⟨rfl, rfl⟩ | ⟨rfl, rfl⟩ |
    ⟨rfl, rfl⟩ | ⟨rfl, rfl⟩ <;> rfl

end Conversions

namespace FlowGraph

variable {g : FlowGraph} {u v : Nat} {m n : Node} {p : Port}

/-- A node is found by its id. -/
theorem WellFormed.index?_eq (hg : g.WellFormed) (hn : g.node? v = some n) :
    g.index? n.id = some v := by
  have hv : v < g.size := (List.getElem?_eq_some_iff.mp hn).1
  have hid : g.idAt v = n.id := by simp [idAt, hn]
  cases hindex : g.index? n.id with
  | none =>
    have hnone := List.findIdx?_eq_none_iff.mp hindex n (List.mem_of_getElem? hn)
    simp at hnone
  | some w =>
    obtain ⟨hw, hfound, -⟩ := List.findIdx?_eq_some_iff_getElem.mp hindex
    have hnode : g.node? w = some g.nodes[w] := List.getElem?_eq_getElem hw
    have hsame : g.idAt w = g.idAt v := by
      rw [hid, idAt, hnode]
      simpa using hfound
    rw [hg.idAt_inj hw hv hsame]

/-- The ports that an edge names are compared by their types: a port that is not declared is as
good as one of type `any`. -/
theorem WellFormed.checkPorts_reportKind? (hg : g.WellFormed) (rules : TypeRules)
    (hm : g.node? u = some m) (hn : g.node? v = some n) {port : String}
    (hp : n.input? p.id = some p) :
    (rules.checkPorts g (m.id, port) (n.id, p.id)).reportKind? =
      (rules.check (g.outputType u port) p.type).reportKind? := by
  simp only [TypeRules.checkPorts, hg.index?_eq hm, hg.index?_eq hn, Option.bind_some, hm, hn, hp,
    outputType]
  cases m.output? port with
  | none => simp [TypeRules.check_any, Compatibility.reportKind?]
  | some q => rfl

/-- What feeds a port comes from a data edge into it. -/
theorem exists_edge_of_binding? {b : Binding} {port : String} (h : g.binding? v port = some b) :
    ∃ e ∈ g.edges, e.kind = .data ∧ e.target = v ∧ e.targetPort = port ∧ b = e.binding := by
  have hbound (es : List Edge) (bs : List Binding) :
      (es.foldl (fun bs e => bindPort e.binding bs) bs).find? (·.targetPort == port) = some b →
        bs.find? (·.targetPort == port) = some b ∨
          ∃ e ∈ es, e.targetPort = port ∧ b = e.binding := by
    induction es generalizing bs with
    | nil => exact Or.inl
    | cons e es ih =>
      intro hfold
      rcases ih _ hfold with hfound | ⟨f, hf, hlast⟩
      · rw [find?_bindPort] at hfound
        split at hfound
        · rename_i hport
          exact .inr ⟨e, List.mem_cons_self, hport, (Option.some.inj hfound).symm⟩
        · exact .inl hfound
      · exact .inr ⟨f, List.mem_cons_of_mem _ hf, hlast⟩
  rcases hbound _ _ h with hnone | ⟨e, he, hport, hb⟩
  · cases hnone
  · obtain ⟨hmem, hdata⟩ := List.mem_filter.mp he
    obtain ⟨hkind, htarget⟩ := of_decide_eq_true hdata
    exact ⟨e, hmem, hkind, htarget, hport, hb⟩

end FlowGraph

/-- A port is found by its id, if the ids of a node's ports differ. -/
theorem Node.input?_eq {n : Node} {p : Port} (hids : (n.inputs.map (·.id)).Nodup)
    (hp : p ∈ n.inputs) : n.input? p.id = some p := by
  cases hfound : n.input? p.id with
  | none =>
    have hnone := List.find?_eq_none.mp hfound p hp
    simp at hnone
  | some q =>
    have hq : q ∈ n.inputs := List.mem_of_find?_eq_some hfound
    have hid : q.id = p.id := by simpa using List.find?_some hfound
    rw [List.inj_on_of_nodup_map hids hq hp hid]

/-- A finding about an edge has the kind that its types call for. -/
theorem Lint.connectionFinding?_gist (rules : TypeRules) (g : FlowGraph) (e : Edge)
    (source target : Node) :
    (connectionFinding? rules g e source target).map Diagnostic.gist =
      (rules.checkPorts g (source.id, e.sourcePort) (target.id, e.targetPort)).reportKind?.map
        fun kind => (kind, some target.id, some ⟨e.id, source.id, e.sourcePort,
          g.outputType e.source e.sourcePort, target.id, e.targetPort,
          ((target.input? e.targetPort).map (·.type)).getD ""⟩) := by
  rw [connectionFinding?]
  dsimp only
  split <;> simp_all [Compatibility.reportKind?, Diagnostic.gist, Diagnostic.forNode,
    Diagnostic.withConnection]

/-- A finding about a data edge is among those about all edges. -/
theorem Lint.mem_connections {rules : TypeRules} {g : FlowGraph} {e : Edge} {source target : Node}
    {f : Diagnostic} (he : e ∈ g.edges) (hkind : e.kind = .data)
    (hsource : g.node? e.source = some source) (htarget : g.node? e.target = some target)
    (hf : connectionFinding? rules g e source target = some f) : f ∈ connections rules g := by
  refine List.mem_filterMap.mpr ⟨e, he, ?_⟩
  simp [hkind, hsource, htarget, hf]

namespace Job

variable {job : Job} {d e f : Draft} {u v : Nat} {n : Node} {p : Port}

/-- A report about the types at a port that something feeds. -/
def IsTypeNote (job : Job) (v : Nat) (r : Diagnostic) : Prop :=
  ∃ d n p b, job.graph.node? v = some n ∧ p ∈ n.inputs ∧ job.graph.binding? v p.id = some b ∧
    r ∈ (job.boundArgument d n p b).notes

/-- The diagnostics grow, and those about types are about ports of one node. -/
def Reports (job : Job) (v : Nat) (d e : Draft) : Prop :=
  ∃ new, e.diagnostics = d.diagnostics ++ new ∧
    ∀ r ∈ new, r.kind.isAboutTypes = true → job.IsTypeNote v r

/-- Nothing is reported. -/
theorem Reports.of_eq (h : e.diagnostics = d.diagnostics) : Reports job v d e :=
  ⟨[], by rw [h, List.append_nil], by simp⟩

/-- Reports after reports. -/
theorem Reports.trans (h : Reports job v d e) (h' : Reports job v e f) : Reports job v d f := by
  obtain ⟨new, hd, hnew⟩ := h
  obtain ⟨new', he, hnew'⟩ := h'
  refine ⟨new ++ new', by rw [he, hd, List.append_assoc], fun r hr => ?_⟩
  exact (List.mem_append.mp hr).elim (hnew r) (hnew' r)

/-- Reports that are not about types. -/
theorem Reports.plain {new : List Diagnostic} (hnew : ∀ r ∈ new, r.kind.isAboutTypes = false) :
    Reports job v d (d.report new) :=
  ⟨new, rfl, fun r hr htypes => absurd (hnew r hr) (by simp [htypes])⟩

/-- A port that nothing feeds has no report about types. -/
theorem freeArgument_kind {r : Diagnostic} (hr : r ∈ (freeArgument n p).notes) :
    r.kind.isAboutTypes = false := by
  rw [freeArgument] at hr
  split at hr
  · exact absurd hr List.not_mem_nil
  · dsimp only at hr
    split at hr
    · rw [List.mem_singleton.mp hr]
      rfl
    · exact absurd hr List.not_mem_nil

/-- What is reported about an argument. -/
theorem argument_reports {w : Draft} (hn : job.graph.node? v = some n) (hp : p ∈ n.inputs) :
    Reports job v d (d.report (job.argument w v n p).notes) := by
  refine ⟨_, rfl, fun r hr htypes => ?_⟩
  rw [argument] at hr
  split at hr
  · rename_i b hb
    exact ⟨w, n, p, b, hn, hp, hb, hr⟩
  · rw [freeArgument_kind hr] at htypes
    cases htypes

/-- What is reported about the variable of a loop. -/
theorem loopVariable_reports {w : Draft} (hn : job.graph.node? v = some n) (hp : p ∈ n.inputs) :
    Reports job v d (d.report (job.loopVariable w v n p).notes) := by
  refine ⟨_, rfl, fun r hr _ => ?_⟩
  rw [loopVariable] at hr
  split at hr
  · rename_i b hb
    exact ⟨w, n, p, b, hn, hp, hb, hr⟩
  · exact absurd hr List.not_mem_nil

/-- The lines of a filled pattern come without reports, and nothing is returned at the end. -/
theorem writeFilled_keeps (job : Job) (d : Draft) (v : Nat) (n : Node) (kind : PatternKind)
    (text : String) : (job.writeFilled d v n kind text).diagnostics = d.diagnostics ∧
      (job.writeFilled d v n kind text).deferred = d.deferred := by
  cases kind with
  | expression | block => exact ⟨rfl, rfl⟩
  | statement =>
    change (List.foldl _ d _).diagnostics = _ ∧ (List.foldl _ d _).deferred = _
    generalize ((Text.lines text).map Text.trim).filter _ = lines
    induction lines generalizing d with
    | nil => exact ⟨rfl, rfl⟩
    | cons l rest ih => exact ih _

/-- What is reported about the pattern of a node: first about its arguments, then about holes. -/
theorem writePattern_diagnostics (job : Job) (d : Draft) (v : Nat) (n : Node) (q : Pattern) :
    ∃ holes, (job.writePattern d v n q).diagnostics =
        d.diagnostics ++ n.inputs.flatMap (fun p => (job.argument d v n p).notes) ++ holes ∧
      ∀ r ∈ holes, r.kind.isAboutTypes = false := by
  let arguments := n.inputs.map (job.argument d v n)
  refine ⟨(Template.fill q.text (arguments.map (·.text))).unresolved.map
    (holeNote n arguments.length), ?_, ?_⟩
  · rw [writePattern, (writeFilled_keeps ..).1]
    simp only [Draft.require, Draft.report, List.flatMap_map, arguments]
  · intro r hr
    obtain ⟨i, -, rfl⟩ := List.mem_map.mp hr
    rfl

/-- What is reported about a pattern. -/
theorem writePattern_reports (hn : job.graph.node? v = some n) (d : Draft) (q : Pattern) :
    Reports job v d (job.writePattern d v n q) := by
  obtain ⟨holes, hdiagnostics, hholes⟩ := writePattern_diagnostics job d v n q
  refine ⟨_, by rw [hdiagnostics, List.append_assoc], fun r hr htypes => ?_⟩
  rcases List.mem_append.mp hr with hr | hr
  · obtain ⟨p, hp, hr⟩ := List.mem_flatMap.mp hr
    obtain ⟨new, hnew, hnotes⟩ := @argument_reports job d v n p d hn hp
    exact hnotes r (List.append_cancel_left hnew ▸ hr) htypes
  · rw [hholes r hr] at htypes
    cases htypes

/-- What is reported about an output. -/
theorem writeOutput_reports (hn : job.graph.node? v = some n) (h : job.writeOutput d v n = .ok e) :
    Reports job v d e := by
  rw [writeOutput] at h
  split at h
  · obtain rfl := Except.ok.inj h
    exact .of_eq rfl
  · split_ifs at h with hnone
    · obtain rfl := Except.ok.inj h
      exact .of_eq rfl
    · cases hinputs : n.inputs with
      | nil => simp [hinputs] at hnone
      | cons p ps =>
        simp only [argumentAt, hinputs, List.getElem?_cons_zero] at h
        obtain rfl := Except.ok.inj h
        exact (argument_reports hn (hinputs ▸ List.mem_cons_self)).trans (.of_eq rfl)

/-- What is reported about a node that is written. -/
theorem writeGuarded_reports (job : Job) (d : Draft) (v : Nat) :
    Reports job v d (job.writeGuarded d v) := by
  rw [writeGuarded]
  split
  · rename_i e hwrite
    cases hn : job.graph.node? v with
    | none => simp [writeNode, node, hn] at hwrite
    | some n =>
      simp only [writeNode, node_eq_ok hn] at hwrite
      split at hwrite
      · obtain rfl := Except.ok.inj hwrite
        exact writePattern_reports hn d _
      · obtain rfl := Except.ok.inj hwrite
        exact .of_eq rfl
      · split at hwrite
        · obtain rfl := Except.ok.inj hwrite
          exact .of_eq rfl
        · exact writeOutput_reports hn hwrite
        · obtain rfl := Except.ok.inj hwrite
          exact .of_eq rfl
  · exact (Reports.of_eq (e := d.write (some v) _) rfl).trans
      (.plain fun r hr => by rw [List.mem_singleton.mp hr]; rfl)

/-- What is reported about a node that becomes a block. -/
theorem block?_reports {b : Block} (h : job.block? d v = some (b, e)) : Reports job v d e := by
  obtain ⟨n, hn, ⟨-, hblock⟩ | ⟨-, hblock⟩⟩ := block?_eq_some h
  · obtain ⟨p, hp, -, -, rfl⟩ := conditionalBlock?_eq_some hblock
    exact argument_reports hn (List.mem_of_head? hp)
  · obtain ⟨name, collection, hhead, -, -, -, rfl⟩ := loopBlock?_eq_some hblock
    rw [loopHead?] at hhead
    split at hhead
    · cases hhead
    · rename_i q hinputs
      obtain ⟨rfl, rfl⟩ := Prod.mk.inj (Option.some.inj hhead)
      exact (argument_reports hn (hinputs ▸ List.mem_cons_self)).trans (.of_eq rfl)
    · rename_i q q' rest hinputs
      obtain ⟨rfl, rfl⟩ := Prod.mk.inj (Option.some.inj hhead)
      have hname : Reports job v d (d.report (job.loopVariable d v n q).notes) :=
        loopVariable_reports hn (hinputs ▸ List.mem_cons_self)
      have hcollection := @argument_reports job (d.report (job.loopVariable d v n q).notes) v n q' d
        hn (hinputs ▸ List.mem_cons_of_mem _ List.mem_cons_self)
      refine hname.trans (hcollection.trans (.of_eq ?_))
      simp [Draft.report, Draft.bindOutputs]

/-- What is reported about the values that are returned at the end. -/
theorem closing_diagnostics (job : Job) (d : Draft) :
    ∃ new, (job.closing d).diagnostics = d.diagnostics ++ new ∧
      ∀ r ∈ new, r.kind.isAboutTypes = true → ∃ u ∈ d.deferred, job.IsTypeNote u r := by
  rw [closing]
  split
  · exact ⟨[], (List.append_nil _).symm, by simp⟩
  · refine ⟨(d.deferred.filterMap (job.returned? d)).flatMap (·.notes), ?_, fun r hr htypes => ?_⟩
    · rw [returnAll]
      split <;> rfl
    · obtain ⟨a, ha, hr⟩ := List.mem_flatMap.mp hr
      obtain ⟨u, hu, hreturned⟩ := List.mem_filterMap.mp ha
      obtain ⟨n, hn, hvalue⟩ := Option.bind_eq_some_iff.mp hreturned
      obtain ⟨p, hp, rfl⟩ := Option.map_eq_some_iff.mp hvalue
      obtain ⟨new, hnew, hnotes⟩ := @argument_reports job d u n p d hn (List.mem_of_head? hp)
      exact ⟨u, hu, hnotes r (List.append_cancel_left hnew ▸ hr) htypes⟩

/-- A report about types names the node and the port that it is about. -/
theorem boundArgument_connection {b : Binding} {r : Diagnostic}
    (hr : r ∈ (job.boundArgument d n p b).notes) :
    ∃ c, r.connection = some c ∧ c.targetNode = n.id ∧ c.targetPort = p.id := by
  simp only [boundArgument, Option.mem_toList, Option.map_eq_some_iff] at hr
  obtain ⟨note, -, rfl⟩ := hr
  exact ⟨_, rfl, rfl, rfl⟩

/-- With the usual conversions, a report about a conversion has the kind that its types call for. -/
theorem conversionNote?_kind (x s : String) (p : Port) :
    (conversionNote? ((Conversions.standard .standard).convert x s p.type) s p).map Prod.fst =
      (TypeRules.standard.check s p.type).reportKind? := by
  have hcompatibility := Conversions.convert_compatibility (.standard .standard) x s p.type
  have hrules : (Conversions.standard .standard).rules = TypeRules.standard := rfl
  rw [hrules] at hcompatibility
  rw [conversionNote?, hcompatibility]
  cases hcheck : TypeRules.standard.check s p.type with
  | withConversion => simp [Conversions.standard_applied hcheck, Compatibility.reportKind?]
  | incompatible | compatible | unknown => rfl

/-- With the usual conversions, an edge is reported at its port just as the edges alone would have
it. -/
theorem boundArgument_gists (hg : job.graph.WellFormed)
    (hconversions : job.conversions = .standard .standard) {edge : Edge} {source : Node}
    (hsource : job.graph.node? edge.source = some source) (hn : job.graph.node? v = some n)
    (hids : (n.inputs.map (·.id)).Nodup) (hp : p ∈ n.inputs) (hport : edge.targetPort = p.id) :
    (job.boundArgument d n p edge.binding).notes.map Diagnostic.gist =
      ((Lint.connectionFinding? .standard job.graph edge source n).map Diagnostic.gist).toList := by
  have hinput := Node.input?_eq hids hp
  have hid : job.graph.idAt edge.source = source.id := by simp [FlowGraph.idAt, hsource]
  rw [Lint.connectionFinding?_gist, hport, hg.checkPorts_reportKind? .standard hsource hn hinput,
    ← conversionNote?_kind (job.sourceText d edge.binding)]
  simp only [boundArgument, hconversions, hinput, Edge.binding, hid, Option.map_some,
    Option.getD_some]
  cases conversionNote? _ _ p with
  | none => rfl
  | some note => rfl

/-- A report about types says what some finding about an edge says. -/
theorem IsTypeNote.gist_mem (hg : job.graph.WellFormed)
    (hconversions : job.conversions = .standard .standard)
    (hids : ∀ n ∈ job.graph.nodes, (n.inputs.map (·.id)).Nodup) {r : Diagnostic}
    (h : job.IsTypeNote v r) :
    ∃ finding ∈ Lint.connections .standard job.graph, r.gist = finding.gist := by
  obtain ⟨d, n, p, b, hn, hp, hb, hr⟩ := h
  obtain ⟨edge, hedge, hkind, htarget, hport, rfl⟩ := FlowGraph.exists_edge_of_binding? hb
  obtain ⟨source, hsource⟩ := FlowGraph.exists_node (hg.sources edge hedge)
  have hgists := @boundArgument_gists job d v n p hg hconversions edge source hsource hn
    (hids n (List.mem_of_getElem? hn)) hp hport
  have hmem : r.gist ∈ ((Lint.connectionFinding? .standard job.graph edge source n).map
      Diagnostic.gist).toList := hgists ▸ List.mem_map_of_mem hr
  obtain ⟨finding, hfinding, hgist⟩ := Option.map_eq_some_iff.mp (Option.mem_toList.mp hmem)
  exact ⟨finding, Lint.mem_connections hedge hkind hsource (htarget ▸ hn) hfinding, hgist.symm⟩

/-- A report about types concerns no port of another node. -/
theorem IsTypeNote.concerns (hg : job.graph.WellFormed) {r : Diagnostic} (h : job.IsTypeNote u r)
    (hn : job.graph.node? v = some n) (hne : u ≠ v) (port : String) :
    r.concerns n.id port = false := by
  obtain ⟨d, m, p, b, hm, -, -, hr⟩ := h
  obtain ⟨c, hc, htarget, -⟩ := boundArgument_connection hr
  have hid : m.id ≠ n.id := by
    intro hsame
    have hindex := hg.index?_eq hm
    rw [hsame, hg.index?_eq hn] at hindex
    exact hne (Option.some.inj hindex).symm
  simp [Diagnostic.concerns, hc, htarget, hid]

/-- Reports that are no reports about types of a node do not concern its ports. -/
theorem filter_concerns_eq_nil {node port : String} {new : List Diagnostic}
    (hnew : ∀ r ∈ new, r.kind.isAboutTypes = true → r.concerns node port = false) :
    new.filter (·.concerns node port) = [] := by
  rw [List.filter_eq_nil_iff]
  intro r hr hconcerns
  have htypes : r.kind.isAboutTypes = true := by
    rw [Diagnostic.concerns, Bool.and_eq_true] at hconcerns
    exact hconcerns.1
  rw [hnew r hr htypes] at hconcerns
  cases hconcerns

/-- What reports about one node add about a port of another: nothing. -/
theorem Reports.filter_concerns (hg : job.graph.WellFormed) (h : Reports job u d e)
    (hn : job.graph.node? v = some n) (hne : u ≠ v) (port : String) :
    e.diagnostics.filter (·.concerns n.id port) = d.diagnostics.filter (·.concerns n.id port) := by
  obtain ⟨new, hdiagnostics, hnew⟩ := h
  have hnone := @filter_concerns_eq_nil n.id port new fun r hr htypes =>
    (hnew r hr htypes).concerns hg hn hne port
  rw [hdiagnostics, List.filter_append, hnone, List.append_nil]

/-- The turn of other nodes and all that is about no node leave the reports about a port alone. -/
theorem Aside.filter_concerns (hg : job.graph.WellFormed) (hn : job.graph.node? v = some n)
    (port : String) (h : Aside job v d e) :
    e.diagnostics.filter (·.concerns n.id port) = d.diagnostics.filter (·.concerns n.id port) := by
  cases h with
  | lines hne => exact (writeGuarded_reports job d _).filter_concerns hg hn hne port
  | shape hne hblock => exact (block?_reports hblock).filter_concerns hg hn hne port
  | enter | line | openArm | closeArm | hold | letGo => rfl

/-- Only in its turn is a node put among those whose values are returned at the end. -/
theorem Aside.not_mem_deferred (h : Aside job v d e) (hd : v ∉ d.deferred) : v ∉ e.deferred := by
  cases h with
  | @lines u _ hne =>
    intro hin
    rcases (writeGuarded_writes job d u).deferred v hin with hin | rfl
    · exact hd hin
    · exact hne rfl
  | shape _ hblock =>
    rw [(block?_alike hblock).deferred]
    exact hd
  | enter | line | openArm | closeArm | hold | letGo => exact hd

/-- Among the reports about all ports of a node, those that concern one port are its own. -/
theorem filter_concerns_arguments (hids : (n.inputs.map (·.id)).Nodup) (hp : p ∈ n.inputs)
    {b : Binding} (hb : job.graph.binding? v p.id = some b) :
    (n.inputs.flatMap fun q => (job.argument d v n q).notes).filter (·.concerns n.id p.id) =
      (job.boundArgument d n p b).notes.filter (·.kind.isAboutTypes) := by
  have hown : (job.argument d v n p).notes.filter (·.concerns n.id p.id) =
      (job.boundArgument d n p b).notes.filter (·.kind.isAboutTypes) := by
    rw [argument, hb]
    refine List.filter_congr fun r hr => ?_
    obtain ⟨c, hc, hnode, hport⟩ := boundArgument_connection hr
    simp [Diagnostic.concerns, hc, hnode, hport]
  have hother (q : Port) (hid : q.id ≠ p.id) :
      (job.argument d v n q).notes.filter (·.concerns n.id p.id) = [] := by
    refine filter_concerns_eq_nil fun r hr htypes => ?_
    rw [argument] at hr
    split at hr
    · obtain ⟨c, hc, -, hport⟩ := boundArgument_connection hr
      simp [Diagnostic.concerns, hc, hport, hid]
    · rw [freeArgument_kind hr] at htypes
      cases htypes
  rw [List.filter_flatMap]
  generalize n.inputs = ports at hids hp
  induction ports with
  | nil => exact absurd hp List.not_mem_nil
  | cons q rest ih =>
    rw [List.map_cons, List.nodup_cons] at hids
    rw [List.flatMap_cons]
    rcases List.mem_cons.mp hp with rfl | hp
    · have hrest : rest.flatMap
          (fun q => (job.argument d v n q).notes.filter (·.concerns n.id p.id)) = [] := by
        rw [List.flatMap_eq_nil_iff]
        exact fun q hq => hother q fun hid => hids.1 (hid ▸ List.mem_map_of_mem hq)
      rw [hown, hrest, List.append_nil]
    · have hne : q.id ≠ p.id := fun hid => hids.1 (hid ▸ List.mem_map_of_mem hp)
      rw [hother q hne, List.nil_append, ih hids.2 hp]

/-- All reports about an argument that something feeds are about types. -/
theorem boundArgument_filter {b : Binding} :
    (job.boundArgument d n p b).notes.filter (·.kind.isAboutTypes) =
      (job.boundArgument d n p b).notes := by
  refine List.filter_eq_self.mpr fun r hr => ?_
  simp only [boundArgument, Option.mem_toList, Option.map_eq_some_iff] at hr
  obtain ⟨note, hnote, rfl⟩ := hr
  rw [conversionNote?] at hnote
  split at hnote
  · split at hnote <;> exact Option.some.inj hnote ▸ rfl
  · exact Option.some.inj hnote ▸ rfl
  · cases hnote
  · cases hnote

/-- In its turn, a node with a pattern reports about a port that an edge feeds what is found about
the edge, and nothing else. -/
theorem TakesTurn.filter_concerns (h : TakesTurn job v d e) (hn : job.graph.node? v = some n)
    (hconditional : n.kind ≠ .conditional) (hloop : n.kind ≠ .loop) {q : Pattern}
    (hfitting : job.fitting v = .pattern q) (hids : (n.inputs.map (·.id)).Nodup)
    (hp : p ∈ n.inputs) {b : Binding} (hb : job.graph.binding? v p.id = some b) :
    e.deferred = d.deferred ∧ e.diagnostics.filter (·.concerns n.id p.id) =
      d.diagnostics.filter (·.concerns n.id p.id) ++ (job.boundArgument d n p b).notes := by
  cases h with
  | lines =>
    have hwritten : job.writeGuarded d v = job.writePattern d v n q := by
      simp [writeGuarded, writeNode, node_eq_ok hn, hfitting]
    obtain ⟨holes, hdiagnostics, hholes⟩ := writePattern_diagnostics job d v n q
    have hnone : holes.filter (·.concerns n.id p.id) = [] :=
      filter_concerns_eq_nil fun r hr htypes => absurd (hholes r hr) (by simp [htypes])
    constructor
    · rw [hwritten, writePattern, (writeFilled_keeps ..).2]
      rfl
    · rw [hwritten, hdiagnostics, List.filter_append, List.filter_append, hnone, List.append_nil,
        filter_concerns_arguments hids hp hb, boundArgument_filter]
  | shape hblock =>
    obtain ⟨m, hm, hkind⟩ := block?_eq_some hblock
    obtain rfl : m = n := Option.some.inj (hm.symm.trans hn)
    rcases hkind with ⟨hkind, -⟩ | ⟨hkind, -⟩
    · exact absurd hkind hconditional
    · exact absurd hkind hloop

/-- Every report about types that a body adds is about the types at some port. -/
theorem Performs.isTypeNote {ts : List Task} (h : Performs job ts d e)
    (hd : ∀ r ∈ d.diagnostics, r.kind.isAboutTypes = false) :
    ∀ r ∈ (job.closing e).diagnostics, r.kind.isAboutTypes = true → ∃ v, job.IsTypeNote v r := by
  have hadd {u : Nat} {d e : Draft} (hreports : Reports job u d e)
      (hd : ∀ r ∈ d.diagnostics, r.kind.isAboutTypes = true → ∃ v, job.IsTypeNote v r) :
      ∀ r ∈ e.diagnostics, r.kind.isAboutTypes = true → ∃ v, job.IsTypeNote v r := by
    obtain ⟨new, hdiagnostics, hnew⟩ := hreports
    intro r hr htypes
    rw [hdiagnostics] at hr
    rcases List.mem_append.mp hr with hr | hr
    · exact hd r hr htypes
    · exact ⟨u, hnew r hr htypes⟩
  have hbefore := keeps_of_step (S := fun _ => True)
    (P := fun d => ∀ r ∈ d.diagnostics, r.kind.isAboutTypes = true → ∃ v, job.IsTypeNote v r)
    (h.steps fun _ _ => trivial)
    (fun d e hstep hd => by
      cases hstep with
      | lines => exact hadd (writeGuarded_reports job d _) hd
      | shape _ hblock => exact hadd (block?_reports hblock) hd
      | enter | line | openArm | closeArm | hold | letGo => exact hd)
    (fun r hr htypes => absurd (hd r hr) (by simp [htypes]))
  obtain ⟨new, hdiagnostics, hnew⟩ := closing_diagnostics job e
  intro r hr htypes
  rw [hdiagnostics] at hr
  rcases List.mem_append.mp hr with hr | hr
  · exact hbefore r hr htypes
  · obtain ⟨u, -, hnote⟩ := hnew r hr htypes
    exact ⟨u, hnote⟩

/-- The body of a program reports about a port that an edge feeds what one expression for the port
is reported with. -/
theorem Performs.filter_concerns (hjob : job.WellFormed) (h : Performs job job.bodyTasks d e)
    (hd : ∀ r ∈ d.diagnostics, r.kind.isAboutTypes = false) (hbarriers : d.barriers = [])
    (hentered : d.entered = []) (hdeferred : d.deferred = []) (hn : job.graph.node? v = some n)
    (hconditional : n.kind ≠ .conditional) (hloop : n.kind ≠ .loop) {q : Pattern}
    (hfitting : job.fitting v = .pattern q) (hids : (n.inputs.map (·.id)).Nodup)
    (hp : p ∈ n.inputs) {b : Binding} (hb : job.graph.binding? v p.id = some b) :
    ∃ w, (job.closing e).diagnostics.filter (·.concerns n.id p.id) =
      (job.boundArgument w n p b).notes := by
  have hv : v < job.graph.size := (List.getElem?_eq_some_iff.mp hn).1
  obtain ⟨w, w', hbefore, hturn, hafter⟩ := h.takesTurn hjob hbarriers hentered hv
  -- what steps aside keep: the reports about the port, and that the node returns nothing at the end
  have hkeep {d e : Draft} (hsteps : ReflTransGen (Aside job v) d e) (hd : v ∉ d.deferred) :
      v ∉ e.deferred ∧ e.diagnostics.filter (·.concerns n.id p.id) =
        d.diagnostics.filter (·.concerns n.id p.id) :=
    keeps_of_aside (P := fun x => v ∉ x.deferred ∧ x.diagnostics.filter (·.concerns n.id p.id) =
        d.diagnostics.filter (·.concerns n.id p.id)) hsteps
      (fun _ _ hstep hx => ⟨hstep.not_mem_deferred hx.1,
        (hstep.filter_concerns hjob.graph hn p.id).trans hx.2⟩) ⟨hd, rfl⟩
  have hstart : d.diagnostics.filter (·.concerns n.id p.id) = [] :=
    filter_concerns_eq_nil fun r hr htypes => absurd (hd r hr) (by simp [htypes])
  obtain ⟨hfree, hnothing⟩ := hkeep hbefore (by simp [hdeferred])
  obtain ⟨hsame, hown⟩ := hturn.filter_concerns hn hconditional hloop hfitting hids hp hb
  obtain ⟨hfree', hrest⟩ := hkeep hafter (hsame ▸ hfree)
  obtain ⟨new, hclosing, hnew⟩ := closing_diagnostics job e
  have hnone : new.filter (·.concerns n.id p.id) = [] := by
    refine filter_concerns_eq_nil fun r hr htypes => ?_
    obtain ⟨u, hu, hnote⟩ := hnew r hr htypes
    exact hnote.concerns hjob.graph hn (fun hsame => hfree' (hsame ▸ hu)) p.id
  refine ⟨w, ?_⟩
  rw [hclosing, List.filter_append, hnone, List.append_nil, hrest, hown, hnothing, hstart,
    List.nil_append]

end Job

namespace Generator

variable {σ : Type}

/-- Before anything is written there are no reports about types. -/
theorem startDraft_reports (ask : PatternSource σ) (gen : Generator) (s : σ) :
    ∀ r ∈ (gen.startDraft ask s).diagnostics, r.kind.isAboutTypes = false := by
  have hfit (nodes : List Node) (x : Fitted σ) (hx : ∀ r ∈ x.notes, r.kind.isAboutTypes = false) :
      ∀ r ∈ (nodes.foldl (fitNode ask gen.settings.language) x).notes,
        r.kind.isAboutTypes = false := by
    induction nodes generalizing x with
    | nil => exact hx
    | cons n rest ih =>
      refine ih _ ?_
      rw [fitNode]
      split
      · exact hx
      · intro r hr
        rcases List.mem_append.mp hr with hr | hr
        · exact hx r hr
        · generalize (lookup ask gen.settings.language _ x.known x.source).1 = answer at hr
          cases answer with
          | found p => exact absurd hr List.not_mem_nil
          | notFound | failed f => exact List.mem_singleton.mp hr ▸ rfl
  intro r hr
  rcases List.mem_append.mp hr with hr | hr
  · exact hfit gen.graph.nodes ⟨[], [], gen.known, s⟩ (by simp) r hr
  · obtain ⟨c, -, rfl⟩ := List.mem_map.mp hr
    rfl

/-- With the usual rules and conversions, a program and a check of the edges alone agree about types,
if the ids of each node's input ports differ. Every report about types says what some finding about
an edge says. Of a node with a pattern that is no conditional and no loop, a port that edges feed is
reported once if there is a finding about the last of them and not at all otherwise, and the report
says what the finding says. -/
theorem type_reports_agree_with_findings (ask : PatternSource σ) (s : σ) (doc : Document)
    (settings : Settings) (known : List (String × Option Pattern))
    (hids : ∀ n ∈ (FlowGraph.ofDocument doc).nodes, (n.inputs.map (·.id)).Nodup) :
    let gen : Generator := ⟨.ofDocument doc, settings, .standard .standard, known⟩
    let reports := (gen.run ask s).1.diagnostics
    let findings := Lint.connections .standard gen.graph
    (∀ r ∈ reports, r.kind.isAboutTypes = true → ∃ f ∈ findings, r.gist = f.gist) ∧
    ∀ (v : Nat) (n : Node) (q : Pattern) (p : Port) (e : Edge) (source : Node),
      gen.graph.node? v = some n → n.kind ≠ .conditional → n.kind ≠ .loop →
      (gen.fittedJob ask s).fitting v = .pattern q → p ∈ n.inputs →
      gen.graph.LastInto e → e.target = v → e.targetPort = p.id →
      gen.graph.node? e.source = some source →
      let found := Lint.connectionFinding? .standard gen.graph e source n
      (∀ f, found = some f → f ∈ findings) ∧
      (reports.filter (·.concerns n.id p.id)).map Diagnostic.gist =
        (found.map Diagnostic.gist).toList := by
  intro gen reports findings
  let job := gen.fittedJob ask s
  have hg : gen.graph.WellFormed := FlowGraph.ofDocument_wellFormed doc
  have hjob : job.WellFormed := fittedJob_wellFormed ask hg s
  have hstart := startDraft_reports ask gen s
  obtain ⟨c, hperforms, hrendering⟩ := rendering_performs ask hg s
  have hreports : reports = (job.closing c).diagnostics := by
    change (gen.run ask s).1.diagnostics = _
    rw [run_eq_finish, hrendering]
    rfl
  rw [hreports]
  constructor
  · intro r hr htypes
    obtain ⟨v, hnote⟩ := hperforms.isTypeNote hstart r hr htypes
    exact hnote.gist_mem hg rfl hids
  · intro v n q p e source hn hconditional hloop hfitting hp hlast htarget hport hsource found
    subst htarget
    have hnode := hids n (List.mem_of_getElem? hn)
    constructor
    · exact fun f hf => Lint.mem_connections hlast.mem_edges hlast.1 hsource hn hf
    · have hbinding : job.graph.binding? e.target p.id = some e.binding := by
        rw [← hport]
        exact hlast.binding?_eq
      obtain ⟨w, hfilter⟩ := hperforms.filter_concerns hjob hstart rfl rfl rfl hn hconditional hloop
        hfitting hnode hp hbinding
      rw [hfilter]
      exact Job.boundArgument_gists hg rfl hsource hn hnode hp hport

/-- The value that both branches read is computed from a number as from a text, and that is reported
once. -/
theorem sharedReading_reports_conversion :
    (∀ n ∈ (FlowGraph.ofDocument sharedReading).nodes, (n.inputs.map (·.id)).Nodup) ∧
      ((((Generator.new (.ofDocument sharedReading) .standard).run doubling ()).1.diagnostics.filter
        (·.concerns "twice" "in")).map Diagnostic.gist) =
      [(.typeConversionApplied, some "twice",
        some ⟨"doubled", "flag", "out", "int", "twice", "in", "str"⟩)] := by
  have hids : ∀ n ∈ (FlowGraph.ofDocument sharedReading).nodes, (n.inputs.map (·.id)).Nodup := by
    decide
  obtain ⟨-, hports⟩ := type_reports_agree_with_findings doubling () sharedReading .standard [] hids
  obtain ⟨-, hgists⟩ := hports 1 _ ⟨"\x7b0\x7d * 2", .expression, []⟩
    ⟨"in", "in", "str", false, none⟩ ⟨"doubled", 0, 1, .data, "out", "in", none⟩ _ rfl (by decide)
    (by decide) rfl (List.mem_singleton.mpr rfl)
    ⟨rfl, [⟨"condition", 0, 2, .data, "out", "cond", none⟩], _, rfl, by decide⟩ rfl rfl rfl
  exact ⟨hids, hgists.trans (by decide +kernel)⟩

end Generator

end FlowScript
