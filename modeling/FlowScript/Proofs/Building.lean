import FlowScript.Proofs.EdgeOrder
import FlowScript.Proofs.Parts
import FlowScript.Proofs.TypeReports
import Mathlib.Data.List.Forall2

/-!
# The graph of a document and its declarations

The nodes of the graph are the first declarations of their ids, and ids and positions determine each
other. The edges of the graph are the declared edges that join two nodes, in order, each with what its
declaration says. So a declaration that repeats an id and an edge that joins nothing can be deleted, in
any number and order, and the graph stays the same.
-/

namespace FlowScript

open Relation (ReflTransGen)

/-! ### Handles -/

/-- A handle takes a text apart: the text is that of the handle, and its role is the one whose mark the
text starts with. -/
structure Handle.Splits (h : Handle) (text : String) : Prop where
  role : ∀ r, r ≠ .raw → (h.role = r ↔ r.mark.toList <+: text.toList)
  whole : h.text = text

/-- What follows a mark makes up the text together with the mark. -/
theorem afterMark?_eq_some_iff {mark text port : String} :
    afterMark? mark text = some port ↔ mark ++ port = text := by
  rw [afterMark?, ← String.toList_inj, String.toList_append]
  split
  · rename_i hmark
    obtain ⟨rest, hrest⟩ := List.isPrefixOf_iff_prefix.mp hmark
    rw [← hrest, List.drop_left, Option.some_inj, List.append_cancel_left_eq, eq_comm,
      ← String.toList_inj, String.toList_ofList]
  · rename_i hmark
    refine iff_of_false (by simp) fun hport => hmark ?_
    exact List.isPrefixOf_iff_prefix.mpr ⟨_, hport⟩

/-- No mark starts with another mark. -/
theorem Role.mark_inj {r r' : Role} (hr : r ≠ .raw) (hr' : r' ≠ .raw)
    (h : r.mark.toList <+: r'.mark.toList) : r = r' := by
  revert h hr hr'
  cases r <;> cases r' <;> decide

/-- A text is taken apart by the handle that it denotes. -/
theorem Handle.parse_splits (text : String) : (Handle.parse text).Splits text := by
  have hmarked (r : Role) (port : String) (hr : r ≠ .raw) (h : (Handle.mk r port).text = text) :
      (Handle.mk r port).Splits text := by
    have hown : r.mark.toList <+: text.toList :=
      ⟨port.toList, by rw [← String.toList_append, ← h, Handle.text]⟩
    refine ⟨fun r' hr' => ⟨?_, fun hstart => ?_⟩, h⟩
    · rintro rfl
      exact hown
    · rcases List.prefix_or_prefix_of_prefix hown hstart with hle | hle
      · exact Role.mark_inj hr hr' hle
      · exact (Role.mark_inj hr' hr hle).symm
  rw [Handle.parse]
  cases hfound : [Role.executionInput, .executionOutput, .input, .output].findSome? fun role =>
      (afterMark? role.mark text).map (Handle.mk role) with
  | some h =>
    obtain ⟨r, hr, hafter⟩ := List.exists_of_findSome?_eq_some hfound
    obtain ⟨port, hport, rfl⟩ := Option.map_eq_some_iff.mp hafter
    refine hmarked r port ?_ (afterMark?_eq_some_iff.mp hport)
    rintro rfl
    simp at hr
  | none =>
    rw [List.findSome?_eq_none_iff] at hfound
    refine ⟨fun r hr => iff_of_false (Ne.symm hr) ?_, by simp [Handle.text, Role.mark]⟩
    rintro ⟨rest, hrest⟩
    have hafter : afterMark? r.mark text = some (String.ofList rest) := by
      rw [afterMark?_eq_some_iff, ← String.toList_inj, String.toList_append, String.toList_ofList,
        hrest]
    have hnone := hfound r (by cases r <;> simp_all)
    rw [hafter] at hnone
    cases hnone

namespace Document

/-! ### Declarations -/

/-- The declared nodes whose id is not declared before. -/
def firsts (doc : Document) : List Document.Node :=
  (doc.nodes.zipIdx.filter fun x => (doc.nodes.take x.2).all (·.id != x.1.id)).map (·.1)

/-- The text of the handle at which an edge starts. -/
def Edge.sourceText (e : Document.Edge) : String :=
  e.sourceHandle.getD ""

/-- The text of the handle at which an edge ends. -/
def Edge.targetText (e : Document.Edge) : String :=
  e.targetHandle.getD ""

/-- A deletion that should not matter: of a node whose id is declared before, or of an edge with an end
that is not declared. -/
inductive Drops : Document → Document → Prop
  | node {before after : List Document.Node} {n : Document.Node} {edges : List Document.Edge} :
      (∃ m ∈ before, m.id = n.id) → Drops ⟨before ++ n :: after, edges⟩ ⟨before ++ after, edges⟩
  | edge {nodes : List Document.Node} {before after : List Document.Edge} {e : Document.Edge} :
      ¬ Joins ⟨nodes, before ++ e :: after⟩ e →
      Drops ⟨nodes, before ++ e :: after⟩ ⟨nodes, before ++ after⟩

end Document

/-- Walking over the declarations leaves those whose id was neither declared before nor seen. -/
theorem firstDeclared_eq {seen : List String} {before nodes : List Document.Node}
    (h : ∀ id, id ∈ seen ↔ ∃ m ∈ before, m.id = id) :
    firstDeclared seen nodes = ((nodes.zipIdx before.length).filter fun x =>
      ((before ++ nodes).take x.2).all (·.id != x.1.id)).map (·.1) := by
  induction nodes generalizing seen before with
  | nil => rfl
  | cons n rest ih =>
    have htake : (before ++ n :: rest).take before.length = before := List.take_left
    have hlist : before ++ n :: rest = (before ++ [n]) ++ rest := by simp
    have hlength : before.length + 1 = (before ++ [n]).length := by simp
    rw [firstDeclared, List.zipIdx_cons, List.filter_cons]
    -- either way the node moves to those before, and only a new one adds an id
    by_cases hseen : n.id ∈ seen
    · obtain ⟨m, hm, hid⟩ := (h n.id).mp hseen
      rw [if_pos (by simpa using hseen), if_neg (by simpa [htake] using ⟨m, hm, hid⟩), hlist, hlength]
      refine ih fun id => ?_
      rw [h id]
      constructor
      · rintro ⟨k, hk, hkid⟩
        exact ⟨k, List.mem_append_left _ hk, hkid⟩
      · rintro ⟨k, hk, rfl⟩
        rcases List.mem_append.mp hk with hk | hk
        · exact ⟨k, hk, rfl⟩
        · rw [List.mem_singleton.mp hk]
          exact ⟨m, hm, hid⟩
    · have hnew : ∀ m ∈ before, m.id ≠ n.id := fun m hm hid => hseen ((h n.id).mpr ⟨m, hm, hid⟩)
      rw [if_neg (by simpa using hseen), if_pos (by simpa [htake] using hnew), List.map_cons, hlist,
        hlength]
      refine congrArg (n :: ·) (ih fun id => ?_)
      rw [List.mem_cons, h id]
      simp [or_comm, eq_comm]

/-- A declaration whose id was seen or declared before does not count. -/
theorem firstDeclared_erase {seen : List String} {before after : List Document.Node}
    {n : Document.Node} (h : n.id ∈ seen ∨ ∃ m ∈ before, m.id = n.id) :
    firstDeclared seen (before ++ n :: after) = firstDeclared seen (before ++ after) := by
  induction before generalizing seen with
  | nil =>
    have hseen : n.id ∈ seen := by simpa using h
    rw [List.nil_append, firstDeclared, if_pos (by simpa using hseen), List.nil_append]
  | cons k before ih =>
    rw [List.cons_append, List.cons_append, firstDeclared, firstDeclared]
    split
    · rename_i hseen
      refine ih (h.elim Or.inl ?_)
      rintro ⟨m, hm, hid⟩
      rcases List.mem_cons.mp hm with rfl | hm
      · exact Or.inl (hid ▸ by simpa using hseen)
      · exact Or.inr ⟨m, hm, hid⟩
    · refine congrArg (k :: ·) (ih (h.elim (fun hseen => Or.inl (List.mem_cons_of_mem _ hseen)) ?_))
      rintro ⟨m, hm, hid⟩
      rcases List.mem_cons.mp hm with rfl | hm
      · exact Or.inl (hid ▸ List.mem_cons_self)
      · exact Or.inr ⟨m, hm, hid⟩

/-! ### Edges -/

/-- The label of an execution edge: the declared one unless it is empty, else the name of the port that
the edge leaves, else the id of that port unless it is empty. -/
inductive IsLabel (declared : Option String) (source : Node) (port : String) : Option String → Prop
  | declared {l : String} : declared = some l → l ≠ "" → IsLabel declared source port (some l)
  | name {p : ExecutionPort} : declared.getD "" = "" → source.executionOutput? port = some p →
      IsLabel declared source port (some p.name)
  | port : declared.getD "" = "" → source.executionOutput? port = none → port ≠ "" →
      IsLabel declared source port (some port)
  | nothing : declared.getD "" = "" → source.executionOutput? port = none → port = "" →
      IsLabel declared source port none

theorem isLabel_branchLabel (declared : Option String) (source : Node) (port : String) :
    IsLabel declared source port (branchLabel declared source port) := by
  have hport (hempty : declared.getD "" = "") :
      IsLabel declared source port ((source.executionOutput? port).map (·.name) <|>
        if port.isEmpty then none else some port) := by
    cases hp : source.executionOutput? port with
    | some p => exact .name hempty hp
    | none =>
      by_cases hid : port = ""
      · simpa [hid] using IsLabel.nothing hempty hp hid
      · simpa [hid] using IsLabel.port hempty hp hid
  cases declared with
  | none => exact hport rfl
  | some l =>
    by_cases hl : l = ""
    · subst hl
      exact hport rfl
    · have hkept : branchLabel (some l) source port = some l := by simp [branchLabel, hl]
      rw [hkept]
      exact .declared rfl hl

/-- What the graph has for a declared edge: the positions of its ends, its kind, its ports and, for
execution edges only, its label. -/
structure Edge.DeclaredBy (x : Edge) (g : FlowGraph) (e : Document.Edge) : Prop where
  id : x.id = e.id
  source : g.index? e.source = some x.source
  target : g.index? e.target = some x.target
  source_lt : x.source < g.size
  target_lt : x.target < g.size
  kind : x.kind = .execution ↔ e.data.bind (·.type) = some .execution ∨
    e.data.bind (·.type) = none ∧ ∃ mark ∈ ["exec-input-", "exec-output-"],
      mark.toList <+: e.sourceText.toList ∨ mark.toList <+: e.targetText.toList
  sourcePort : ∃ h : Handle, h.Splits e.sourceText ∧ h.port = x.sourcePort
  targetPort : ∃ h : Handle, h.Splits e.targetText ∧ h.port = x.targetPort
  unlabelled : x.kind = .data → x.label = none
  labelled : x.kind = .execution → ∃ n, g.node? x.source = some n ∧
    IsLabel (e.data.bind (·.label)) n x.sourcePort x.label

/-- A handle is for execution exactly if its text starts with one of two marks. -/
theorem Handle.isExecution_parse (text : String) : (Handle.parse text).role.isExecution = true ↔
    ∃ mark ∈ ["exec-input-", "exec-output-"], mark.toList <+: text.toList := by
  have hsplits := Handle.parse_splits text
  have hrole : (Handle.parse text).role.isExecution = true ↔
      (Handle.parse text).role = .executionInput ∨ (Handle.parse text).role = .executionOutput := by
    cases (Handle.parse text).role <;> decide
  rw [hrole, hsplits.role _ (by decide), hsplits.role _ (by decide)]
  simp only [List.mem_cons, List.not_mem_nil, or_false, exists_eq_or_imp, exists_eq_left]
  exact Iff.rfl

/-- An edge is for execution if it says so or, saying nothing, if one of its handles is. -/
theorem edgeKind_eq_execution_iff {declared : Option EdgeKind} {s t : Handle} :
    edgeKind declared s t = .execution ↔ declared = some .execution ∨
      declared = none ∧ (s.role.isExecution = true ∨ t.role.isExecution = true) := by
  cases declared with
  | none => simp [edgeKind, or_iff_not_imp_left]
  | some kind => cases kind <;> simp [edgeKind]

/-- An edge that counts is as its declaration says. -/
theorem Edge.declaredBy_of_ofDocument? {g : FlowGraph} {e : Document.Edge} {x : Edge}
    (h : Edge.ofDocument? g.nodes e = some x) : x.DeclaredBy g e := by
  obtain ⟨hsource_lt, htarget_lt⟩ := Edge.ofDocument?_ends h
  simp only [Edge.ofDocument?, Option.bind_eq_bind, Option.bind_eq_some_iff, Option.some.injEq] at h
  obtain ⟨s, hs, t, ht, n, hn, rfl⟩ := h
  refine ⟨rfl, hs, ht, hsource_lt, htarget_lt, ?_, ⟨_, Handle.parse_splits _, rfl⟩,
    ⟨_, Handle.parse_splits _, rfl⟩, fun hkind => ?_, fun hkind => ⟨n, hn, ?_⟩⟩
  · rw [edgeKind_eq_execution_iff, Handle.isExecution_parse, Handle.isExecution_parse]
    refine or_congr_right (and_congr_right fun _ => ?_)
    constructor
    · rintro (⟨mark, hmark, hstart⟩ | ⟨mark, hmark, hstart⟩)
      · exact ⟨mark, hmark, Or.inl hstart⟩
      · exact ⟨mark, hmark, Or.inr hstart⟩
    · rintro ⟨mark, hmark, hstart | hstart⟩
      · exact Or.inl ⟨mark, hmark, hstart⟩
      · exact Or.inr ⟨mark, hmark, hstart⟩
  · simp only at hkind ⊢
    rw [hkind]
  · simp only at hkind ⊢
    rw [hkind]
    exact isLabel_branchLabel _ _ _

/-- A partial map takes exactly the members for which it is defined, in order. -/
theorem forall₂_filter_filterMap {α β : Type} {R : α → β → Prop} {p : α → Bool} {f : α → Option β}
    {xs : List α} (hsome : ∀ x, p x = (f x).isSome) (hR : ∀ x y, f x = some y → R x y) :
    List.Forall₂ R (xs.filter p) (xs.filterMap f) := by
  induction xs with
  | nil => exact .nil
  | cons x xs ih =>
    rw [List.filter_cons, List.filterMap_cons, hsome x]
    cases hx : f x with
    | none => exact ih
    | some y => exact .cons (hR x y hx) ih

namespace FlowGraph

variable {g : FlowGraph}

/-- The nodes of the graph are the first declarations. -/
theorem nodes_ofDocument (doc : Document) :
    (ofDocument doc).nodes = doc.firsts.map Node.ofDocument :=
  congrArg (List.map Node.ofDocument) (@firstDeclared_eq [] [] doc.nodes (by simp))

/-- An id and its position determine each other. -/
theorem WellFormed.index?_eq_some_iff (hg : g.WellFormed) {id : String} {v : Nat} :
    g.index? id = some v ↔ ∃ n, g.node? v = some n ∧ n.id = id := by
  constructor
  · intro h
    obtain ⟨hlt, hid, -⟩ := List.findIdx?_eq_some_iff_getElem.mp h
    exact ⟨g.nodes[v], List.getElem?_eq_getElem hlt, eq_of_beq hid⟩
  · rintro ⟨n, hn, rfl⟩
    exact hg.index?_eq hn

/-- An edge of a document counts exactly if it joins two nodes. -/
theorem isSome_ofDocument? {doc : Document} {e : Document.Edge} :
    (Edge.ofDocument? (ofDocument doc).nodes e).isSome = true ↔ doc.Joins e := by
  refine ⟨Document.joins_of_isSome, fun ⟨hsource, htarget⟩ => ?_⟩
  obtain ⟨s, hs⟩ := Option.isSome_iff_exists.mp (position?_isSome.mpr hsource)
  obtain ⟨t, ht⟩ := Option.isSome_iff_exists.mp (position?_isSome.mpr htarget)
  have hnode := List.getElem?_eq_getElem (position?_lt hs)
  simp only [ofDocument, Edge.ofDocument?, hs, ht, hnode, Option.bind_eq_bind, Option.bind_some,
    Option.isSome_some]

/-- A graph as a document declares it. -/
structure IsBuiltFrom (g : FlowGraph) (doc : Document) : Prop where
  nodes : g.nodes = doc.firsts.map Node.ofDocument
  known : ∀ id, (∃ v < g.size, g.index? id = some v) ↔ ∃ n ∈ doc.nodes, n.id = id
  index : ∀ id v, g.index? id = some v ↔ ∃ n, g.node? v = some n ∧ n.id = id
  edges : List.Forall₂ (fun e x => x.DeclaredBy g e) (doc.edges.filter fun e => doc.Joins e) g.edges

theorem ofDocument_isBuiltFrom (doc : Document) : (ofDocument doc).IsBuiltFrom doc where
  nodes := nodes_ofDocument doc
  known id := by
    rw [← @position?_isSome doc.nodes id, Option.isSome_iff_exists]
    constructor
    · rintro ⟨v, -, hv⟩
      exact ⟨v, hv⟩
    · rintro ⟨v, hv⟩
      exact ⟨v, position?_lt hv, hv⟩
  index _ _ := (ofDocument_wellFormed doc).index?_eq_some_iff
  edges := by
    refine forall₂_filter_filterMap (fun e => ?_) fun e x hx =>
      @Edge.declaredBy_of_ofDocument? (ofDocument doc) e x hx
    rw [Bool.eq_iff_iff, decide_eq_true_eq]
    exact isSome_ofDocument?.symm

/-- A deletion of a repeated node or of an edge that joins nothing does not change the graph. -/
theorem ofDocument_eq_of_drops {doc doc' : Document} (h : doc.Drops doc') :
    ofDocument doc' = ofDocument doc := by
  cases h with
  | node hid => simp only [ofDocument, firstDeclared_erase (.inr hid)]
  | @edge nodes before after e hjoins =>
    have hnone : Edge.ofDocument? ((firstDeclared [] nodes).map Node.ofDocument) e = none := by
      rw [← Option.not_isSome_iff_eq_none]
      exact fun hsome => hjoins (isSome_ofDocument?.mp hsome)
    simp only [ofDocument, List.filterMap_append, List.filterMap_cons, hnone]

/-- The graph of a document has the first declaration of every id as a node and the declared edges
between two nodes as edges. Whatever else is declared can be deleted without changing the graph. -/
theorem graph_is_built_from_declarations (doc : Document) :
    (ofDocument doc).IsBuiltFrom doc ∧
      ∀ doc', ReflTransGen Document.Drops doc doc' → ofDocument doc' = ofDocument doc := by
  refine ⟨ofDocument_isBuiltFrom doc, fun doc' h => ?_⟩
  induction h with
  | refl => rfl
  | tail _ hlast ih => rw [ofDocument_eq_of_drops hlast, ih]

/-- Two nodes, the first of them declared twice, and an edge for execution between them beside an edge
that leads nowhere. -/
def echo : Document where
  nodes := [⟨"a", "first", none, none, [], [], none, [], [⟨"t", "then"⟩], none, none⟩,
    ⟨"b", "other", none, none, [], [], none, [], [], none, none⟩,
    ⟨"a", "second", none, none, [], [], none, [], [], none, none⟩]
  edges := [⟨"lost", "a", "ghost", some "output-x", none, none⟩,
    ⟨"kept", "a", "b", some "exec-output-t", none, some ⟨none, some ""⟩⟩]

/-- The same without what does not count. -/
def echoless : Document where
  nodes := echo.nodes.take 2
  edges := echo.edges.drop 1

theorem echo_can_be_deleted : ReflTransGen Document.Drops echo echoless ∧
    ofDocument echoless = ofDocument echo := by
  have hnode : Document.Drops echo ⟨echo.nodes.take 2, echo.edges⟩ :=
    @Document.Drops.node (echo.nodes.take 2) [] _ _ ⟨_, List.mem_cons_self, rfl⟩
  have hedge : Document.Drops ⟨echo.nodes.take 2, echo.edges⟩ echoless :=
    @Document.Drops.edge (echo.nodes.take 2) [] _ _ (by decide)
  have hdrops : ReflTransGen Document.Drops echo echoless := (ReflTransGen.single hnode).tail hedge
  exact ⟨hdrops, (graph_is_built_from_declarations echo).2 echoless hdrops⟩

-- the empty label is passed over in favour of the name of the port
example : (ofDocument echo).edges = [⟨"kept", 0, 1, .execution, "t", "", some "then"⟩] := by decide

end FlowGraph

end FlowScript
