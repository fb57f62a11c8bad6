import FlowScript.Document.Decode
import FlowScript.Document.Encode
import FlowScript.Proofs.Readable

/-!
# Documents are read back

A document is written with all its fields, whatever spelling it was read from: other names of fields
and kinds, fields that were left out or null, keys that nothing reads, records as arrays. What was
written is read as the same document, up to what becomes of doubles.
-/

namespace FlowScript

open Record
open Json (Form Value Faithful formItems)

/-- The doubles in a value that may be absent. -/
def optionDoubles (o : Option Value) : List UInt64 :=
  (o.map Value.doubles).getD []

/-- The doubles in a node: in its value and in the defaults of its ports. -/
def Document.Node.doubles (n : Document.Node) : List UInt64 :=
  (n.inputs ++ n.outputs).flatMap (fun p => optionDoubles p.default) ++ optionDoubles n.value

/-- The doubles in a document. -/
def Document.doubles (d : Document) : List UInt64 :=
  d.nodes.flatMap Document.Node.doubles

/-- A free value of a record, if there is one, is one that texts have, and it is not null. -/
def Sound (depth : Nat) (o : Option Value) : Prop :=
  ∀ v ∈ o, v ≠ .null ∧ v.Readable depth

/-- A port with a default that is sound. -/
def Port.Sound (depth : Nat) (p : Port) : Prop :=
  FlowScript.Sound depth p.default

/-- A node with a value and ports that are sound. -/
structure Document.Node.Sound (depth : Nat) (n : Document.Node) : Prop where
  inputs : ∀ p ∈ n.inputs, p.Sound (depth - 2)
  outputs : ∀ p ∈ n.outputs, p.Sound (depth - 2)
  value : FlowScript.Sound depth n.value

namespace Record

/-- The parts of a list are read back if and only if each of them is. -/
theorem list_written {α : Type} {read : Form → Option α} {write : α → Value} {xs : List α} :
    list read (Value.array (xs.map write)).form = some xs ↔ ∀ x ∈ xs, read (write x).form = some x := by
  rw [Value.form, Json.formItems_eq, list, List.map_map]
  exact Json.mapM_written

/-- A field that may be absent is read back. -/
theorem optional_written {α : Type} {read : Form → Option α} {write : α → Value}
    (hread : ∀ a, read (write a).form = some a) (hnull : ∀ a, (write a).form ≠ .null) (o : Option α) :
    optional read (some (optionValue write o).form) = some o := by
  cases o with
  | none => rfl
  | some a =>
    rw [optionValue, optional]
    · rw [hread, Option.map_some]
    · exact hnull a

/-- A free value that may be absent is read back if and only if its doubles are. -/
theorem optional_value_written {depth : Nat} {o : Option Value}
    (h : Sound depth o) :
    optional (Form.value? depth) (some (o.getD .null).form) = some o ↔
      ∀ b ∈ optionDoubles o, Faithful b := by
  cases o with
  | none => simp [optional, Value.form, optionDoubles]
  | some v =>
    obtain ⟨hv, hreadable⟩ := h v rfl
    have hform : v.form ≠ .null := by
      cases v <;> simp_all [Value.form]
    rw [Option.getD_some, optional]
    · simp [hreadable.value?_form, optionDoubles]
    · exact hform

/-- The members of an object with readable keys are its members. -/
theorem exists_of_mem_keyed {members : List (Option String × Form)} {ms : List (String × Form)}
    (h : keyed members = some ms) : ∀ m ∈ ms, (some m.1, m.2) ∈ members := by
  induction members generalizing ms with
  | nil =>
    obtain rfl : [] = ms := Option.some.inj h
    simp
  | cons x rest ih =>
    rw [keyed] at h
    obtain ⟨k, hk, h⟩ := Option.bind_eq_some_iff.mp h
    obtain ⟨more, hmore, h⟩ := Option.bind_eq_some_iff.mp h
    obtain rfl := Option.some.inj h
    intro m hm
    rcases List.mem_cons.mp hm with rfl | hm
    · rw [← hk]
      exact List.mem_cons_self
    · exact List.mem_cons_of_mem _ (ih hmore m hm)

/-- What is written for the fields of a record whose form fits, fits. -/
theorem slots_fits {fields : List (List String)} {f : Form} (hf : f.Fits) {ss : List (Option Form)}
    (h : slots fields f = some ss) : ∀ s ∈ ss, ∀ g ∈ s, g.Fits := by
  intro s hs g hg
  cases hf with
  | object hmembers =>
    obtain ⟨ms, hms, h⟩ := Option.bind_eq_some_iff.mp h
    obtain ⟨names, -, hslot⟩ := Json.exists_of_mem_mapM h s hs
    rw [slot] at hslot
    split at hslot
    · obtain rfl := Option.some.inj hslot
      cases hg
    · rename_i m hone
      obtain rfl := Option.some.inj hslot
      obtain rfl := Option.some.inj hg
      have hm : m ∈ ms := (List.mem_filter.mp (hone ▸ List.mem_singleton_self m)).1
      exact hmembers _ (exists_of_mem_keyed hms m hm)
    · cases hslot
  | array hitems =>
    rw [slots] at h
    split at h
    · obtain rfl := Option.some.inj h
      rcases List.mem_append.mp hs with hs | hs
      · obtain ⟨x, hx, rfl⟩ := List.mem_map.mp hs
        obtain rfl := Option.some.inj hg
        exact hitems _ hx
      · obtain rfl := List.eq_of_mem_replicate hs
        cases hg
    · cases h
  | null | bool | number | string => cases h

/-- The parts of a list whose form fits are read from forms that fit. -/
theorem list_fits {α : Type} {read : Form → Option α} {s : Option Form} (hs : ∀ g ∈ s, g.Fits)
    {xs : List α} (h : orElse (list read) [] s = some xs) :
    ∀ x ∈ xs, ∃ g, g.Fits ∧ read g = some x := by
  cases s with
  | none =>
    obtain rfl : [] = xs := Option.some.inj h
    simp
  | some f =>
    have h : list read f = some xs := h
    have hf := hs f rfl
    cases hf with
    | array hitems =>
      intro x hx
      obtain ⟨g, hg, hread⟩ := Json.exists_of_mem_mapM h x hx
      exact ⟨g, hitems g hg, hread⟩
    | null | bool | number | string | object => cases h

/-- A free value that is read is one that texts have, and is not null. -/
theorem optional_value_sound {depth : Nat} {s : Option Form} (hs : ∀ g ∈ s, g.Fits)
    {o : Option Value} (h : optional (Form.value? depth) s = some o) : Sound depth o := by
  intro v hv
  cases s with
  | none =>
    obtain rfl : none = o := Option.some.inj h
    cases hv
  | some f =>
    by_cases hnull : f = .null
    · subst hnull
      obtain rfl : none = o := Option.some.inj h
      cases hv
    · rw [optional] at h
      · obtain ⟨w, hvalue, rfl⟩ := Option.map_eq_some_iff.mp h
        obtain rfl := Option.some.inj hv
        refine ⟨?_, (hs f rfl).readable hvalue⟩
        rintro rfl
        -- no other form has the value null
        cases f <;> simp_all [Form.value?]
      · exact hnull

end Record

/-- A written port is read with the default that is read back. -/
theorem Port.ofForm_written (depth : Nat) (p : Port) :
    Port.ofForm depth p.toValue.form =
      (optional (Form.value? depth) (some (p.default.getD .null).form)).bind
        fun v => some { p with default := v } :=
  rfl

/-- A written execution port is read back. -/
theorem ExecutionPort.ofForm_written (p : ExecutionPort) :
    ExecutionPort.ofForm p.toValue.form = some p :=
  rfl

/-- The kind of a node is read back from its tag. -/
theorem choice_kind (k : Kind) : choice Kind.names (Value.string k.tag).form = some k := by
  cases k <;> rfl

/-- The kind of an edge is read back from its tag. -/
theorem choice_edgeKind (k : EdgeKind) :
    choice EdgeKind.names (Value.string k.tag).form = some k := by
  cases k <;> rfl

namespace Document

/-- What an edge says about itself is read back. -/
theorem EdgeData.ofForm_written (d : EdgeData) : EdgeData.ofForm d.toValue.form = some d := by
  have hread : EdgeData.ofForm d.toValue.form =
      (optional (choice EdgeKind.names)
        (some (optionValue (fun k => .string k.tag) d.type).form)).bind fun type =>
      (optional string (some (optionValue .string d.label).form)).bind fun label =>
        some ⟨type, label⟩ := rfl
  rw [hread, optional_written choice_edgeKind (by simp [Value.form]),
    optional_written (fun _ => rfl) (by simp [Value.form])]
  rfl

/-- A written edge is read back. -/
theorem Edge.ofForm_written (e : Edge) : Edge.ofForm e.toValue.form = some e := by
  have hread : Edge.ofForm e.toValue.form =
      (optional string (some (optionValue .string e.sourceHandle).form)).bind fun sourceHandle =>
      (optional string (some (optionValue .string e.targetHandle).form)).bind fun targetHandle =>
      (optional EdgeData.ofForm (some (optionValue EdgeData.toValue e.data).form)).bind fun data =>
        some ⟨e.id, e.source, e.target, sourceHandle, targetHandle, data⟩ := rfl
  rw [hread, optional_written (fun _ => rfl) (by simp [Value.form]),
    optional_written (fun _ => rfl) (by simp [Value.form]),
    optional_written EdgeData.ofForm_written (by simp [EdgeData.toValue, Value.form])]
  rfl

/-- A written node is read with the ports and the value that are read back. -/
theorem Node.ofForm_written (depth : Nat) (n : Node) : Node.ofForm depth n.toValue.form =
    (list (Port.ofForm (depth - 2)) (Value.array (n.inputs.map Port.toValue)).form).bind fun inputs =>
    (list (Port.ofForm (depth - 2)) (Value.array (n.outputs.map Port.toValue)).form).bind fun outputs =>
    (optional (Form.value? depth) (some (n.value.getD .null).form)).bind fun value =>
      some { n with inputs, outputs, value } := by
  have hread : Node.ofForm depth n.toValue.form =
      (optional string (some (optionValue .string n.category).form)).bind fun category =>
      (optional (choice Kind.names)
        (some (optionValue (fun k => .string k.tag) n.kind).form)).bind fun kind =>
      (list (Port.ofForm (depth - 2)) (Value.array (n.inputs.map Port.toValue)).form).bind fun inputs =>
      (list (Port.ofForm (depth - 2))
        (Value.array (n.outputs.map Port.toValue)).form).bind fun outputs =>
      (optional bool (some (optionValue .bool n.hasExecutionPorts).form)).bind fun hasPorts =>
      (list ExecutionPort.ofForm
        (Value.array (n.executionInputs.map ExecutionPort.toValue)).form).bind fun exInputs =>
      (list ExecutionPort.ofForm
        (Value.array (n.executionOutputs.map ExecutionPort.toValue)).form).bind fun exOutputs =>
      (optional string (some (optionValue .string n.functionId).form)).bind fun function =>
      (optional (Form.value? depth) (some (n.value.getD .null).form)).bind fun value =>
        some ⟨n.id, n.label, category, kind, inputs, outputs, hasPorts, exInputs, exOutputs, function,
          value⟩ := rfl
  have hports (ports : List ExecutionPort) :
      list ExecutionPort.ofForm (Value.array (ports.map ExecutionPort.toValue)).form = some ports :=
    list_written.mpr fun p _ => p.ofForm_written
  rw [hread, optional_written (fun _ => rfl) (by simp [Value.form]),
    optional_written choice_kind (by simp [Value.form]),
    optional_written (fun _ => rfl) (by simp [Value.form]), hports, hports,
    optional_written (fun _ => rfl) (by simp [Value.form])]
  rfl

end Document

/-- A port is read back if and only if the doubles of its default are. -/
theorem Port.Sound.ofForm_iff {depth : Nat} {p : Port} (h : p.Sound depth) :
    Port.ofForm depth p.toValue.form = some p ↔ ∀ b ∈ optionDoubles p.default, Faithful b := by
  rw [Port.ofForm_written, ← optional_value_written h]
  constructor
  · intro hread
    obtain ⟨v, hv, heq⟩ := Option.bind_eq_some_iff.mp hread
    rw [hv, ← congrArg Port.default (Option.some.inj heq)]
  · intro hread
    rw [hread]
    rfl

namespace Document

/-- A node is read back if and only if its doubles are. -/
theorem Node.Sound.ofForm_iff {depth : Nat} {n : Node} (h : n.Sound depth) :
    Node.ofForm depth n.toValue.form = some n ↔ ∀ b ∈ n.doubles, Faithful b := by
  have hports (ports : List Port) (hsound : ∀ p ∈ ports, p.Sound (depth - 2)) :
      list (Port.ofForm (depth - 2)) (Value.array (ports.map Port.toValue)).form = some ports ↔
        ∀ p ∈ ports, ∀ b ∈ optionDoubles p.default, Faithful b := by
    rw [list_written]
    exact forall₂_congr fun p hp => (hsound p hp).ofForm_iff
  have hparts : Node.ofForm depth n.toValue.form = some n ↔
      list (Port.ofForm (depth - 2)) (Value.array (n.inputs.map Port.toValue)).form = some n.inputs ∧
      list (Port.ofForm (depth - 2)) (Value.array (n.outputs.map Port.toValue)).form =
        some n.outputs ∧
      optional (Form.value? depth) (some (n.value.getD .null).form) = some n.value := by
    rw [Node.ofForm_written]
    constructor
    · intro hread
      obtain ⟨inputs, hinputs, hread⟩ := Option.bind_eq_some_iff.mp hread
      obtain ⟨outputs, houtputs, hread⟩ := Option.bind_eq_some_iff.mp hread
      obtain ⟨value, hvalue, heq⟩ := Option.bind_eq_some_iff.mp hread
      have heq := Option.some.inj heq
      rw [hinputs, houtputs, hvalue, ← congrArg Node.inputs heq, ← congrArg Node.outputs heq,
        ← congrArg Node.value heq]
      exact ⟨rfl, rfl, rfl⟩
    · rintro ⟨hinputs, houtputs, hvalue⟩
      rw [hinputs, houtputs, hvalue]
      rfl
  rw [hparts, hports n.inputs h.inputs, hports n.outputs h.outputs, optional_value_written h.value,
    Node.doubles]
  simp only [List.flatMap_append, List.mem_append, List.mem_flatMap]
  constructor
  · rintro ⟨hinputs, houtputs, hvalue⟩ b ((⟨p, hp, hb⟩ | ⟨p, hp, hb⟩) | hb)
    · exact hinputs p hp b hb
    · exact houtputs p hp b hb
    · exact hvalue b hb
  · intro hall
    exact ⟨fun p hp b hb => hall b (.inl (.inl ⟨p, hp, hb⟩)),
      fun p hp b hb => hall b (.inl (.inr ⟨p, hp, hb⟩)), fun b hb => hall b (.inr hb)⟩

/-- A document of sound nodes is read back if and only if its doubles are. -/
theorem ofForm_iff {d : Document} (h : ∀ n ∈ d.nodes, n.Sound (Json.maxDepth - 3)) :
    Document.ofForm d.toValue.form = some d ↔ ∀ b ∈ d.doubles, Faithful b := by
  have hread : Document.ofForm d.toValue.form =
      (list (Node.ofForm (Json.maxDepth - 3))
        (Value.array (d.nodes.map Node.toValue)).form).bind fun nodes =>
      (list Edge.ofForm (Value.array (d.edges.map Edge.toValue)).form).bind fun edges =>
        some ⟨nodes, edges⟩ := rfl
  have hnodes : Document.ofForm d.toValue.form = some d ↔
      list (Node.ofForm (Json.maxDepth - 3)) (Value.array (d.nodes.map Node.toValue)).form =
        some d.nodes := by
    rw [hread, list_written.mpr fun e _ => Edge.ofForm_written e]
    constructor
    · intro hread
      obtain ⟨nodes, hnodes, heq⟩ := Option.bind_eq_some_iff.mp hread
      rw [hnodes, ← congrArg Document.nodes (Option.some.inj heq)]
    · intro hnodes
      rw [hnodes]
      rfl
  rw [hnodes, list_written, doubles]
  simp only [List.mem_flatMap]
  constructor
  · rintro hall b ⟨n, hn, hb⟩
    exact (h n hn).ofForm_iff.mp (hall n hn) b hb
  · intro hall n hn
    exact (h n hn).ofForm_iff.mpr fun b hb => hall b ⟨n, hn, hb⟩

end Document

/-- The default of a port that is read is sound. -/
theorem Port.ofForm_sound {depth : Nat} {f : Form} (hf : f.Fits) {p : Port}
    (h : Port.ofForm depth f = some p) : p.Sound depth := by
  rw [Port.ofForm] at h
  obtain ⟨ss, hss, h⟩ := Option.bind_eq_some_iff.mp h
  have hfits := slots_fits hf hss
  split at h
  · obtain ⟨id, -, h⟩ := Option.bind_eq_some_iff.mp h
    obtain ⟨name, -, h⟩ := Option.bind_eq_some_iff.mp h
    obtain ⟨type, -, h⟩ := Option.bind_eq_some_iff.mp h
    obtain ⟨required, -, h⟩ := Option.bind_eq_some_iff.mp h
    obtain ⟨default, hdefault, h⟩ := Option.bind_eq_some_iff.mp h
    obtain rfl := Option.some.inj h
    exact optional_value_sound (hfits _ (by simp)) hdefault
  · cases h

namespace Document

/-- The value and the ports of a node that is read are sound. -/
theorem Node.ofForm_sound {depth : Nat} {f : Form} (hf : f.Fits) {n : Node}
    (h : Node.ofForm depth f = some n) : n.Sound depth := by
  rw [Node.ofForm] at h
  obtain ⟨ss, hss, h⟩ := Option.bind_eq_some_iff.mp h
  have hfits := slots_fits hf hss
  have hports {s : Option Form} (hs : ∀ g ∈ s, g.Fits) {ports : List Port}
      (h : orElse (list (Port.ofForm (depth - 2))) [] s = some ports) :
      ∀ p ∈ ports, p.Sound (depth - 2) := by
    intro p hp
    obtain ⟨g, hg, hread⟩ := list_fits hs h p hp
    exact Port.ofForm_sound hg hread
  split at h
  · obtain ⟨id, -, h⟩ := Option.bind_eq_some_iff.mp h
    obtain ⟨label, -, h⟩ := Option.bind_eq_some_iff.mp h
    obtain ⟨category, -, h⟩ := Option.bind_eq_some_iff.mp h
    obtain ⟨kind, -, h⟩ := Option.bind_eq_some_iff.mp h
    obtain ⟨inputs, hinputs, h⟩ := Option.bind_eq_some_iff.mp h
    obtain ⟨outputs, houtputs, h⟩ := Option.bind_eq_some_iff.mp h
    obtain ⟨hasPorts, -, h⟩ := Option.bind_eq_some_iff.mp h
    obtain ⟨exInputs, -, h⟩ := Option.bind_eq_some_iff.mp h
    obtain ⟨exOutputs, -, h⟩ := Option.bind_eq_some_iff.mp h
    obtain ⟨function, -, h⟩ := Option.bind_eq_some_iff.mp h
    obtain ⟨value, hvalue, h⟩ := Option.bind_eq_some_iff.mp h
    obtain rfl := Option.some.inj h
    exact ⟨hports (hfits _ (by simp)) hinputs, hports (hfits _ (by simp)) houtputs,
      optional_value_sound (hfits _ (by simp)) hvalue⟩
  · cases h

/-- The nodes of a document that is read are sound. -/
theorem parse?_sound {text : String} {d : Document} (h : Document.parse? text = some d) :
    ∀ n ∈ d.nodes, n.Sound (Json.maxDepth - 3) := by
  obtain ⟨f, hf, h⟩ := Option.bind_eq_some_iff.mp h
  rw [Document.ofForm] at h
  obtain ⟨ss, hss, h⟩ := Option.bind_eq_some_iff.mp h
  have hfits := slots_fits (Form.parse?_fits hf) hss
  split at h
  · obtain ⟨nodes, hnodes, h⟩ := Option.bind_eq_some_iff.mp h
    obtain ⟨edges, -, h⟩ := Option.bind_eq_some_iff.mp h
    obtain rfl := Option.some.inj h
    obtain ⟨g, rfl, hlist⟩ := Option.bind_eq_some_iff.mp hnodes
    intro n hn
    obtain ⟨x, hx, hread⟩ := list_fits (hfits (some g) (by simp)) hlist n hn
    exact Node.ofForm_sound hx hread
  · cases h

/-- A document that was read from a text, in whatever spelling, is written and read back as the same
document if and only if each double in it is printed with digits that are read as this double. Strings
and integers always are. -/
theorem text_reads_back {text : String} {d : Document} (h : Document.parse? text = some d) :
    Document.parse? d.text = some d ↔ ∀ b ∈ d.doubles, Faithful b := by
  rw [Document.parse?, Document.text, Value.parse?_text, Option.bind_some]
  exact ofForm_iff (parse?_sound h)

/-- A text in an uncommon spelling: records as arrays, the other names of a default and of a kind of
edges, a key twice in a free value, and a key that nothing reads. -/
def sketch : String :=
  "\x7b\"nodes\":[[\"a\",\"\\u0042\"],\x7b\"zoom\":1e999,\"id\":\"b\",\"inputs\":[\x7b\"id\":\"i\"," ++
  "\"value\":\x7b\"y\":1,\"x\":0.1,\"y\":[]\x7d\x7d]\x7d]," ++
  "\"edges\":[[\"e\",\"a\",\"b\",null,\"i\",[\"exec\"]]]\x7d"

/-- The text in an uncommon spelling gives a document with a double, and this document is written and
read back. -/
theorem sketch_reads_back : ∃ d, Document.parse? sketch = some d ∧
    d.nodes.map Node.label = ["B", ""] ∧ d.edges.map (·.data) = [some ⟨some .execution, none⟩] ∧
    d.doubles = [4591870180066957722] ∧ Document.parse? d.text = some d := by
  have hsketch : (Document.parse? sketch).map
      (fun d => (d.nodes.map Node.label, d.edges.map (·.data), d.doubles)) =
        some (["B", ""], [some ⟨some .execution, none⟩], [4591870180066957722]) := by
    decide +kernel
  obtain ⟨d, hd, heq⟩ := Option.map_eq_some_iff.mp hsketch
  obtain ⟨hlabels, heq⟩ := Prod.mk.inj heq
  obtain ⟨hdata, hdoubles⟩ := Prod.mk.inj heq
  have hfaithful : ∀ b ∈ d.doubles, Faithful b := by
    rw [hdoubles, List.forall_mem_singleton, Faithful, ← Json.Number.reread_eq_some_iff]
    decide +kernel
  exact ⟨d, hd, hlabels, hdata, hdoubles, (text_reads_back hd).mpr hfaithful⟩

end Document

end FlowScript
