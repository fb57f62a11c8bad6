import FlowScript.Proofs.Control
import FlowScript.Proofs.Names

/-!
# The variables of loops

A loop may take its variable from the name of its node. Such variables differ from one another, as the
names do. They are made outside of the names, though, and a label and an id can make one of them: the
first node that does so shares its variable with the loop. Numbers that tell names apart have no part
in this, since they stand at the end of a name.
-/

namespace FlowScript

open Naming

/-- A loop takes its variable from the name of its node: its only input is the collection, or nothing
feeds the first of its inputs and no default of it makes an identifier. -/
def DerivesVariable (g : FlowGraph) (v : Nat) (n : Node) : Prop :=
  n.kind = .loop ∧ ((∃ collection, n.inputs = [collection]) ∨
    ∃ p collection rest, n.inputs = p :: collection :: rest ∧ g.binding? v p.id = none ∧
      ∀ s, p.default = some (.string s) → identifier? s = none)

namespace Job

variable {job : Job} {v : Nat} {n : Node}

/-- The variable of such a loop is the name of its node with one more word, in whatever draft the loop
is written. -/
theorem loopHead?_of_derives (h : DerivesVariable job.graph v n) (d : Draft) :
    ∃ collection, job.loopHead? d v n = some (⟨job.itemName v n, []⟩, collection) := by
  rcases h with ⟨-, ⟨collection, hinputs⟩ | ⟨p, collection, rest, hinputs, hunbound, hdefault⟩⟩
  · exact ⟨job.argument d v n collection, by rw [loopHead?, hinputs]⟩
  · refine ⟨job.argument d v n collection, ?_⟩
    have hvariable : job.loopVariable d v n p = ⟨job.itemName v n, []⟩ := by
      rw [loopVariable, hunbound]
      cases hp : p.default with
      | none => rfl
      | some value =>
        cases value with
        | string s => simp [hdefault s hp]
        | null | bool | number | array | object => rfl
    rw [loopHead?, hinputs, ← hvariable]

section Names

variable (hnames : job.names = assign job.graph.nodes) {w : Nat} {m : Node}

include hnames

/-- The variable of a node is the name that it was given. -/
theorem assign_getElem?_nameOf (hn : job.graph.node? v = some n) :
    (assign job.graph.nodes)[v]? = some (job.nameOf v n) := by
  rw [nameOf, hnames, List.getD_eq_getElem?_getD, assign_getElem? hn, Option.getD_some]

/-- The variable that a loop takes from its node ends in a word of its own. -/
theorem exists_itemName_madeOf (hn : job.graph.node? v = some n) :
    ∃ ws, MadeOf (job.itemName v n) (ws ++ [['i', 't', 'e', 'm']]) := by
  obtain ⟨ws, hname⟩ := exists_madeOf (List.mem_of_getElem? (assign_getElem?_nameOf hnames hn))
  have hitem := hname.concat (w := ['i', 't', 'e', 'm']) (Text.isWord_of_all (by simp) (by decide))
  exact ⟨ws, by simpa [itemName, String.append_assoc] using hitem⟩

/-- Loops take different variables from different nodes. -/
theorem itemName_ne (hn : job.graph.node? v = some n) (hm : job.graph.node? w = some m) (hne : w ≠ v) :
    job.itemName w m ≠ job.itemName v n := by
  intro hsame
  have hequal : job.nameOf w m = job.nameOf v n := by
    rw [itemName, itemName, ← String.toList_inj] at hsame
    simpa [String.toList_inj] using hsame
  have hv := assign_getElem?_nameOf hnames hn
  have hw := assign_getElem?_nameOf hnames hm
  have hlt : w < (assign job.graph.nodes).length := (List.getElem?_eq_some_iff.mp hw).1
  exact hne ((List.getElem?_inj hlt (assign_nodup _)).mp (by rw [hw, hv, hequal]))

/-- The variable that a loop takes from its node is the variable of the first node whose label and id
make it, and of no other. -/
theorem nameOf_eq_itemName_iff (hn : job.graph.node? v = some n) (hm : job.graph.node? w = some m) :
    job.nameOf w m = job.itemName v n ↔ ofNode m = job.itemName v n ∧
      ∀ u < w, ∀ k, job.graph.node? u = some k → ofNode k ≠ job.itemName v n := by
  obtain ⟨ws, hitem⟩ := exists_itemName_madeOf hnames hn
  have hlast (k : Nat) : (ws ++ [['i', 't', 'e', 'm']]).getLast? ≠ some (Nat.toDigits 10 k) := by
    rw [List.getLast?_concat, ne_eq, Option.some.injEq]
    intro hk
    have hdigit := Nat.isDigit_of_mem_toDigits (b := 10) (n := k) (c := 'i') (by decide) (by decide)
      (hk ▸ List.mem_cons_self)
    exact absurd hdigit (by decide)
  have hfirst := assign_getElem?_eq_some_iff hm hitem hlast
  rwa [assign_getElem?_nameOf hnames hm, Option.some.injEq] at hfirst

/-- Only a label and an id that end in the word of a loop variable make one. -/
theorem getLast?_of_itemName (hn : job.graph.node? v = some n) (h : ofNode m = job.itemName v n) :
    (ownWords m.label m.id).getLast? = some ['i', 't', 'e', 'm'] := by
  obtain ⟨ws, hitem⟩ := exists_itemName_madeOf hnames hn
  have hwords := (ofNode_madeOf m).unique (h ▸ hitem)
  have hne := (ownWords_isWord m.label m.id).1
  have hlast : (nameWords m.label m.id).getLast? = (ownWords m.label m.id).getLast? := by
    rw [nameWords]
    split
    · obtain ⟨x, xs, hxs⟩ := List.exists_cons_of_ne_nil hne
      rw [hxs, List.getLast?_cons_cons]
    · rfl
  rw [← hlast, hwords, List.getLast?_concat]

end Names

end Job

namespace Generator

/-- A loop that takes its variable from its node has a variable that no other loop takes. It is the
variable of the first node whose label and id make it, if there is such a node, and of no other node;
in particular not of a node whose label and id end in another word. -/
theorem loop_variables_are_shared_by_spelling_only (gen : Generator) (schedule : Schedule)
    (fittings : List Fitting) (v : Nat) (n : Node) (hn : gen.graph.node? v = some n)
    (hderives : DerivesVariable gen.graph v n) :
    let job := gen.job schedule fittings
    (∀ d, ∃ collection, job.loopHead? d v n = some (⟨job.itemName v n, []⟩, collection)) ∧
      ∀ w m, gen.graph.node? w = some m →
        (w ≠ v → job.itemName w m ≠ job.itemName v n) ∧
        (job.nameOf w m = job.itemName v n ↔ ofNode m = job.itemName v n ∧
          ∀ u < w, ∀ k, gen.graph.node? u = some k → ofNode k ≠ job.itemName v n) ∧
        ((ownWords m.label m.id).getLast? ≠ some ['i', 't', 'e', 'm'] →
          job.nameOf w m ≠ job.itemName v n) := by
  intro job
  refine ⟨Job.loopHead?_of_derives hderives, fun w m hm => ⟨Job.itemName_ne rfl hn hm, ?_, ?_⟩⟩
  · exact Job.nameOf_eq_itemName_iff rfl hn hm
  · intro hother hsame
    exact hother (Job.getLast?_of_itemName rfl hn ((Job.nameOf_eq_itemName_iff rfl hn hm).mp hsame).1)

/-- Two loops whose labels and ids make the same name. -/
def twinLoops : Document where
  nodes :=
    [⟨"a-b", "each", none, some .loop, [⟨"items", "items", "array", false, none⟩], [], some true, [], [],
        none, none⟩,
      ⟨"a.b", "Each", none, some .loop, [⟨"name", "name", "string", false, some (.string "9")⟩,
        ⟨"items", "items", "array", false, none⟩], [], some true, [], [], none, none⟩]
  edges := []

/-- The variables of both loops are derived, and they differ, also from the variables of the nodes. -/
theorem twinLoops_differ :
    let gen := Generator.new (.ofDocument twinLoops) .standard
    let job := gen.job gen.graph.schedule []
    ∃ n m, gen.graph.node? 0 = some n ∧ gen.graph.node? 1 = some m ∧
      DerivesVariable gen.graph 0 n ∧ DerivesVariable gen.graph 1 m ∧
      job.itemName 0 n = "each_a_b_item" ∧ job.itemName 1 m = "each_a_b_2_item" ∧
      job.itemName 1 m ≠ job.itemName 0 n ∧ job.nameOf 1 m ≠ job.itemName 0 n := by
  intro gen job
  have hfirst : ∀ n, gen.graph.node? 0 = some n → DerivesVariable gen.graph 0 n := by
    rintro n ⟨⟩
    exact ⟨rfl, .inl ⟨_, rfl⟩⟩
  have hsecond : ∀ m, gen.graph.node? 1 = some m → DerivesVariable gen.graph 1 m := by
    rintro m ⟨⟩
    refine ⟨rfl, .inr ⟨_, _, _, rfl, by decide, ?_⟩⟩
    rintro s ⟨⟩
    decide +kernel
  obtain ⟨-, hothers⟩ :=
    loop_variables_are_shared_by_spelling_only gen gen.graph.schedule [] 0 _ rfl (hfirst _ rfl)
  obtain ⟨hloops, -, hnodes⟩ := hothers 1 _ rfl
  exact ⟨_, _, rfl, rfl, hfirst _ rfl, hsecond _ rfl, by decide +kernel, by decide +kernel,
    hloops (by decide), hnodes (by decide +kernel)⟩

/-- A loop after which a value is returned whose label and id make the variable of the loop. -/
def overwritten : Document where
  nodes :=
    [⟨"3", "each", none, some .loop, [⟨"items", "items", "array", false, some (.array [.bool false])⟩],
        [], some true, [], [], none, none⟩,
      ⟨"3-item", "each", none, some .input, [], [⟨"value", "value", "boolean", false, none⟩], none, [], [],
        none, some (.bool true)⟩,
      ⟨"4", "result", none, some .output, [⟨"in", "in", "boolean", false, none⟩], [], some true, [], [],
        none, none⟩]
  edges :=
    [⟨"e1", "3", "4", none, none, some ⟨some .execution, some "done"⟩⟩,
      ⟨"d1", "3-item", "4", some "value", some "in", none⟩]

/-- The loop runs over the variable that holds the value, so that another value is returned after the
loop. -/
theorem overwritten_shares_variable :
    let gen := Generator.new (.ofDocument overwritten) .standard
    let job := gen.job gen.graph.schedule []
    (∃ n m, gen.graph.node? 0 = some n ∧ gen.graph.node? 1 = some m ∧ DerivesVariable gen.graph 0 n ∧
      job.nameOf 1 m = job.itemName 0 n) ∧
    ∃ d, gen.rendering unanswered () = .ok d ∧ d.trace =
      [.enter 1, .line (some 1) 0 "each_3_item = True", .enter 0,
        .line (some 0) 0 "for each_3_item in [False]:", .opened 0 .loopBody, .line none 1 "pass",
        .closed 0 .loopBody, .enter 2, .line (some 2) 0 "return each_3_item"] := by
  intro gen job
  refine ⟨⟨_, _, rfl, rfl, ⟨rfl, .inl ⟨_, rfl⟩⟩, by decide +kernel⟩, ?_⟩
  exact exists_rendering (by decide +kernel)

end Generator

end FlowScript
