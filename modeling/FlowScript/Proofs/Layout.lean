import FlowScript.Proofs.Arms
import FlowScript.Proofs.Colons
import FlowScript.Proofs.Reading

/-!
# The layout of a body

The trace of a body has the layout of nested blocks: the lines of a node stand together at one level,
and a line that announces an arm is followed by the arm, which is one level deeper and not empty. The
levels of the lines are therefore well nested: they rise only after such a line, and then by one.
-/

namespace FlowScript

/-- A step is a line of a node at a level, or a blank line of it. -/
def Event.StandsAt (v level : Nat) (x : Event) : Prop :=
  (∃ text, x = .line (some v) level text) ∨ x = .blank (some v)

/-- Some steps write a line that is not blank. -/
def HasLine (steps : List Event) : Prop :=
  ∃ origin level text, .line origin level text ∈ steps

/-- Steps among others. -/
theorem HasLine.mono {steps more : List Event} (h : HasLine steps) (hsub : steps ⊆ more) :
    HasLine more := by
  obtain ⟨origin, level, text, hin⟩ := h
  exact ⟨origin, level, text, hsub hin⟩

/-- The lines of a node from `d` to `e` stand at the level of the draft, and if there are any, one of
them is not blank. -/
structure Draft.WritesAt (v : Nat) (d e : Draft) : Prop where
  level : e.level = d.level
  trace : ∃ own, e.trace = d.trace ++ own ∧ (∀ x ∈ own, x.StandsAt v d.level) ∧
    (own ≠ [] → HasLine own)

namespace Draft.WritesAt

variable {v : Nat} {d e f : Draft}

/-- Nothing is written. -/
theorem of_eq (hlevel : e.level = d.level) (htrace : e.trace = d.trace) : WritesAt v d e :=
  ⟨hlevel, [], htrace.trans (List.append_nil _).symm, by simp, by simp⟩

/-- Reports are not part of the lines. -/
theorem report (d : Draft) (notes : List Diagnostic) : WritesAt v d (d.report notes) :=
  of_eq rfl rfl

/-- Lines after lines. -/
theorem trans (h : WritesAt v d e) (h' : WritesAt v e f) : WritesAt v d f := by
  obtain ⟨own, htrace, hown, hline⟩ := h.trace
  obtain ⟨own', htrace', hown', hline'⟩ := h'.trace
  refine ⟨h'.level.trans h.level, own ++ own', ?_, ?_, ?_⟩
  · rw [htrace', htrace, List.append_assoc]
  · intro x hx
    exact (List.mem_append.mp hx).elim (hown x) fun hx => h.level ▸ hown' x hx
  · intro hne
    cases own with
    | nil => exact hline' hne
    | cons x rest => exact (hline (List.cons_ne_nil _ _)).mono (List.subset_append_left _ _)

/-- A line of the node. -/
theorem write (d : Draft) (text : String) : WritesAt v d (d.write (some v) text) :=
  ⟨rfl, _, rfl, by simp [Event.StandsAt], fun _ => ⟨some v, d.level, text, by simp⟩⟩

/-- The lines of a text that is empty or not blank. -/
theorem writeLines (d : Draft) {text : String}
    (htext : text = "" ∨ ∃ c, Text.lastInk? text.toList = some c) :
    WritesAt v d (d.writeLines (some v) text) := by
  refine ⟨rfl, _, rfl, ?_, ?_⟩
  · intro x hx
    obtain ⟨l, -, rfl⟩ := List.mem_map.mp hx
    rw [lineEvent]
    split
    · exact .inr rfl
    · exact .inl ⟨l, rfl⟩
  · intro hne
    rcases htext with rfl | ⟨c, hink⟩
    · exact absurd rfl hne
    · rw [← Text.lastInk?_lastLine?] at hink
      obtain ⟨l, hl, -⟩ := Option.bind_eq_some_iff.mp hink
      have hfull : Text.isBlankText l = false := by simpa using List.find?_some hl
      have hin : l ∈ Text.lines text := List.mem_reverse.mp (List.mem_of_find?_eq_some hl)
      exact ⟨some v, d.level, l, List.mem_map.mpr ⟨l, hin, by simp [lineEvent, hfull]⟩⟩

end Draft.WritesAt

namespace Job

open Draft (WritesAt)

variable {job : Job} {d e : Draft} {v : Nat} {n : Node}

/-- The lines of a filled pattern stand at the level. -/
theorem writeFilled_writesAt (d : Draft) (kind : PatternKind) (text : String) :
    WritesAt v d (job.writeFilled d v n kind text) := by
  cases kind with
  | expression =>
    have hink : ∃ c, Text.lastInk? (job.nameOf v n ++ " = " ++ Text.trim text).toList = some c := by
      rw [String.toList_append, String.toList_append, Text.lastInk?_append, Text.lastInk?_append]
      cases Text.lastInk? (Text.trim text).toList with
      | none => exact ⟨'=', rfl⟩
      | some c => exact ⟨c, rfl⟩
    exact (WritesAt.writeLines d (.inr hink)).trans (.of_eq rfl rfl)
  | statement =>
    change WritesAt v d (List.foldl _ d _)
    generalize ((Text.lines text).map Text.trim).filter _ = lines
    induction lines generalizing d with
    | nil => exact .of_eq rfl rfl
    | cons l rest ih => exact (WritesAt.write d l).trans (ih _)
  | block =>
    refine WritesAt.writeLines d ?_
    cases hink : Text.lastInk? text.toList with
    | none =>
      have hblank : ∀ c ∈ text.toList, Text.isBlank c = true := by
        simpa using Text.lastInk?_eq_none_iff.mp hink
      have hempty : Text.dropBlankEnd text.toList = [] := by
        simpa [Text.dropBlankEnd] using hblank
      exact .inl (by rw [Text.trimEnd, hempty])
    | some c =>
      obtain ⟨hc, front, blanks, htext, hblanks⟩ := Text.lastInk?_eq_some_iff.mp hink
      refine .inr ⟨c, ?_⟩
      rw [Text.trimEnd, htext, Text.dropBlankEnd_of_lastInk? hc hblanks, String.toList_ofList]
      exact Text.lastInk?_eq_some_iff.mpr ⟨hc, front, [], rfl, rfl⟩

/-- The lines of a pattern stand at the level. -/
theorem writePattern_writesAt (d : Draft) (p : Pattern) :
    WritesAt v d (job.writePattern d v n p) := by
  have hbefore (notes holes : List Diagnostic) (imports : List String) :
      WritesAt v d (((d.report notes).report holes).require imports) := .of_eq rfl rfl
  exact (hbefore _ _ _).trans (writeFilled_writesAt _ _ _)

/-- The lines of a node that is written stand at the level. -/
theorem writeGuarded_writesAt (job : Job) (d : Draft) (v : Nat) :
    WritesAt v d (job.writeGuarded d v) := by
  rw [writeGuarded]
  split
  · rename_i e hwrite
    rw [writeNode, node] at hwrite
    cases hn : job.graph.node? v with
    | none => simp [hn] at hwrite
    | some n =>
      simp only [hn] at hwrite
      split at hwrite
      · obtain rfl := Except.ok.inj hwrite
        exact writePattern_writesAt d _
      · obtain rfl := Except.ok.inj hwrite
        exact .write d _
      · split at hwrite
        · obtain rfl := Except.ok.inj hwrite
          exact (WritesAt.write d _).trans (.of_eq rfl rfl)
        · rw [writeOutput] at hwrite
          split at hwrite
          · obtain rfl := Except.ok.inj hwrite
            exact .of_eq rfl rfl
          · split_ifs at hwrite
            · obtain rfl := Except.ok.inj hwrite
              exact .write d _
            · split at hwrite
              · obtain rfl := Except.ok.inj hwrite
                exact (WritesAt.report d _).trans (.write _ _)
              · cases hwrite
        · obtain rfl := Except.ok.inj hwrite
          exact .of_eq rfl rfl
  · exact (WritesAt.write d _).trans (.of_eq rfl rfl)

/-- However it is filled, a pattern that opens a scope writes at least one line, and the last line
that it writes ends in a colon. -/
theorem writeFilled_of_opensScope {p : Pattern} (h : p.opensScope = true) (args : List String)
    (d : Draft) : ∃ own text,
      (job.writeFilled d v n p.kind (Template.fill p.text args).text).trace =
        d.trace ++ (own ++ [.line (some v) d.level text]) ∧
      (∀ x ∈ own, x.StandsAt v d.level) ∧ text.toList.getLast? = some ':' := by
  obtain ⟨front, last, hlines⟩ := Pattern.lines_of_opensScope h args
  have hkind := (Pattern.lastInk?_of_opensScope h).1
  have hfull : Text.isBlankText (String.ofList (last ++ [':'])) = false := by
    simp [Text.isBlankText, Text.isBlank]
  refine ⟨front.map (Draft.lineEvent (some v) d.level), String.ofList (last ++ [':']), ?_, ?_, ?_⟩
  · rw [hkind]
    simp only [writeFilled, Draft.writeLines, hlines, List.map_append, List.map_cons, List.map_nil]
    rw [Draft.lineEvent, hfull]
    rfl
  · intro x hx
    obtain ⟨l, -, rfl⟩ := List.mem_map.mp hx
    rw [Draft.lineEvent]
    split
    · exact .inr rfl
    · exact .inl ⟨l, rfl⟩
  · simp

/-- A node whose pattern opens a scope writes a last line that ends in a colon. -/
theorem writeGuarded_of_opensScope (hv : v < job.graph.size) (h : job.opensScope v = true)
    (d : Draft) : ∃ own text,
      (job.writeGuarded d v).trace = d.trace ++ (own ++ [.line (some v) d.level text]) ∧
      (∀ x ∈ own, x.StandsAt v d.level) ∧ text.toList.getLast? = some ':' := by
  obtain ⟨n, hn⟩ := FlowGraph.exists_node hv
  rw [opensScope] at h
  split at h
  · rename_i p hfitting
    have hwritten : job.writeGuarded d v = job.writePattern d v n p := by
      simp [writeGuarded, writeNode, node_eq_ok hn, hfitting]
    rw [hwritten]
    exact writeFilled_of_opensScope h _ _
  · cases h

/-- The line that announces an arm of a node at a level, with the lines of the node before it: the
header of a block is the only line of its node, an alternative comes after a first arm, and the last
line of a pattern that opens a scope ends in a colon. -/
inductive Announces (job : Job) (trace : List Event) (level c : Nat) :
    Arm → List Event → Event → Prop where
  | condition {text} : ownLines trace c = [.line (some c) level ("if " ++ text ++ ":")] →
      Announces job trace level c .thenArm [] (.line (some c) level ("if " ++ text ++ ":"))
  | loop {name collection} :
      ownLines trace c = [.line (some c) level ("for " ++ name ++ " in " ++ collection ++ ":")] →
      Announces job trace level c .loopBody []
        (.line (some c) level ("for " ++ name ++ " in " ++ collection ++ ":"))
  | otherwise : .opened c .thenArm ∈ trace →
      Announces job trace level c .elseArm [] (.line none level "else:")
  | scope {own text} : job.opensScope c = true →
      ownLines trace c = own ++ [.line (some c) level text] → (∀ x ∈ own, x.StandsAt c level) →
      text.toList.getLast? = some ':' →
      Announces job trace level c .scope own (.line (some c) level text)

/-- A line that completes a block or the program: a `pass`, or the values that are returned. -/
def IsFiller (text : String) : Prop :=
  text = "pass" ∨ ∃ values, text = "return " ++ values

/-- Steps that have the layout of nested blocks at a level, as a part of a whole trace: the lines of
a node that opens no scope, and arms with the lines that announce them. -/
inductive Laid (job : Job) (trace : List Event) : Nat → List Event → Prop where
  | nil {level} : Laid job trace level []
  | enter {level v rest} : Laid job trace level rest → Laid job trace level (.enter v :: rest)
  | filler {level text rest} : IsFiller text → Laid job trace level rest →
      Laid job trace level (.line none level text :: rest)
  | lines {level v rest} : job.opensScope v = false →
      (∀ x ∈ ownLines trace v, x.StandsAt v level) →
      (ownLines trace v ≠ [] → HasLine (ownLines trace v)) → Laid job trace level rest →
      Laid job trace level (ownLines trace v ++ rest)
  | arm {level c arm own header body rest} : Announces job trace level c arm own header →
      Laid job trace (level + 1) body → HasLine body → Laid job trace level rest →
      Laid job trace level
        (own ++ header :: .opened c arm :: (body ++ .closed c arm :: rest))

namespace Laid

variable {trace steps more : List Event} {level : Nat}

/-- One layout after the other. -/
theorem append (h : Laid job trace level steps) (h' : Laid job trace level more) :
    Laid job trace level (steps ++ more) := by
  induction h with
  | nil => exact h'
  | enter _ ih => exact .enter (ih h')
  | filler htext _ ih => exact .filler htext (ih h')
  | lines hscope hown hline _ ih =>
    rw [List.append_assoc]
    exact .lines hscope hown hline (ih h')
  | arm hheader hbody hline _ _ ih =>
    have harm := Laid.arm hheader hbody hline (ih h')
    simpa using harm

/-- Steps that write anything write a line that is not blank. -/
theorem hasLine (h : Laid job trace level steps) (hne : traceItems steps ≠ []) : HasLine steps := by
  induction h with
  | nil => exact absurd rfl hne
  | enter _ ih => exact (ih hne).mono (List.subset_cons_self _ _)
  | filler => exact ⟨_, _, _, List.mem_cons_self⟩
  | @lines level v rest _ _ hline _ ih =>
    cases hown : ownLines trace v with
    | nil =>
      rw [hown] at hne
      exact ih hne
    | cons x xs =>
      exact hown ▸ (hline (by simp [hown])).mono (List.subset_append_left _ _)
  | arm _ _ hline _ _ _ => exact hline.mono fun x hx => by simp [hx]

end Laid

/-- The nodes that work enters have all their lines of the trace when the work is done. -/
def Final (trace : List Event) (d e : Draft) : Prop :=
  ∀ v ∈ e.entered, v ∉ d.entered → ownLines trace v = ownLines e.trace v

/-- A node that has not been entered has no lines. -/
def Fresh (d : Draft) : Prop :=
  ∀ v, v ∉ d.entered → ownLines d.trace v = []

/-- What has been entered keeps its lines, if the work is not for a block that it is about to
write. -/
theorem Emits.ownLines_eq {t : Task} (h : Emits job t d e) (hv : v ∈ d.entered)
    (ht : ∀ b, t ≠ .block v b) : ownLines e.trace v = ownLines d.trace v :=
  ((h.treats (S := fun _ => True) fun _ _ => trivial).treats ht).ownLines_eq hv

/-- Nodes that work does not enter stay without lines. -/
theorem Fresh.emits {t : Task} (hd : Fresh d) (h : Emits job t d e) (ht : ∀ v b, t ≠ .block v b) :
    Fresh e := by
  intro v hv
  cases (h.treats (S := fun _ => True) fun _ _ => trivial).treats (ht v) with
  | rests _ hlines => exact hlines.trans (hd v fun hin => hv (h.extends.subset hin))
  | writes _ hin => exact absurd hin hv

/-- Steps that enter nothing and write no lines of nodes that have not been entered. -/
theorem Fresh.of_trace {new : List Event} (hd : Fresh d) (hentered : d.entered ⊆ e.entered)
    (htrace : e.trace = d.trace ++ new)
    (hnew : ∀ x ∈ new, ∀ v, x.origin? = some v → v ∈ d.entered) : Fresh e := by
  intro v hv
  have hold : v ∉ d.entered := fun hin => hv (hentered hin)
  have hnone : ownLines new v = [] := by
    rw [ownLines, List.filter_eq_nil_iff]
    intro x hx horigin
    exact hold (hnew x hx v (by simpa using horigin))
  have hbefore : ownLines d.trace v = [] := hd v hold
  rw [htrace, ownLines, List.filter_append]
  exact List.append_eq_nil_iff.mpr ⟨hbefore, hnone⟩

/-- Work that is a part of other work. -/
theorem Final.part {trace : List Event} {d' e' : Draft} (h : Final trace d e)
    (hd : d.entered ⊆ d'.entered) (he : e'.entered ⊆ e.entered)
    (hkeep : ∀ v ∈ e'.entered, v ∉ d'.entered → ownLines e.trace v = ownLines e'.trace v) :
    Final trace d' e' :=
  fun v hv hnew => (h v (he hv) fun hin => hnew (hd hin)).trans (hkeep v hv hnew)

/-- What is added to a trace from `d` to `e` has the layout of nested blocks. -/
def Adds (job : Job) (trace : List Event) (d e : Draft) : Prop :=
  ∃ new, e.trace = d.trace ++ new ∧ Laid job trace d.level new

/-- Additions one after the other. -/
theorem Adds.trans {trace : List Event} {f : Draft} (h : Adds job trace d e)
    (h' : Adds job trace e f) (hlevel : e.level = d.level) : Adds job trace d f := by
  obtain ⟨new, htrace, hlaid⟩ := h
  obtain ⟨new', htrace', hlaid'⟩ := h'
  refine ⟨new ++ new', ?_, hlaid.append (hlevel ▸ hlaid')⟩
  rw [htrace', htrace, List.append_assoc]

/-- Nothing is added. -/
theorem Adds.of_eq {trace : List Event} (h : e.trace = d.trace) : Adds job trace d e :=
  ⟨[], h.trans (List.append_nil _).symm, .nil⟩

/-- A node is entered. -/
theorem Adds.enter {trace : List Event} (d : Draft) (v : Nat) : Adds job trace d (d.enter v) :=
  ⟨[.enter v], rfl, .enter .nil⟩

/-- What a piece of work adds to a trace has the layout of nested blocks. The arms of a block come
after a line that announces the first of them; what a node becomes as a block is known when it has
no lines yet. -/
def Lays (job : Job) (trace : List Event) (d e : Draft) : Task → Prop
  | .arms owner arms => ∃ new, e.trace = d.trace ++ new ∧ (arms = [] → new = []) ∧
      ∀ x rest own header, arms = x :: rest → (∀ y ∈ rest, y.1 = .elseArm) →
        (rest ≠ [] → x.1 = .thenArm ∨ .opened owner .thenArm ∈ trace) →
        Announces job trace d.level owner x.1 own header →
        Laid job trace d.level (own ++ header :: new)
  | .block owner b => owner ∈ d.entered → ownLines d.trace owner = [] →
      ownLines trace owner = ownLines e.trace owner → (∃ w, job.block? w owner = some (b, d)) →
      Adds job trace d e
  | _ => Adds job trace d e

/-- A node has no lines when all that it reads has been entered. -/
theorem Fresh.read (hd : Fresh d) (hnew : v ∉ d.entered)
    (hdeps : Emits job (.values (job.graph.dependencies v)) (d.enter v) e) :
    ownLines e.trace v = [] := by
  rw [hdeps.ownLines_eq (Draft.mem_enter.mpr (.inr rfl)) fun _ => Task.noConfusion]
  have hbefore := hd v hnew
  simpa [ownLines, Draft.enter, Event.origin?] using hbefore

/-- Entering a node leaves the others without lines. -/
theorem Fresh.enter (hd : Fresh d) (v : Nat) : Fresh (d.enter v) :=
  hd.of_trace (List.subset_append_left _ _) rfl (by simp [Event.origin?])

section Turn

variable {trace : List Event}

/-- What a node writes in its turn are its lines. -/
theorem trace_writeGuarded (hempty : ownLines d.trace v = [])
    (hfinal : ownLines trace v = ownLines (job.writeGuarded d v).trace v) :
    (job.writeGuarded d v).trace = d.trace ++ ownLines trace v := by
  obtain ⟨own, htrace, hown⟩ := (writeGuarded_writes job d v).trace
  rw [hfinal, htrace, ownLines_append hown, hempty, List.nil_append]

/-- The lines of a node that opens no scope. -/
theorem adds_of_turn (hscope : job.opensScope v = false) (hempty : ownLines d.trace v = [])
    (hfinal : ownLines trace v = ownLines (job.writeGuarded d v).trace v) :
    Adds job trace d (job.writeGuarded d v) := by
  obtain ⟨own, htrace, hown, hline⟩ := (writeGuarded_writesAt job d v).trace
  have hlines := trace_writeGuarded hempty hfinal
  obtain rfl : own = ownLines trace v := List.append_cancel_left (htrace.symm.trans hlines)
  have hlaid : Laid job trace d.level (ownLines trace v ++ []) := .lines hscope hown hline .nil
  rw [List.append_nil] at hlaid
  exact ⟨_, hlines, hlaid⟩

/-- The last line of a node that opens a scope announces it. -/
theorem announces_of_turn (hv : v < job.graph.size) (hscope : job.opensScope v = true)
    (hempty : ownLines d.trace v = [])
    (hfinal : ownLines trace v = ownLines (job.writeGuarded d v).trace v) :
    ∃ own header, (job.writeGuarded d v).trace = d.trace ++ (own ++ [header]) ∧
      Announces job trace d.level v .scope own header := by
  obtain ⟨own, text, htrace, hown, hcolon⟩ := writeGuarded_of_opensScope hv hscope d
  have hlines := trace_writeGuarded hempty hfinal
  exact ⟨own, _, htrace, .scope hscope (List.append_cancel_left (hlines.symm.trans htrace)) hown
    hcolon⟩

/-- A node whose successors are left alone. -/
theorem writeAlone_adds (hsize : job.opensScope v = true → v < job.graph.size)
    (hempty : ownLines d.trace v = [])
    (hfinal : ownLines trace v = ownLines (job.writeAlone v d).trace v) :
    Adds job trace d (job.writeAlone v d) := by
  rw [ownLines_writeAlone] at hfinal
  cases hscope : job.opensScope v with
  | false =>
    rw [writeAlone, hscope]
    exact adds_of_turn hscope hempty hfinal
  | true =>
    obtain ⟨own, header, htrace, hannounces⟩ := announces_of_turn (hsize hscope) hscope hempty hfinal
    have hlevel := (writeGuarded_writesAt job d v).level
    have hpass : Laid job trace (d.level + 1) [.line none (d.level + 1) "pass"] :=
      .filler (.inl rfl) .nil
    refine ⟨_, ?_, .arm hannounces hpass ⟨_, _, _, List.mem_cons_self⟩ .nil⟩
    rw [writeAlone, hscope]
    simp [Draft.closeArm, Draft.write, Draft.openArm, htrace, hlevel]

end Turn

/-- The header of a block announces its first arm, and the arms after it are alternatives. -/
theorem block?_announces {trace : List Event} {b : Block} {level : Nat}
    (h : job.block? d v = some (b, e))
    (hlines : ownLines trace v = [.line (some v) level b.header]) :
    ∃ x rest, b.arms = x :: rest ∧ (∀ y ∈ rest, y.1 = .elseArm) ∧ (rest ≠ [] → x.1 = .thenArm) ∧
      Announces job trace level v x.1 [] (.line (some v) level b.header) := by
  obtain ⟨n, -, ⟨-, hblock⟩ | ⟨-, hblock⟩⟩ := block?_eq_some h
  · obtain ⟨p, -, hheader, ⟨harms, -⟩, -⟩ := conditionalBlock?_eq_some hblock
    rw [hheader] at hlines ⊢
    refine ⟨_, _, harms, ?_, fun _ => rfl, .condition hlines⟩
    intro y hy
    split at hy
    · exact absurd hy List.not_mem_nil
    · rw [List.mem_singleton.mp hy]
  · obtain ⟨name, collection, -, hheader, harms, -, -⟩ := loopBlock?_eq_some hblock
    rw [hheader] at hlines ⊢
    exact ⟨_, _, harms, by simp, by simp, .loop hlines⟩

/-- The lines of a node leave those of the others alone. -/
theorem ownLines_writeGuarded {u : Nat} (hne : v ≠ u) :
    ownLines (job.writeGuarded d v).trace u = ownLines d.trace u := by
  obtain ⟨own, htrace, hown⟩ := (writeGuarded_writes job d v).trace
  have hnone : ownLines own u = [] := by
    rw [ownLines, List.filter_eq_nil_iff]
    intro x hx
    simpa [hown x hx] using hne
  rw [htrace, ownLines, List.filter_append]
  exact (congrArg _ hnone).trans (List.append_nil _)

/-- What an arm holds when it is closed, with a `pass` if nothing was written in it. -/
theorem endArm_laid {trace : List Event} {owner : Nat} {arm : Arm}
    (h : Adds job trace (d.openArm owner arm) e) (hlevel : e.level = d.level + 1) :
    ∃ body, ((d.openArm owner arm).endArm owner arm e).trace =
        d.trace ++ .opened owner arm :: (body ++ [.closed owner arm]) ∧
      Laid job trace (d.level + 1) body ∧ HasLine body := by
  obtain ⟨new, htrace, hlaid⟩ := h
  have hwritten : e.written = (d.openArm owner arm).written + (traceItems new).length := by
    simp [Draft.written_eq, htrace, traceItems]
  by_cases hnone : traceItems new = []
  · refine ⟨new ++ [.line none (d.level + 1) "pass"], ?_, hlaid.append (.filler (.inl rfl) .nil),
      none, d.level + 1, "pass", by simp⟩
    rw [Draft.endArm, if_pos (by simp [hwritten, hnone])]
    simp [Draft.closeArm, Draft.write, Draft.openArm, htrace, hlevel]
  · refine ⟨new, ?_, hlaid, hlaid.hasLine hnone⟩
    have hsome : e.written ≠ (d.openArm owner arm).written := by
      have hpos := List.length_pos_of_ne_nil hnone
      omega
    rw [Draft.endArm, if_neg hsome]
    simp [Draft.closeArm, Draft.openArm, htrace]

/-- A part of a whole trace, from one draft to another: before it, nodes that have not been entered
have no lines, and after it, those that have been entered in it have all of their lines. -/
structure Part (trace : List Event) (d e : Draft) : Prop where
  fresh : Fresh d
  final : Final trace d e
  whole : e.trace <+: trace

namespace Part

variable {trace : List Event} {f : Draft} {t t' : Task}

/-- Two pieces of work one after the other. -/
theorem split (h : Part trace d f) (hfirst : Emits job t d e) (hrest : Emits job t' e f)
    (ht : ∀ v b, t ≠ .block v b) (ht' : ∀ v b, t' ≠ .block v b) :
    Part trace d e ∧ Part trace e f := by
  refine ⟨⟨h.fresh, ?_, hrest.extends.trace.trans h.whole⟩, h.fresh.emits hfirst ht, ?_, h.whole⟩
  · exact h.final.part (List.Subset.refl _) hrest.extends.subset fun u hu _ =>
      hrest.ownLines_eq hu (ht' u)
  · exact h.final.part hfirst.extends.subset (List.Subset.refl _) fun _ _ _ => rfl

/-- A node is entered and all that it reads, then the node has its turn, and then comes a piece of
work that is not for a block of it. -/
theorem turn (h : Part trace d f) (hnew : v ∉ d.entered)
    (hdeps : Emits job (.values (job.graph.dependencies v)) (d.enter v) e)
    (hnext : Emits job t (job.writeGuarded e v) f) (ht : ∀ u b, t ≠ .block u b) :
    Part trace (d.enter v) e ∧ Part trace (job.writeGuarded e v) f ∧
      ownLines trace v = ownLines (job.writeGuarded e v).trace v := by
  have hwrites := writeGuarded_writes job e v
  have hin : v ∈ (d.enter v).entered := Draft.mem_enter.mpr (.inr rfl)
  have hv : v ∈ e.entered := hdeps.extends.subset hin
  have hread := ((Draft.enter_extends hnew).trans hdeps.extends).trans hwrites.extends
  have hlater : e.entered ⊆ f.entered := fun u hu => hnext.extends.subset (hwrites.entered ▸ hu)
  have hvalues : Final trace (d.enter v) e := by
    refine h.final.part (List.subset_append_left _ _) hlater fun u hu hother => ?_
    have hne : v ≠ u := fun heq => hother (heq ▸ hin)
    rw [hnext.ownLines_eq (hwrites.entered ▸ hu) (ht u), ownLines_writeGuarded hne]
  have hfresh : Fresh (job.writeGuarded e v) := by
    obtain ⟨own, htrace, hown⟩ := hwrites.trace
    refine ((h.fresh.enter v).emits hdeps fun _ _ => Task.noConfusion).of_trace
      (hwrites.entered ▸ List.Subset.refl _) htrace fun x hx u hu => ?_
    rw [hown x hx, Option.some.injEq] at hu
    exact hu ▸ hv
  refine ⟨⟨h.fresh.enter v, hvalues, (hwrites.extends.trans hnext.extends).trace.trans h.whole⟩,
    ⟨hfresh, ?_, h.whole⟩, ?_⟩
  · exact h.final.part hread.subset (List.Subset.refl _) fun _ _ _ => rfl
  · rw [h.final v (hlater hv) hnew, hnext.ownLines_eq (hwrites.entered ▸ hv) (ht v)]

/-- A node is entered and all that it reads, and then its block is written. -/
theorem shape {b : Block} {s : Draft} (h : Part trace d f) (hnew : v ∉ d.entered)
    (hdeps : Emits job (.values (job.graph.dependencies v)) (d.enter v) e)
    (hblock : job.block? e v = some (b, s)) (hnext : Emits job (.block v b) s f) :
    Part trace (d.enter v) e ∧ Part trace s f := by
  have halike := block?_alike hblock
  have hread := ((Draft.enter_extends hnew).trans hdeps.extends).trans halike.extends
  have hvalues : Final trace (d.enter v) e := by
    refine h.final.part (List.subset_append_left _ _)
      (fun u hu => hnext.extends.subset (halike.entered ▸ hu)) fun u hu hother => ?_
    rw [hnext.ownLines_eq (halike.entered ▸ hu) ?_, halike.trace]
    intro b' heq
    cases heq
    exact hother (Draft.mem_enter.mpr (.inr rfl))
  have hfresh : Fresh s :=
    ((h.fresh.enter v).emits hdeps fun _ _ => Task.noConfusion).of_trace
      (halike.entered ▸ List.Subset.refl _) (halike.trace.trans (List.append_nil _).symm) (by simp)
  refine ⟨⟨h.fresh.enter v, hvalues, (halike.extends.trans hnext.extends).trace.trans h.whole⟩,
    hfresh, ?_, h.whole⟩
  exact h.final.part hread.subset (List.Subset.refl _) fun _ _ _ => rfl

/-- An arm is opened and closed, and then come the others. -/
theorem arms {owner : Nat} {arm : Arm} {targets : List Nat} {rest : List (Arm × List Nat)}
    (h : Part trace d f) (harm : Emits job (.flows targets) (d.openArm owner arm) e)
    (hrest : Emits job (.arms owner rest)
      (((d.openArm owner arm).endArm owner arm e).nextArm rest) f) :
    Part trace (d.openArm owner arm) e ∧
      Part trace (((d.openArm owner arm).endArm owner arm e).nextArm rest) f := by
  have hnext := (Draft.endArm_extends harm.extends).trans
    (Draft.nextArm_extends ((d.openArm owner arm).endArm owner arm e) rest)
  have hfreshOpen : Fresh (d.openArm owner arm) :=
    h.fresh.of_trace (List.Subset.refl _) rfl (by simp [Event.origin?])
  have hfreshNext : Fresh (((d.openArm owner arm).endArm owner arm e).nextArm rest) := by
    intro u hu
    rw [ownLines_nextArm, ownLines_endArm]
    exact hfreshOpen.emits harm (fun _ _ => Task.noConfusion) u (by simpa using hu)
  refine ⟨⟨hfreshOpen, ?_, ?_⟩, hfreshNext, ?_, h.whole⟩
  · refine h.final.part (List.Subset.refl _) (fun u hu => hrest.extends.subset (by simpa using hu))
      fun u hu _ => ?_
    rw [hrest.ownLines_eq (by simpa using hu) fun _ => Task.noConfusion, ownLines_nextArm,
      ownLines_endArm]
  · exact ((Draft.trace_nextArm_endArm owner arm rest _ e).trans hrest.extends.trace).trans h.whole
  · exact h.final.part hnext.subset (List.Subset.refl _) fun _ _ _ => rfl

section Block

variable {owner : Nat} {b : Block} {s g i : Draft} (h : Part trace d i) (howner : owner ∈ d.entered)
  (hhoists : Emits job (.hoists owner (job.regionNeeds d b) job.order) d s)
  (harms : Emits job (.arms owner b.arms)
    ((s.hold (job.held d b)).write (some owner) b.header) f)
  (hrest : Emits job (.flows b.rest) (f.letGo (job.held d b)) g)
  (hheld : Emits job (.flows (job.held d b)) g i)
include hrest hheld

/-- What has been entered when a block is closed has all its lines then. -/
theorem ownLines_closed (hv : v ∈ f.entered) : ownLines i.trace v = ownLines f.trace v := by
  rw [hheld.ownLines_eq (hrest.extends.subset hv) fun _ => Task.noConfusion]
  exact hrest.ownLines_eq hv fun _ => Task.noConfusion

include harms

/-- What has been entered when the header of a block is written has all its lines then. -/
theorem ownLines_headed (hv : v ∈ s.entered) : ownLines i.trace v =
    ownLines ((s.hold (job.held d b)).write (some owner) b.header).trace v := by
  rw [ownLines_closed hrest hheld (harms.extends.subset hv)]
  exact harms.ownLines_eq hv fun _ => Task.noConfusion

include howner hhoists

/-- The header of a block is the only line of its node. -/
theorem ownLines_owner (hempty : ownLines d.trace owner = [])
    (hown : ownLines trace owner = ownLines i.trace owner) :
    ownLines trace owner = [.line (some owner) d.level b.header] := by
  have hbefore : ownLines s.trace owner = [] := by
    rw [hhoists.ownLines_eq howner fun _ => Task.noConfusion, hempty]
  have hheader : ownLines ((s.hold (job.held d b)).write (some owner) b.header).trace owner =
      ownLines s.trace owner ++ [.line (some owner) s.level b.header] :=
    ownLines_append (by simp [Event.origin?])
  rw [hown, ownLines_headed harms hrest hheld (hhoists.extends.subset howner), hheader, hbefore,
    hhoists.extends.level]
  rfl

include h

/-- Values are computed ahead of a block and its header is written, then come its arms, and then what
runs after it. -/
theorem block : Part trace d s ∧
    Part trace ((s.hold (job.held d b)).write (some owner) b.header) f ∧
    Part trace (f.letGo (job.held d b)) g ∧ Part trace g i := by
  have hinside : s.entered ⊆ f.entered := harms.extends.subset
  have hlater : f.entered ⊆ i.entered := fun u hu => hheld.extends.subset (hrest.extends.subset hu)
  have hwholeRest : g.trace <+: trace := hheld.extends.trace.trans h.whole
  have hwholeArms : f.trace <+: trace := hrest.extends.trace.trans hwholeRest
  have hfreshHeader : Fresh ((s.hold (job.held d b)).write (some owner) b.header) :=
    (h.fresh.emits hhoists fun _ _ => Task.noConfusion).of_trace (List.Subset.refl _) rfl
      (by simpa [Event.origin?] using hhoists.extends.subset howner)
  have hfreshArms : Fresh (f.letGo (job.held d b)) :=
    (hfreshHeader.emits harms fun _ _ => Task.noConfusion).of_trace (List.Subset.refl _)
      (List.append_nil _).symm (by simp)
  refine ⟨⟨h.fresh, ?_, ?_⟩, ⟨hfreshHeader, ?_, hwholeArms⟩, ⟨hfreshArms, ?_, hwholeRest⟩,
    hfreshArms.emits hrest fun _ _ => Task.noConfusion, ?_, h.whole⟩
  · refine h.final.part (List.Subset.refl _) (fun u hu => hlater (hinside hu)) fun u hu hnew => ?_
    have hne : owner ≠ u := fun heq => hnew (heq ▸ howner)
    rw [ownLines_headed harms hrest hheld hu]
    simp [ownLines, Draft.write, Draft.hold, Event.origin?, hne]
  · exact ((Draft.write_extends _ _ _).trans harms.extends).trace.trans hwholeArms
  · exact h.final.part hhoists.extends.subset hlater fun u hu _ =>
      ownLines_closed hrest hheld hu
  · exact h.final.part (fun u hu => hinside (hhoists.extends.subset hu)) hheld.extends.subset
      fun u hu _ => hheld.ownLines_eq hu fun _ => Task.noConfusion
  · exact h.final.part (fun u hu => hrest.extends.subset (hinside (hhoists.extends.subset hu)))
      (List.Subset.refl _) fun _ _ _ => rfl

end Block

end Part

/-- A node is entered, then what it reads, and then comes what is known of the rest. -/
theorem Adds.read {trace : List Event} {f : Draft} (hdeps : Adds job trace (d.enter v) e)
    (hrest : Adds job trace e f) (hlevel : e.level = d.level) : Adds job trace d f :=
  ((Adds.enter d v).trans hdeps rfl).trans hrest hlevel

/-- An arm that has been filled, and the arms after it. -/
theorem Lays.arms {trace : List Event} {owner : Nat} {arm : Arm} {targets : List Nat}
    {rest : List (Arm × List Nat)} {f : Draft}
    (harm : Emits job (.flows targets) (d.openArm owner arm) e) (hwhole : e.trace <+: trace)
    (hfilled : Adds job trace (d.openArm owner arm) e)
    (hrest : Lays job trace (((d.openArm owner arm).endArm owner arm e).nextArm rest) f
      (.arms owner rest)) :
    Lays job trace d f (.arms owner ((arm, targets) :: rest)) := by
  have hended := Draft.endArm_extends harm.extends
  obtain ⟨body, hbody, hinside, hline⟩ := endArm_laid hfilled harm.extends.level
  obtain ⟨new, hnew, hnone, hlaid⟩ := hrest
  rw [(hended.trans (Draft.nextArm_extends _ rest)).level] at hlaid
  rw [Draft.nextArm_trace, hended.level, hbody] at hnew
  cases rest with
  | nil =>
    obtain rfl := hnone rfl
    refine ⟨.opened owner arm :: (body ++ [.closed owner arm]), ?_, by simp, ?_⟩
    · simpa using hnew
    · intro x rest own header hx _ _ hannounces
      obtain ⟨rfl, -⟩ := List.cons.inj hx
      exact .arm hannounces hinside hline .nil
  | cons y ys =>
    refine ⟨.opened owner arm :: (body ++ .closed owner arm :: .line none d.level "else:" :: new),
      ?_, by simp, ?_⟩
    · simpa using hnew
    · intro x rest own header hx helse hthen hannounces
      obtain ⟨rfl, rfl⟩ := List.cons.inj hx
      have hy : y.1 = .elseArm := helse y List.mem_cons_self
      have hfirst : .opened owner .thenArm ∈ trace := by
        rcases hthen (List.cons_ne_nil _ _) with harmEq | hin
        · have hopened : .opened owner arm ∈ (d.openArm owner arm).trace := by
            simp [Draft.openArm]
          exact harmEq ▸ (harm.extends.trace.trans hwhole).subset hopened
        · exact hin
      exact .arm hannounces hinside hline (hlaid y ys [] _ rfl
        (fun z hz => helse z (List.mem_cons_of_mem _ hz)) (fun _ => .inr hfirst)
        (hy ▸ .otherwise hfirst))

/-- Every piece of work has the layout of nested blocks. -/
theorem Emits.lays {trace : List Event} {t : Task}
    (hsize : ∀ v, job.opensScope v = true → v < job.graph.size) (h : Emits job t d e)
    (hpart : Part trace d e) : Lays job trace d e t := by
  induction h with
  | value_skip | values_nil | hoists_nil | flow_skip | flows_nil => exact .of_eq rfl
  | arms_nil => exact ⟨[], (List.append_nil _).symm, fun _ => rfl, by simp⟩
  | @value_enter v d e hnew hdeps ih =>
    have hv : v ∈ e.entered := hdeps.extends.subset (Draft.mem_enter.mpr (.inr rfl))
    have hread : Final trace (d.enter v) e := by
      refine hpart.final.part (List.subset_append_left _ _) (by simp) fun u _ hne => ?_
      rw [ownLines_writeAlone]
      refine ownLines_writeGuarded fun heq => hne ?_
      exact heq ▸ Draft.mem_enter.mpr (.inr rfl)
    have hturn := writeAlone_adds (hsize v) (hpart.fresh.read hnew hdeps)
      (hpart.final v (by simpa using hv) hnew)
    exact .read (ih ⟨hpart.fresh.enter v, hread,
      (writeAlone_extends job v e).trace.trans hpart.whole⟩) hturn hdeps.extends.level
  | values_cons hfirst hrest ih ih' | flows_cons hfirst hrest ih ih' =>
    obtain ⟨hbefore, hafter⟩ := hpart.split hfirst hrest (fun _ _ => Task.noConfusion)
      fun _ _ => Task.noConfusion
    exact Adds.trans (ih hbefore) (ih' hafter) hfirst.extends.level
  | hoists_take _ _ hfirst hrest ih ih' =>
    obtain ⟨hbefore, hafter⟩ := hpart.split hfirst hrest (fun _ _ => Task.noConfusion)
      fun _ _ => Task.noConfusion
    exact Adds.trans (ih hbefore) (ih' hafter) hfirst.extends.level
  | hoists_leave _ _ ih => exact ih hpart
  | @flow_plain v d e f _ hnew hdeps _ hscope hnext ihDeps ih =>
    obtain ⟨hread, hafter, hown⟩ := hpart.turn hnew hdeps hnext fun _ _ => Task.noConfusion
    have hturn := adds_of_turn hscope (hpart.fresh.read hnew hdeps) hown
    exact .read (ihDeps hread) (hturn.trans (ih hafter) (writeGuarded_writes job e v).extends.level)
      hdeps.extends.level
  | @flow_scope v d e f _ hnew hdeps _ hscope hnext ihDeps ih =>
    obtain ⟨hread, hafter, hown⟩ := hpart.turn hnew hdeps hnext fun _ _ => Task.noConfusion
    obtain ⟨own, header, hturn, hannounces⟩ :=
      announces_of_turn (hsize v hscope) hscope (hpart.fresh.read hnew hdeps) hown
    obtain ⟨new, hnew, -, hlaid⟩ := ih hafter
    rw [(writeGuarded_writes job e v).extends.level] at hlaid
    refine .read (ihDeps hread) ⟨own ++ header :: new, ?_, ?_⟩ hdeps.extends.level
    · rw [hnew, hturn]
      simp
    · exact hlaid _ [] own header rfl (by simp) (by simp) hannounces
  | @flow_block v d e b s f _ hnew hdeps hblock hnext ihDeps ih =>
    have halike := block?_alike hblock
    have hv : v ∈ s.entered :=
      halike.entered ▸ hdeps.extends.subset (Draft.mem_enter.mpr (.inr rfl))
    obtain ⟨hread, hafter⟩ := hpart.shape hnew hdeps hblock hnext
    have hadds := ih hafter hv (halike.trace ▸ hpart.fresh.read hnew hdeps)
      (hpart.final v (hnext.extends.subset hv) hnew) ⟨e, hblock⟩
    exact .read (ihDeps hread) ((Adds.of_eq halike.trace).trans hadds halike.level)
      hdeps.extends.level
  | @block owner b d s f g i hhoists harms hrest hheld ihHoists ihArms ihRest ihHeld =>
    rintro howner hempty hown ⟨w, hblock⟩
    obtain ⟨hahead, hinside, hafter, hlast⟩ :=
      hpart.block howner hhoists harms hrest hheld
    have hlines := Part.ownLines_owner howner hhoists harms hrest hheld hempty hown
    obtain ⟨x, rest, harmsEq, helse, hthen, hannounces⟩ := block?_announces hblock hlines
    obtain ⟨new, hnew, -, hlaid⟩ := ihArms hinside
    rw [show ((s.hold (job.held d b)).write (some owner) b.header).level = d.level from
      hhoists.extends.level] at hlaid
    have harmed : Adds job trace s f := by
      refine ⟨.line (some owner) s.level b.header :: new, ?_, ?_⟩
      · rw [hnew]
        simp [Draft.write, Draft.hold]
      · rw [hhoists.extends.level]
        exact hlaid x rest [] _ harmsEq helse (fun hne => .inl (hthen hne)) hannounces
    have hbefore : Adds job trace d s := ihHoists hahead
    have hrested : Adds job trace f g := ihRest hafter
    have hlevel : f.level = d.level := harms.extends.level.trans hhoists.extends.level
    exact ((hbefore.trans harmed hhoists.extends.level).trans hrested hlevel).trans (ihHeld hlast)
      (hrest.extends.level.trans hlevel)
  | @arms_cons owner arm targets rest d e f harm hrest ihArm ihRest =>
    obtain ⟨hinside, hafter⟩ := hpart.arms harm hrest
    exact Lays.arms harm hinside.whole (ihArm hinside) (ihRest hafter)

/-- The end of a body has the layout of nested blocks. -/
theorem closing_adds (job : Job) (trace : List Event) (d : Draft) :
    Adds job trace d (job.closing d) := by
  rw [closing]
  split
  · exact .of_eq rfl
  · rw [returnAll]
    split
    · exact .of_eq rfl
    · exact ⟨_, rfl, .filler (.inr ⟨_, rfl⟩) .nil⟩

/-- Pieces of work of a body have the layout of nested blocks. -/
theorem Performs.adds {trace : List Event} {ts : List Task}
    (hsize : ∀ v, job.opensScope v = true → v < job.graph.size) (h : Performs job ts d e)
    (hts : ∀ t ∈ ts, t ∈ job.bodyTasks) (hpart : Part trace d e) : Adds job trace d e := by
  have hplain {t : Task} (ht : t ∈ job.bodyTasks) : ∀ v b, t ≠ .block v b := by
    intro v b
    rcases eq_of_mem_bodyTasks ht with ⟨vs, rfl⟩ | ⟨u, rfl⟩ | ⟨vs, rfl⟩
    all_goals exact Task.noConfusion
  induction h with
  | nil => exact .of_eq rfl
  | @cons t ts d e f hfirst hrest ih =>
    have ht := hts t List.mem_cons_self
    have hlater : ∀ t ∈ ts, t ∈ job.bodyTasks := fun t ht => hts t (List.mem_cons_of_mem _ ht)
    have hbefore : Final trace d e := by
      refine hpart.final.part (List.Subset.refl _) hrest.extends.subset fun u hu _ => ?_
      refine (hrest.keeps (P := fun x => u ∈ x.entered ∧ ownLines x.trace u = ownLines e.trace u)
        (fun t ht x y hxy hx => ⟨hxy.extends.subset hx.1, ?_⟩) ⟨hu, rfl⟩).2
      exact (hxy.ownLines_eq hx.1 (hplain (hlater t ht) u)).trans hx.2
    have hafter : Final trace e f :=
      hpart.final.part hfirst.extends.subset (List.Subset.refl _) fun _ _ _ => rfl
    have hadds : Adds job trace d e := by
      have hlays := hfirst.lays hsize
        ⟨hpart.fresh, hbefore, hrest.extends.trace.trans hpart.whole⟩
      rcases eq_of_mem_bodyTasks ht with ⟨vs, rfl⟩ | ⟨u, rfl⟩ | ⟨vs, rfl⟩
      all_goals exact hlays
    exact hadds.trans (ih hlater ⟨hpart.fresh.emits hfirst (hplain ht), hafter, hpart.whole⟩)
      hfirst.extends.level

/-- A body that starts from nothing has the layout of nested blocks. -/
theorem Performs.laid (hsize : ∀ v, job.opensScope v = true → v < job.graph.size)
    (h : Performs job job.bodyTasks d e) (htrace : d.trace = []) :
    Laid job (job.closing e).trace d.level (job.closing e).trace := by
  have hpart : Part (job.closing e).trace d e :=
    ⟨fun v _ => by simp [ownLines, htrace], fun v _ _ => ownLines_closing job e v,
      (closing_extends job e).trace⟩
  obtain ⟨new, hnew, hlaid⟩ := (h.adds hsize (fun _ => id) hpart).trans (closing_adds job _ e)
    h.extends.level
  rw [htrace, List.nil_append] at hnew
  rwa [← hnew] at hlaid

end Job

/-- Only nodes of the graph open scopes. -/
theorem Generator.lt_size_of_opensScope {σ : Type} (ask : PatternSource σ) (gen : Generator) (s : σ)
    (v : Nat) (h : (gen.fittedJob ask s).opensScope v = true) : v < gen.graph.size := by
  have hlength (nodes : List Node) (r : Fitted σ) :
      (nodes.foldl (fitNode ask gen.settings.language) r).fittings.length =
        r.fittings.length + nodes.length := by
    induction nodes generalizing r with
    | nil => rfl
    | cons n rest ih =>
      obtain ⟨fitting, hfirst, -⟩ := fitNode_fittings ask gen.settings.language r n
      rw [List.foldl_cons, ih, hfirst, List.length_append, List.length_cons, List.length_cons,
        List.length_nil]
      omega
  have hall : (gen.fitAll ask s).fittings.length = gen.graph.size := by
    rw [fitAll, hlength, List.length_nil, Nat.zero_add]
    rfl
  by_contra hv
  have habsent : (gen.fittedJob ask s).fitting v = .absent := by
    change (gen.fitAll ask s).fittings.getD v .absent = .absent
    rw [List.getD_eq_getElem?_getD, List.getElem?_eq_none (by omega)]
    rfl
  rw [Job.opensScope, habsent] at h
  cases h

end FlowScript
