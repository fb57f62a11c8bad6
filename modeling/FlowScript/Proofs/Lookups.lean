import FlowScript.Proofs.TypeReports

/-!
# What a generator asks for

A generator asks its source about a function until the source says that there is a pattern or that
there is none, and never again after that. The answer may come while another node is looked up, or in
an earlier call: all nodes with the function are treated by it from then on. What is kept of the
answers is tied to the record of all lookups by an invariant, one equation for each function, and
what a call does about a node is said in terms of the record alone.
-/

namespace FlowScript

/-- A lookup: the function that was asked for, and the answer. -/
structure Lookup where
  function : String
  answer : Answer
deriving DecidableEq, Repr

namespace Answer

/-- Whether an answer settles that there is a pattern, or that there is none. -/
def isFinal : Answer → Bool
  | .found _ | .notFound => true
  | .failed _ => false

/-- The answer that is kept for a function. -/
def ofKnown : Option Pattern → Answer
  | some p => .found p
  | none => .notFound

/-- What is kept of an answer about a function. -/
def kept (function : String) : Answer → List (String × Option Pattern)
  | .found p => [(function, some p)]
  | .notFound => [(function, none)]
  | .failed _ => []

/-- Only final answers are kept. -/
@[simp] theorem isFinal_ofKnown (k : Option Pattern) : (ofKnown k).isFinal = true := by
  cases k <;> rfl

end Answer

/-- A source that keeps a record of its lookups. -/
def PatternSource.recorded {σ : Type} (ask : PatternSource σ) : PatternSource (σ × List Lookup) :=
  fun s function language =>
    let answered := ask s.1 function language
    (answered.1, answered.2, s.2 ++ [⟨function, answered.1⟩])

/-- The answers about a function, in the order of the lookups. -/
def answersAbout (function : String) (log : List Lookup) : List Answer :=
  (log.filter (·.function = function)).map (·.answer)

/-- The answer that settles a function, if there has been one. -/
def settled? (function : String) (log : List Lookup) : Option Answer :=
  (answersAbout function log).find? (·.isFinal)

section Record

variable {f : String} {log later : List Lookup} {a : Answer}

/-- Answers to earlier lookups come first. -/
theorem answersAbout_append (f : String) (log own : List Lookup) :
    answersAbout f (log ++ own) = answersAbout f log ++ answersAbout f own := by
  rw [answersAbout, List.filter_append, List.map_append]
  rfl

/-- The answer to a lookup is about the function that was asked for. -/
theorem answersAbout_singleton (f g : String) (a : Answer) :
    answersAbout f [⟨g, a⟩] = if g = f then [a] else [] := by
  by_cases hsame : g = f <;> simp [answersAbout, hsame]

/-- A function stays settled. -/
theorem settled?_of_prefix (h : settled? f log = some a) (hlater : log <+: later) :
    settled? f later = some a := by
  obtain ⟨rest, rfl⟩ := hlater
  rw [settled?] at h
  rw [settled?, answersAbout_append, List.find?_append, h]
  rfl

/-- A function is settled by the first final answer. -/
theorem settled?_append_singleton (h : settled? f log = none) :
    settled? f (log ++ [⟨f, a⟩]) = if a.isFinal then some a else none := by
  rw [settled?] at h
  rw [settled?, answersAbout_append, List.find?_append, h, answersAbout_singleton, if_pos rfl]
  cases hfinal : a.isFinal <;> simp [hfinal]

end Record

/-- What is known agrees with a record of lookups: about every function there were failures, and then
the answer that is kept, if one is. -/
def Remembers (known : List (String × Option Pattern)) (log : List Lookup) : Prop :=
  ∀ function, ∃ failures : List LookupFailure, answersAbout function log =
    failures.map .failed ++ ((known.lookup function).map Answer.ofKnown).toList

namespace Remembers

variable {known : List (String × Option Pattern)} {log : List Lookup} {f : String}

/-- Before all lookups nothing is known. -/
theorem nil : Remembers [] [] :=
  fun _ => ⟨[], rfl⟩

/-- What is known about a function is the answer that settles it. -/
theorem settled (h : Remembers known log) (f : String) :
    settled? f log = (known.lookup f).map Answer.ofKnown := by
  obtain ⟨failures, hanswers⟩ := h f
  have hnone : (failures.map Answer.failed).find? (·.isFinal) = none := by
    simp [Answer.isFinal]
  rw [settled?, hanswers, List.find?_append, hnone]
  cases known.lookup f with
  | none => rfl
  | some k => simp

/-- What is known after a lookup, if it was not known before. -/
theorem ask (h : Remembers known log) (hnew : known.lookup f = none) (a : Answer) :
    Remembers (known ++ a.kept f) (log ++ [⟨f, a⟩]) := by
  intro g
  obtain ⟨failures, hanswers⟩ := h g
  rw [answersAbout_append, answersAbout_singleton, hanswers, List.lookup_append]
  by_cases hsame : f = g
  · subst hsame
    rw [hnew, if_pos rfl]
    cases a with
    | found p => exact ⟨failures, by simp [Answer.kept, Answer.ofKnown]⟩
    | notFound => exact ⟨failures, by simp [Answer.kept, Answer.ofKnown]⟩
    | failed x => exact ⟨failures ++ [x], by simp [Answer.kept]⟩
  · have hother : (a.kept f).lookup g = none := by
      cases a <;> simp [Answer.kept, List.lookup_cons, beq_false_of_ne (Ne.symm hsame)]
    rw [if_neg hsame, hother, Option.or_none, List.append_nil]
    exact ⟨failures, rfl⟩

end Remembers

/-- What a call does about one node: the lookups it makes for it, how the node is treated, and what is
reported about that. -/
structure Share where
  lookups : List Lookup
  fitting : Fitting
  notes : List Diagnostic
deriving DecidableEq, Repr

/-- The lookups for a node with a function: none if the function is settled, and else one. -/
def Asks (function : String) (log own : List Lookup) : Prop :=
  if (settled? function log).isSome then own = [] else ∃ a, own = [⟨function, a⟩]

/-- How a node is treated, given all lookups before it: by the final answer about its function, be it
the answer to the lookup for this very node, and without one by the failure of that lookup. -/
inductive Share.Suits (language : String) (log : List Lookup) (n : Node) : Share → Prop where
  | absent : n.functionId = none → Suits language log n ⟨[], .absent, []⟩
  | found {f own p} : n.functionId = some f → Asks f log own →
      settled? f (log ++ own) = some (.found p) → Suits language log n ⟨own, .pattern p, []⟩
  | notFound {f own} : n.functionId = some f → Asks f log own →
      settled? f (log ++ own) = some .notFound →
      Suits language log n ⟨own, .missing f, [Diagnostic.forNode .syntaxPatternMissing
        ("No syntax pattern '" ++ f ++ "' for language '" ++ language ++ "'") n.id n.label]⟩
  | failed {f x} : n.functionId = some f → settled? f log = none →
      Suits language log n ⟨[⟨f, .failed x⟩], .missing f, [Diagnostic.forNode .initializationFailure
        ("Failed to load syntax pattern '" ++ f ++ "': " ++ x.message) n.id n.label]⟩

/-- The nodes are treated one after the other. -/
inductive Shares (language : String) : List Lookup → List Node → List Share → Prop where
  | nil {log} : Shares language log [] []
  | cons {log n x nodes xs} : x.Suits language log n → Shares language (log ++ x.lookups) nodes xs →
      Shares language log (n :: nodes) (x :: xs)

section Sharing

variable {language f : String} {log later : List Lookup} {n : Node} {x y : Share}

/-- A node without a function is left alone. -/
theorem Share.Suits.eq_absent (h : x.Suits language log n) (hnone : n.functionId = none) :
    x = ⟨[], .absent, []⟩ := by
  cases h with
  | absent => rfl
  | found hsome | notFound hsome | failed hsome => cases hnone.symm.trans hsome

/-- No lookup is made for a function that is settled. -/
theorem Share.Suits.lookups_eq_nil {a : Answer} (h : x.Suits language log n)
    (hfunction : n.functionId = some f) (hsettled : settled? f log = some a) : x.lookups = [] := by
  cases h with
  | absent => rfl
  | found hsome hasks | notFound hsome hasks =>
    obtain rfl := Option.some.inj (hfunction.symm.trans hsome)
    rwa [Asks, hsettled] at hasks
  | failed hsome hnone =>
    obtain rfl := Option.some.inj (hfunction.symm.trans hsome)
    cases hsettled.symm.trans hnone

/-- A node for which no lookup failed is treated by the answer that settles its function. -/
theorem Share.Suits.fitted (h : x.Suits language log n) (hfunction : n.functionId = some f)
    (hfinal : ∀ l ∈ x.lookups, l.answer.isFinal = true) :
    ∃ a, settled? f (log ++ x.lookups) = some a ∧
      x = ⟨x.lookups, (Generator.fit language f n a).1, (Generator.fit language f n a).2⟩ := by
  cases h with
  | absent hnone => cases hnone.symm.trans hfunction
  | found hsome _ hsettled | notFound hsome _ hsettled =>
    obtain rfl := Option.some.inj (hfunction.symm.trans hsome)
    exact ⟨_, hsettled, rfl⟩
  | failed => cases hfinal _ (List.mem_singleton.mpr rfl)

/-- A node for which no lookup failed is treated the same way whenever it is treated again, without
a lookup. -/
theorem Share.Suits.again (h : x.Suits language log n)
    (hfinal : ∀ l ∈ x.lookups, l.answer.isFinal = true) (hlater : log ++ x.lookups <+: later)
    (h' : y.Suits language later n) : y = { x with lookups := [] } := by
  cases hfunction : n.functionId with
  | none => rw [h.eq_absent hfunction, h'.eq_absent hfunction]
  | some f =>
    obtain ⟨a, hsettled, hx⟩ := h.fitted hfunction hfinal
    have hagain := settled?_of_prefix hsettled hlater
    have hnone := h'.lookups_eq_nil hfunction hagain
    obtain ⟨a', hsettled', hy⟩ := h'.fitted hfunction (by simp [hnone])
    rw [hnone, List.append_nil, hagain] at hsettled'
    obtain rfl := Option.some.inj hsettled'
    rw [hy, hx, hnone]

/-- Nodes for which no lookup failed are treated the same way whenever they are treated again,
without a lookup. -/
theorem Shares.again {nodes : List Node} {xs ys : List Share} (h : Shares language log nodes xs)
    (hfinal : ∀ l ∈ xs.flatMap Share.lookups, l.answer.isFinal = true)
    (hlater : log ++ xs.flatMap Share.lookups <+: later) (h' : Shares language later nodes ys) :
    ys = xs.map fun x => { x with lookups := [] } := by
  induction h generalizing ys with
  | nil =>
    cases h'
    rfl
  | @cons log n x nodes xs hx _ ih =>
    cases h' with
    | @cons _ _ y _ ys hy hrest =>
      rw [List.flatMap_cons] at hfinal hlater
      have hprefix : log ++ x.lookups <+: later :=
        (List.prefix_append _ _).trans (List.append_assoc _ _ _ ▸ hlater)
      obtain rfl := hx.again (fun l hl => hfinal l (List.mem_append_left _ hl)) hprefix hy
      rw [List.append_nil] at hrest
      rw [List.map_cons, ih (fun l hl => hfinal l (List.mem_append_right _ hl))
        (List.append_assoc _ _ _ ▸ hlater) hrest]

end Sharing

/-- Whether reports of a kind are about the lookup of a pattern. -/
def DiagnosticKind.isAboutLookups : DiagnosticKind → Bool
  | .syntaxPatternMissing | .initializationFailure => true
  | _ => false

/-- The reports about lookups among all reports. -/
def lookupNotes (reports : List Diagnostic) : List Diagnostic :=
  reports.filter (·.kind.isAboutLookups)

/-- How a node is treated is reported as such. -/
theorem Share.Suits.notes_eq {language : String} {log : List Lookup} {n : Node} {x : Share}
    (h : x.Suits language log n) : lookupNotes x.notes = x.notes := by
  cases h <;> rfl

/-- How nodes are treated is reported as such. -/
theorem Shares.notes_eq {language : String} {log : List Lookup} {nodes : List Node}
    {xs : List Share} (h : Shares language log nodes xs) :
    lookupNotes (xs.flatMap Share.notes) = xs.flatMap Share.notes := by
  induction h with
  | nil => rfl
  | cons hx _ ih =>
    rw [lookupNotes] at ih
    rw [List.flatMap_cons, lookupNotes, List.filter_append, ih]
    exact congrArg (· ++ _) hx.notes_eq

/-- Whether reports of a kind are about the arguments of a node. -/
def DiagnosticKind.isAboutArguments : DiagnosticKind → Bool
  | .typeConversionApplied | .typeIncompatible | .disconnectedRequiredInput
  | .unresolvedPlaceholder => true
  | _ => false

/-- What is reported from one draft to another is about arguments. -/
def Draft.NotesArguments (d e : Draft) : Prop :=
  ∃ notes, e.diagnostics = d.diagnostics ++ notes ∧ ∀ r ∈ notes, r.kind.isAboutArguments = true

namespace Draft.NotesArguments

variable {d e f : Draft}

/-- Nothing is reported. -/
theorem of_eq (h : e.diagnostics = d.diagnostics) : NotesArguments d e :=
  ⟨[], h.trans (List.append_nil _).symm, by simp⟩

theorem report (d : Draft) {notes : List Diagnostic}
    (hnotes : ∀ r ∈ notes, r.kind.isAboutArguments = true) : NotesArguments d (d.report notes) :=
  ⟨notes, rfl, hnotes⟩

theorem trans (h : NotesArguments d e) (h' : NotesArguments e f) : NotesArguments d f := by
  obtain ⟨notes, hdiagnostics, hnotes⟩ := h
  obtain ⟨notes', hdiagnostics', hnotes'⟩ := h'
  refine ⟨notes ++ notes', by rw [hdiagnostics', hdiagnostics, List.append_assoc], fun r hr => ?_⟩
  exact (List.mem_append.mp hr).elim (hnotes r) (hnotes' r)

/-- Reports about arguments are not about lookups. -/
theorem lookupNotes_eq (h : NotesArguments d e) :
    lookupNotes e.diagnostics = lookupNotes d.diagnostics := by
  obtain ⟨notes, hdiagnostics, hnotes⟩ := h
  have hnone : notes.filter (·.kind.isAboutLookups) = [] := by
    refine List.filter_eq_nil_iff.mpr fun r hr => ?_
    have hkind := hnotes r hr
    cases hr : r.kind <;> simp_all [DiagnosticKind.isAboutArguments, DiagnosticKind.isAboutLookups]
  rw [hdiagnostics, lookupNotes, List.filter_append, hnone, List.append_nil, lookupNotes]

end Draft.NotesArguments

namespace Job

variable {job : Job} {d e : Draft} {v : Nat} {n : Node} {p : Port}

open Draft (NotesArguments)

/-- What is reported about an argument that something feeds. -/
theorem boundArgument_kind {b : Binding} {r : Diagnostic}
    (hr : r ∈ (job.boundArgument d n p b).notes) : r.kind.isAboutArguments = true := by
  have htypes : r ∈ (job.boundArgument d n p b).notes.filter (·.kind.isAboutTypes) := by
    rwa [boundArgument_filter]
  have hkind := (List.mem_filter.mp htypes).2
  cases hr : r.kind <;> simp_all [DiagnosticKind.isAboutTypes, DiagnosticKind.isAboutArguments]

/-- What is reported about an argument. -/
theorem argument_kind {r : Diagnostic} (hr : r ∈ (job.argument d v n p).notes) :
    r.kind.isAboutArguments = true := by
  rw [argument] at hr
  split at hr
  · exact boundArgument_kind hr
  · rw [freeArgument] at hr
    split at hr
    · exact absurd hr List.not_mem_nil
    · dsimp only at hr
      split at hr
      · rw [List.mem_singleton.mp hr]
        rfl
      · exact absurd hr List.not_mem_nil

/-- What is reported about the variable of a loop. -/
theorem loopVariable_kind {r : Diagnostic} (hr : r ∈ (job.loopVariable d v n p).notes) :
    r.kind.isAboutArguments = true := by
  rw [loopVariable] at hr
  split at hr
  · exact boundArgument_kind hr
  · exact absurd hr List.not_mem_nil

/-- What is reported with the lines of a pattern. -/
theorem writePattern_notes (job : Job) (d : Draft) (v : Nat) (n : Node) (q : Pattern) :
    NotesArguments d (job.writePattern d v n q) := by
  rw [writePattern]
  refine (NotesArguments.report d fun r hr => ?_).trans
    ((NotesArguments.report _ fun r hr => ?_).trans (.of_eq (writeFilled_keeps ..).1))
  · obtain ⟨a, ha, hr⟩ := List.mem_flatMap.mp hr
    obtain ⟨p, -, rfl⟩ := List.mem_map.mp ha
    exact argument_kind hr
  · obtain ⟨i, -, rfl⟩ := List.mem_map.mp hr
    rfl

/-- What is reported with the return of an output. -/
theorem writeOutput_notes (h : job.writeOutput d v n = .ok e) : NotesArguments d e := by
  rw [writeOutput] at h
  split at h
  · obtain rfl := Except.ok.inj h
    exact .of_eq rfl
  · split_ifs at h
    · obtain rfl := Except.ok.inj h
      exact .of_eq rfl
    · split at h
      · rename_i a hargument
        obtain rfl := Except.ok.inj h
        rw [argumentAt] at hargument
        split at hargument
        · obtain rfl := Except.ok.inj hargument
          exact .report d fun r hr => argument_kind hr
        · cases hargument
      · cases h

/-- What is reported with the lines of a node that is written without a fault. -/
theorem writeNode_notes (h : job.writeNode d v = .ok e) : NotesArguments d e := by
  rw [writeNode] at h
  split at h
  · cases h
  · split at h
    · obtain rfl := Except.ok.inj h
      exact writePattern_notes job d v _ _
    · obtain rfl := Except.ok.inj h
      exact .of_eq rfl
    · split at h
      · obtain rfl := Except.ok.inj h
        exact .of_eq rfl
      · exact writeOutput_notes h
      · obtain rfl := Except.ok.inj h
        exact .of_eq rfl

/-- What is reported about a node that becomes a block. -/
theorem block?_notes {b : Block} (h : job.block? d v = some (b, e)) : NotesArguments d e := by
  obtain ⟨n, -, ⟨-, hblock⟩ | ⟨-, hblock⟩⟩ := block?_eq_some h
  · obtain ⟨p, -, -, -, rfl⟩ := conditionalBlock?_eq_some hblock
    exact .report d fun r hr => argument_kind hr
  · obtain ⟨name, collection, hhead, -, -, -, rfl⟩ := loopBlock?_eq_some hblock
    refine (NotesArguments.report d fun r hr => ?_).trans (.of_eq rfl)
    rw [loopHead?] at hhead
    split at hhead
    · cases hhead
    · obtain ⟨rfl, rfl⟩ := Prod.mk.inj (Option.some.inj hhead)
      exact argument_kind hr
    · obtain ⟨rfl, rfl⟩ := Prod.mk.inj (Option.some.inj hhead)
      exact (List.mem_append.mp hr).elim loopVariable_kind argument_kind

/-- What is reported at the end of a body. -/
theorem closing_notes (job : Job) (d : Draft) : NotesArguments d (job.closing d) := by
  have hkinds : ∀ r ∈ (d.deferred.filterMap (job.returned? d)).flatMap (·.notes),
      r.kind.isAboutArguments = true := by
    intro r hr
    obtain ⟨a, ha, hr⟩ := List.mem_flatMap.mp hr
    obtain ⟨u, -, hreturned⟩ := List.mem_filterMap.mp ha
    obtain ⟨n, -, hvalue⟩ := Option.bind_eq_some_iff.mp hreturned
    obtain ⟨p, -, rfl⟩ := Option.map_eq_some_iff.mp hvalue
    exact argument_kind hr
  rw [closing]
  split
  · exact .of_eq rfl
  · rw [returnAll]
    split
    · exact .report d hkinds
    · exact (NotesArguments.report d hkinds).trans (.of_eq rfl)

/-- The lines of a node come without reports about lookups, also if writing them is a fault. -/
theorem writeGuarded_lookupNotes (job : Job) (d : Draft) (v : Nat) :
    lookupNotes (job.writeGuarded d v).diagnostics = lookupNotes d.diagnostics := by
  rw [writeGuarded]
  split
  · rename_i e hwrite
    exact (writeNode_notes hwrite).lookupNotes_eq
  · exact (List.filter_append ..).trans (List.append_nil _)

/-- Steps add no reports about lookups. -/
theorem Step.lookupNotes_eq {S : Nat → Prop} (h : Step job S d e) :
    lookupNotes e.diagnostics = lookupNotes d.diagnostics := by
  cases h with
  | lines => exact writeGuarded_lookupNotes job d _
  | shape _ hblock => exact (block?_notes hblock).lookupNotes_eq
  | enter | line | openArm | closeArm | hold | letGo => rfl

/-- The work of a body adds no reports about lookups. -/
theorem Performs.lookupNotes_eq {ts : List Task} (h : Performs job ts d e) :
    lookupNotes (job.closing e).diagnostics = lookupNotes d.diagnostics := by
  rw [(closing_notes job e).lookupNotes_eq]
  exact keeps_of_step (S := fun _ => True)
    (P := fun x => lookupNotes x.diagnostics = lookupNotes d.diagnostics)
    (h.steps fun _ _ => trivial) (fun _ _ hstep hx => hstep.lookupNotes_eq.trans hx) rfl

end Job

/-- A call of a generator: what it gives, and the lookups it makes. -/
structure Call where
  outcome : Outcome
  lookups : List Lookup
deriving DecidableEq, Repr

namespace Generator

variable {σ : Type}

/-- Call a generator with a source. -/
def call (ask : PatternSource σ) (gen : Generator) (s : σ) : Call where
  outcome := (gen.run ask s).1
  lookups := (gen.run ask.recorded (s, [])).2.2.2

/-- Call a generator again and again. Between the calls the source may come into any state. -/
def session (ask : PatternSource σ) : Generator → List σ → List Call
  | _, [] => []
  | gen, s :: states => gen.call ask s :: session ask (gen.run ask s).2.1 states

/-- What a call comes to, given the lookups before it: its lookups are made node by node, the program
is written with the nodes as they are treated, and all that is reported about lookups is what is
reported about the nodes. -/
def Accounts (gen : Generator) (log : List Lookup) (c : Call) : Prop :=
  ∃ shares, Shares gen.settings.language log gen.graph.nodes shares ∧
    c.lookups = shares.flatMap Share.lookups ∧
    c.outcome = gen.write (shares.map Share.fitting) (shares.flatMap Share.notes) ∧
    lookupNotes c.outcome.diagnostics = shares.flatMap Share.notes

section Fit

variable {ask : PatternSource σ} {language : String} {earlier : List Lookup}

/-- What a source with a record gives, without the record. -/
def unrecorded (r : Fitted (σ × List Lookup)) : Fitted σ :=
  ⟨r.fittings, r.notes, r.known, r.source.1⟩

/-- A lookup of a function that is not known. -/
theorem lookup_of_new {known : List (String × Option Pattern)} {f : String} {s : σ}
    (hnew : known.lookup f = none) :
    lookup ask language f known s = ((ask s f language).1, known ++ (ask s f language).1.kept f,
      (ask s f language).2) := by
  rw [lookup, hnew]
  rcases ask s f language with ⟨_ | _ | _, s⟩ <;> simp [Answer.kept]

/-- A lookup of a function that is known. -/
theorem lookup_of_known {known : List (String × Option Pattern)} {f : String} {s : σ}
    {k : Option Pattern} (hknown : known.lookup f = some k) :
    lookup ask language f known s = (.ofKnown k, known, s) := by
  rw [lookup, hknown]
  cases k <;> rfl

/-- A record changes nothing about how a node is looked up. -/
theorem fitNode_recorded (r : Fitted (σ × List Lookup)) (n : Node) :
    fitNode ask language (unrecorded r) n = unrecorded (fitNode ask.recorded language r n) := by
  rw [fitNode, fitNode]
  cases n.functionId with
  | none => rfl
  | some f =>
    cases hknown : r.known.lookup f with
    | none =>
      simp only [unrecorded, lookup_of_new hknown, PatternSource.recorded]
    | some k =>
      simp only [unrecorded, lookup_of_known hknown]

/-- A record changes nothing about a call. -/
theorem run_recorded (ask : PatternSource σ) (gen : Generator) (s : σ) (log : List Lookup) :
    (gen.run ask.recorded (s, log)).1 = (gen.run ask s).1 ∧
      (gen.run ask.recorded (s, log)).2.1 = (gen.run ask s).2.1 := by
  have hfit : gen.fitAll ask s = unrecorded (gen.fitAll ask.recorded (s, log)) :=
    (List.foldl_hom unrecorded fitNode_recorded :
      gen.graph.nodes.foldl _ (unrecorded ⟨[], [], gen.known, s, log⟩) = _)
  simp only [run, hfit, unrecorded, and_self]

/-- What is done about one more node. -/
theorem fitNode_suits (r : Fitted (σ × List Lookup)) (n : Node)
    (h : Remembers r.known (earlier ++ r.source.2)) :
    let t := fitNode ask.recorded language r n
    ∃ x : Share, x.Suits language (earlier ++ r.source.2) n ∧
      t.fittings = r.fittings ++ [x.fitting] ∧ t.notes = r.notes ++ x.notes ∧
      t.source.2 = r.source.2 ++ x.lookups ∧ Remembers t.known (earlier ++ t.source.2) := by
  intro t
  cases hfunction : n.functionId with
  | none =>
    refine ⟨_, .absent hfunction, ?_⟩
    simp only [t, fitNode, hfunction, List.append_nil, true_and]
    exact h
  | some f =>
    have hsettled := h.settled f
    cases hknown : r.known.lookup f with
    | some k =>
      rw [hknown] at hsettled
      have hasks : Asks f (earlier ++ r.source.2) [] := by
        rw [Asks, hsettled]
        rfl
      have ht : t = ⟨r.fittings ++ [(fit language f n (.ofKnown k)).1],
          r.notes ++ (fit language f n (.ofKnown k)).2, r.known, r.source⟩ := by
        simp only [t, fitNode, hfunction, lookup_of_known hknown]
      rw [ht]
      cases k with
      | none =>
        exact ⟨_, .notFound hfunction hasks (by rwa [List.append_nil]), rfl, rfl,
          (List.append_nil _).symm, h⟩
      | some p =>
        exact ⟨_, .found hfunction hasks (by rwa [List.append_nil]), rfl, rfl,
          (List.append_nil _).symm, h⟩
    | none =>
      rw [hknown] at hsettled
      generalize hanswer : (ask r.source.1 f language).1 = a
      have hasks : Asks f (earlier ++ r.source.2) [⟨f, a⟩] := by
        rw [Asks, hsettled]
        exact ⟨a, rfl⟩
      have hsettles := @settled?_append_singleton f _ a hsettled
      have hremembers := h.ask hknown a
      rw [List.append_assoc] at hremembers
      have ht : t = ⟨r.fittings ++ [(fit language f n a).1], r.notes ++ (fit language f n a).2,
          r.known ++ a.kept f, (ask r.source.1 f language).2, r.source.2 ++ [⟨f, a⟩]⟩ := by
        simp only [t, fitNode, hfunction, lookup_of_new hknown, PatternSource.recorded, hanswer]
      rw [ht]
      cases a with
      | found p => exact ⟨_, .found hfunction hasks hsettles, rfl, rfl, rfl, hremembers⟩
      | notFound => exact ⟨_, .notFound hfunction hasks hsettles, rfl, rfl, rfl, hremembers⟩
      | failed x => exact ⟨_, .failed hfunction hsettled, rfl, rfl, rfl, hremembers⟩

/-- What is done about some nodes, one after the other. -/
theorem foldl_fitNode_shares (nodes : List Node) (r : Fitted (σ × List Lookup))
    (h : Remembers r.known (earlier ++ r.source.2)) :
    let t := nodes.foldl (fitNode ask.recorded language) r
    ∃ xs, Shares language (earlier ++ r.source.2) nodes xs ∧
      t.fittings = r.fittings ++ xs.map Share.fitting ∧
      t.notes = r.notes ++ xs.flatMap Share.notes ∧
      t.source.2 = r.source.2 ++ xs.flatMap Share.lookups ∧
      Remembers t.known (earlier ++ t.source.2) := by
  induction nodes generalizing r with
  | nil => exact ⟨[], .nil, by simpa using h⟩
  | cons n nodes ih =>
    obtain ⟨x, hx, hfittings, hnotes, hlookups, hknown⟩ :=
      @fitNode_suits σ ask language earlier r n h
    obtain ⟨xs, hxs, hfittings', hnotes', hlookups', hknown'⟩ := ih _ hknown
    rw [hlookups, ← List.append_assoc] at hxs
    refine ⟨x :: xs, .cons hx hxs, ?_, ?_, ?_, hknown'⟩
    · simp [hfittings', hfittings]
    · simp [hnotes', hnotes]
    · simp [hlookups', hlookups]

end Fit

/-- A call is accounted for by the lookups before it, if these are what the generator remembers, and
then it remembers its own lookups too. -/
theorem call_accounts (ask : PatternSource σ) {gen : Generator} (hg : gen.graph.WellFormed) (s : σ)
    {log : List Lookup} (h : Remembers gen.known log) :
    gen.Accounts log (gen.call ask s) ∧
      Remembers (gen.run ask s).2.1.known (log ++ (gen.call ask s).lookups) := by
  obtain ⟨xs, hxs, hfittings, hnotes, hlookups, hknown⟩ :=
    @foldl_fitNode_shares σ ask gen.settings.language log gen.graph.nodes ⟨[], [], gen.known, s, []⟩
      (by rwa [List.append_nil])
  obtain ⟨hrun, hgen⟩ := run_recorded ask gen s []
  rw [List.append_nil] at hxs
  rw [List.nil_append] at hfittings hnotes hlookups
  have houtcome : (gen.run ask s).1 =
      gen.write (xs.map Share.fitting) (xs.flatMap Share.notes) := by
    rw [← hrun, ← hfittings, ← hnotes]
    rfl
  refine ⟨⟨xs, hxs, hlookups, houtcome, ?_⟩, ?_⟩
  · obtain ⟨e, hperforms, hrendering⟩ := rendering_performs ask.recorded hg (s, ([] : List Lookup))
    have hcycles : lookupNotes (gen.graph.cycleReports gen.graph.schedule) = [] := by
      rw [lookupNotes, List.filter_eq_nil_iff]
      intro r hr
      obtain ⟨c, -, rfl⟩ := List.mem_map.mp hr
      simp [FlowGraph.cycleReport, Diagnostic.forNode, DiagnosticKind.isAboutLookups]
    have hstart : lookupNotes (gen.startDraft ask.recorded (s, [])).diagnostics =
        xs.flatMap Share.notes := by
      change lookupNotes ((gen.fitAll ask.recorded (s, [])).notes ++ _) = _
      rw [lookupNotes, List.filter_append]
      change lookupNotes _ ++ lookupNotes _ = _
      rw [hcycles, List.append_nil, ← hxs.notes_eq]
      exact congrArg lookupNotes hnotes
    change lookupNotes (gen.run ask s).1.diagnostics = _
    rw [← hrun, run_eq_finish, hrendering, ← hstart]
    exact hperforms.lookupNotes_eq
  · rw [← hgen]
    exact hknown

/-- All calls of a session are accounted for, each by the lookups before it, and what is remembered in
the end are the lookups of all of them. -/
theorem session_accounts (ask : PatternSource σ) (gen : Generator) (hg : gen.graph.WellFormed)
    (states : List σ) {log : List Lookup} (h : Remembers gen.known log) :
    (∃ known, Remembers known (log ++ (gen.session ask states).flatMap Call.lookups)) ∧
      ∀ before c after, gen.session ask states = before ++ c :: after →
        gen.Accounts (log ++ before.flatMap Call.lookups) c := by
  induction states generalizing gen log with
  | nil => exact ⟨⟨gen.known, by simpa [session] using h⟩, by simp [session]⟩
  | cons s states ih =>
    obtain ⟨hcall, hknown⟩ := call_accounts ask hg s h
    obtain ⟨hremembers, hrest⟩ := ih (gen.run ask s).2.1 hg hknown
    refine ⟨by simpa [session] using hremembers, fun before c after hsession => ?_⟩
    rw [session] at hsession
    cases before with
    | nil =>
      obtain ⟨rfl, -⟩ := List.cons.inj hsession
      simpa using hcall
    | cons b before =>
      obtain ⟨rfl, htail⟩ := List.cons.inj hsession
      have haccounts := hrest before c after htail
      rwa [List.append_assoc] at haccounts

/-- A call after a call without failures makes no lookup and gives the same. -/
theorem Accounts.again {gen : Generator} {log later : List Lookup} {c d : Call}
    (h : gen.Accounts log c) (hfinal : ∀ l ∈ c.lookups, l.answer.isFinal = true)
    (hlater : log ++ c.lookups <+: later) (h' : gen.Accounts later d) :
    d.lookups = [] ∧ d.outcome = c.outcome := by
  obtain ⟨xs, hxs, hlookups, houtcome, -⟩ := h
  obtain ⟨ys, hys, hlookups', houtcome', -⟩ := h'
  rw [hlookups] at hfinal hlater
  obtain rfl := hxs.again hfinal hlater hys
  constructor
  · rw [hlookups', List.flatMap_map]
    simp
  · rw [houtcome', houtcome, List.map_map, List.flatMap_map]
    rfl

/-- One generator, however often it is called and whatever its source answers, asks about each
function until it gets an answer that is no failure, and then never again. In each call a node with a
function is treated by the final answer about it, to whichever lookup it came, and if there is none by
the failure of the lookup that was made for this node. So after a call without failures, all calls
make no lookup and give the same program and the same reports, whatever has become of the source. -/
theorem lookups_settle_every_function (ask : PatternSource σ) (doc : Document) (settings : Settings)
    (conversions : Conversions) (states : List σ) :
    let gen : Generator := ⟨.ofDocument doc, settings, conversions, []⟩
    let calls := gen.session ask states
    (∀ function, ∃ (failures : List LookupFailure) (last : Option Answer),
      answersAbout function (calls.flatMap Call.lookups) = failures.map .failed ++ last.toList ∧
        ∀ a ∈ last, a.isFinal = true) ∧
    (∀ before c after, calls = before ++ c :: after →
      gen.Accounts (before.flatMap Call.lookups) c) ∧
    ∀ before c after, calls = before ++ c :: after →
      (∀ l ∈ c.lookups, l.answer.isFinal = true) →
      ∀ d ∈ after, d.lookups = [] ∧ d.outcome = c.outcome := by
  intro gen calls
  obtain ⟨⟨known, hknown⟩, haccounts⟩ :=
    session_accounts ask gen (FlowGraph.ofDocument_wellFormed doc) states .nil
  simp only [List.nil_append] at hknown haccounts
  refine ⟨fun f => ?_, haccounts, fun before c after hcalls hfinal d hd => ?_⟩
  · obtain ⟨failures, hanswers⟩ := hknown f
    refine ⟨failures, _, hanswers, ?_⟩
    simp
  · obtain ⟨between, rest, rfl⟩ := List.append_of_mem hd
    have hlater : calls = (before ++ c :: between) ++ d :: rest := by
      rw [hcalls]
      simp
    refine (haccounts before c _ hcalls).again hfinal ?_ (haccounts _ d rest hlater)
    simp

/-- Two nodes with one function. -/
def twins : Document where
  nodes :=
    [⟨"one", "one", none, some .plain, [⟨"in", "in", "int", false, none⟩], [], none, [], [],
        some "double", none⟩,
      ⟨"two", "two", none, some .plain, [⟨"in", "in", "int", false, none⟩], [], none, [], [],
        some "double", none⟩]
  edges := []

/-- The first lookup fails, the second settles the function for both nodes: from the second call on
both have its pattern, also with a library that is empty by then. -/
example :
    let double : Pattern := ⟨"\x7b0\x7d * 2", .expression, []⟩
    let library := PatternLibrary.empty.insert "double" none double
    let calls := (Generator.new (.ofDocument twins) .standard).session Outages.answer
      [(Outages.ofLibrary library).fail "double" 1, .ofLibrary .empty, .ofLibrary .empty]
    calls.map Call.lookups =
      [[⟨"double", .failed ⟨"double", "backend offline"⟩⟩, ⟨"double", .found double⟩], [], []] ∧
    calls.map (fun c => lookupNotes c.outcome.diagnostics |>.map (·.kind)) =
      [[.initializationFailure], [], []] := by
  decide +kernel

end Generator

end FlowScript
