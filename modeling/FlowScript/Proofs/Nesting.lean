import FlowScript.Proofs.Layout
import Mathlib.Data.List.Chain

/-!
# Well nested lines

The lines of a body, each with its level and whether an arm is opened right after it. The level
rises only from such a line to the next, and then by one, and it never falls below the level at
which the body starts. A line is followed by an arm exactly if it announces one: it is the header of
a conditional or a loop, the line between two arms, or the last line of a pattern that opens a
scope.
-/

namespace FlowScript

/-- The steps of a trace, each with the step after it. -/
def follows : List Event → List (Event × Option Event)
  | [] => []
  | x :: rest => (x, rest.head?) :: follows rest

/-- Whether a step opens an arm. -/
def opensArm : Option Event → Bool
  | some (.opened _ _) => true
  | _ => false

/-- The level of a line that is not blank, and whether it announces an arm. -/
structure Row where
  level : Nat
  header : Bool
deriving DecidableEq, Repr

/-- What a step writes, as a row. -/
def Row.of? : Event × Option Event → Option Row
  | (.line _ level _, next) => some ⟨level, opensArm next⟩
  | _ => none

/-- The lines of a trace that are not blank. -/
def rows (trace : List Event) : List Row :=
  (follows trace).filterMap Row.of?

/-- How the level may change from one line to the next. -/
def Row.Allows (a b : Row) : Prop :=
  if a.header then b.level = a.level + 1 else b.level ≤ a.level

/-- The level starts at `start` and never falls below it. It rises by one after a line that
announces an arm, which is never the last, and after no other. -/
structure WellNested (start : Nat) (rs : List Row) : Prop where
  first : ∀ r ∈ rs.head?, r.level = start
  floor : ∀ r ∈ rs, start ≤ r.level
  steps : rs.IsChain Row.Allows
  last : ∀ r ∈ rs.getLast?, r.header = false

namespace WellNested

variable {start : Nat} {rs rs' : List Row}

/-- No lines. -/
theorem nil : WellNested start [] :=
  ⟨by simp, by simp, .nil, by simp⟩

/-- A line that announces nothing. -/
theorem single : WellNested start [⟨start, false⟩] :=
  ⟨by simp, by simp, .singleton _, by simp⟩

/-- Lines after lines: the level falls back to the start. -/
theorem append (h : WellNested start rs) (h' : WellNested start rs') :
    WellNested start (rs ++ rs') where
  first r hr := by
    cases rs with
    | nil => exact h'.first r hr
    | cons a rest => exact h.first r hr
  floor r hr := (List.mem_append.mp hr).elim (h.floor r) (h'.floor r)
  steps := by
    rw [List.isChain_append]
    refine ⟨h.steps, h'.steps, fun a ha b hb => ?_⟩
    rw [Row.Allows, h.last a ha, h'.first b hb]
    exact h.floor a (List.mem_of_getLast? ha)
  last r hr := by
    rw [List.getLast?_append] at hr
    cases hlast : rs'.getLast? with
    | none => exact h.last r (by simpa [hlast] using hr)
    | some a =>
      obtain rfl : a = r := by simpa [hlast] using hr
      exact h'.last a hlast

/-- A line that announces an arm, and the lines of the arm. -/
theorem arm (h : WellNested (start + 1) rs) (hne : rs ≠ []) :
    WellNested start (⟨start, true⟩ :: rs) where
  first := by simp
  floor r hr := by
    rcases List.mem_cons.mp hr with rfl | hr
    · exact Nat.le_refl _
    · exact Nat.le_of_succ_le (h.floor r hr)
  steps := by
    rw [List.isChain_cons]
    exact ⟨fun b hb => h.first b hb, h.steps⟩
  last r hr := by
    obtain ⟨a, rest, rfl⟩ := List.exists_cons_of_ne_nil hne
    rw [List.getLast?_cons_cons] at hr
    exact h.last r hr

end WellNested

/-- The rows of two parts of a trace, if the second does not open an arm for the first. -/
theorem rows_append {steps more : List Event} (h : opensArm more.head? = false) :
    rows (steps ++ more) = rows steps ++ rows more := by
  induction steps with
  | nil => rfl
  | cons x rest ih =>
    have hnext : opensArm (rest ++ more).head? = opensArm rest.head? := by
      cases rest with
      | nil => simpa [opensArm] using h
      | cons => rfl
    have hrow : Row.of? (x, (rest ++ more).head?) = Row.of? (x, rest.head?) := by
      cases x with
      | line => simp only [Row.of?, hnext]
      | enter | blank | opened | closed => rfl
    simp only [rows, List.cons_append, follows, List.filterMap_cons, hrow] at ih ⊢
    rw [ih]
    cases Row.of? (x, rest.head?) <;> rfl

/-- A step of two parts of a trace, with the step after it. -/
theorem mem_follows_append {steps more : List Event} {y : Event × Option Event}
    (hy : y ∈ follows (steps ++ more)) :
    y ∈ follows steps ∨ y ∈ follows more ∨
      (y.1, none) ∈ follows steps ∧ y.2 = more.head? := by
  induction steps with
  | nil => exact .inr (.inl hy)
  | cons x rest ih =>
    rw [List.cons_append, follows] at hy
    rw [follows]
    rcases List.mem_cons.mp hy with rfl | hy
    · cases rest with
      | nil => exact .inr (.inr ⟨List.mem_cons_self, rfl⟩)
      | cons => exact .inl List.mem_cons_self
    · rcases ih hy with h | h | h
      · exact .inl (List.mem_cons_of_mem _ h)
      · exact .inr (.inl h)
      · exact .inr (.inr ⟨List.mem_cons_of_mem _ h.1, h.2⟩)

namespace Job

variable {job : Job} {trace steps more own : List Event} {level c : Nat} {arm : Arm}
  {header : Event}

/-- The lines of a node do not begin with the opening of an arm. -/
theorem opensArm_of_standsAt (h : ∀ x ∈ own, x.StandsAt c level) : opensArm own.head? = false := by
  cases own with
  | nil => rfl
  | cons x rest => rcases h x List.mem_cons_self with ⟨text, rfl⟩ | rfl <;> rfl

/-- The lines of a node at a level make rows of this level. -/
theorem wellNested_of_standsAt (h : ∀ x ∈ own, x.StandsAt c level) :
    WellNested level (rows own) := by
  induction own with
  | nil => exact .nil
  | cons x rest ih =>
    have hrest : ∀ y ∈ rest, y.StandsAt c level := fun y hy => h y (List.mem_cons_of_mem _ hy)
    have hsplit : rows (x :: rest) = rows [x] ++ rows rest :=
      @rows_append [x] rest (opensArm_of_standsAt hrest)
    rw [hsplit]
    rcases h x List.mem_cons_self with ⟨text, rfl⟩ | rfl
    · exact WellNested.single.append (ih hrest)
    · exact ih hrest

/-- A line that announces an arm is a line at the level. -/
theorem Announces.eq_line (h : Announces job trace level c arm own header) :
    ∃ origin text, header = .line origin level text := by
  cases h with
  | condition | loop | otherwise | scope => exact ⟨_, _, rfl⟩

/-- The lines of a node before the one that announces an arm stand at the level. -/
theorem Announces.standsAt (h : Announces job trace level c arm own header) :
    ∀ x ∈ own, x.StandsAt c level := by
  cases h with
  | condition | loop | otherwise => simp
  | scope _ _ hown => exact hown

/-- A layout does not begin with the opening of an arm. -/
theorem Laid.head (h : Laid job trace level steps) : opensArm steps.head? = false := by
  -- the lines of a node, and then what comes after them
  have hlines {v level : Nat} {own rest : List Event} (hown : ∀ x ∈ own, x.StandsAt v level)
      (hrest : opensArm rest.head? = false) : opensArm (own ++ rest).head? = false := by
    cases own with
    | nil => exact hrest
    | cons x xs => rcases hown x List.mem_cons_self with ⟨text, rfl⟩ | rfl <;> rfl
  induction h with
  | nil | enter | filler => rfl
  | lines _ hown _ _ ih => exact hlines hown ih
  | arm hannounces =>
    obtain ⟨origin, text, rfl⟩ := hannounces.eq_line
    exact hlines hannounces.standsAt rfl

/-- The lines of a layout are well nested. -/
theorem Laid.wellNested (h : Laid job trace level steps) : WellNested level (rows steps) := by
  induction h with
  | nil => exact .nil
  | enter _ ih => exact ih
  | @filler level text rest _ hrest ih =>
    have hsplit : rows (.line none level text :: rest) = [⟨level, false⟩] ++ rows rest :=
      @rows_append [.line none level text] rest hrest.head
    rw [hsplit]
    exact WellNested.single.append ih
  | lines _ hown _ hrest ih =>
    rw [rows_append hrest.head]
    exact (wellNested_of_standsAt hown).append ih
  | @arm level c arm own header body rest hannounces hbody hline hrest ihBody ihRest =>
    obtain ⟨origin, text, rfl⟩ := hannounces.eq_line
    have hinside : rows (body ++ .closed c arm :: rest) = rows body ++ rows rest :=
      rows_append rfl
    have hsplit :
        rows (.line origin level text :: .opened c arm :: (body ++ .closed c arm :: rest)) =
        (⟨level, true⟩ :: rows body) ++ rows rest := by
      rw [List.cons_append, ← hinside]
      rfl
    have hne : rows body ≠ [] := by
      obtain ⟨origin, level, text, hin⟩ := hline
      obtain ⟨before, after, rfl⟩ := List.append_of_mem hin
      intro hnone
      rw [rows_append rfl] at hnone
      exact absurd (List.append_eq_nil_iff.mp hnone).2 (List.cons_ne_nil _ _)
    rw [rows_append rfl, hsplit]
    exact (wellNested_of_standsAt hannounces.standsAt).append ((ihBody.arm hne).append ihRest)

/-- Every arm is opened right after the line that announces it, and an alternative is opened after
every line that announces one. -/
def Announced (job : Job) (trace steps : List Event) : Prop :=
  ∀ y ∈ follows steps,
    (∀ c arm, y.2 = some (.opened c arm) → ∃ level own, Announces job trace level c arm own y.1) ∧
    ((∃ level, y.1 = .line none level "else:") → ∃ c, y.2 = some (.opened c .elseArm))

/-- Two parts of a trace, of which the second does not open an arm for the first. -/
theorem Announced.append (h : Announced job trace steps) (h' : Announced job trace more)
    (hmore : opensArm more.head? = false) : Announced job trace (steps ++ more) := by
  intro y hy
  rcases mem_follows_append hy with hy | hy | ⟨hy, hnext⟩
  · exact h y hy
  · exact h' y hy
  · constructor
    · intro c arm hopened
      rw [← hnext, hopened] at hmore
      cases hmore
    · intro helse
      obtain ⟨c, hc⟩ := (h _ hy).2 helse
      cases hc

/-- One step that is no line between arms, and what does not begin with an arm. -/
theorem Announced.cons {x : Event} (h : Announced job trace steps)
    (hsteps : opensArm steps.head? = false) (hx : ∀ level, x ≠ .line none level "else:") :
    Announced job trace (x :: steps) := by
  refine @append job trace [x] steps ?_ h hsteps
  intro y hy
  obtain rfl := List.mem_singleton.mp hy
  constructor
  · intro c arm hopened
    cases hopened
  · rintro ⟨level, helse⟩
    exact absurd helse (hx level)

/-- The lines of a node announce no arm by themselves. -/
theorem announced_of_standsAt (h : ∀ x ∈ own, x.StandsAt c level) : Announced job trace own := by
  induction own with
  | nil => exact fun y hy => absurd hy List.not_mem_nil
  | cons x rest ih =>
    have hrest : ∀ y ∈ rest, y.StandsAt c level := fun y hy => h y (List.mem_cons_of_mem _ hy)
    refine (ih hrest).cons (opensArm_of_standsAt hrest) fun level helse => ?_
    rcases h x List.mem_cons_self with ⟨text, rfl⟩ | rfl <;> cases helse

/-- A line that completes a block or the program is no line between arms. -/
theorem IsFiller.ne_else {text : String} (h : IsFiller text) : text ≠ "else:" := by
  rintro rfl
  rcases h with h | ⟨values, h⟩
  · exact absurd h (by decide)
  · have hfirst := congrArg (fun s : String => s.toList.head?) h
    simp at hfirst

/-- In a layout, the arms are announced. -/
theorem Laid.announced (h : Laid job trace level steps) : Announced job trace steps := by
  induction h with
  | nil => exact fun y hy => absurd hy List.not_mem_nil
  | enter hrest ih => exact ih.cons hrest.head fun _ => Event.noConfusion
  | filler htext hrest ih =>
    refine ih.cons hrest.head fun level heq => htext.ne_else ?_
    exact (Event.line.inj heq).2.2
  | lines _ hown _ hrest ih => exact (announced_of_standsAt hown).append ih hrest.head
  | @arm level c arm own header body rest hannounces hbody _ hrest ihBody ihRest =>
    obtain ⟨origin, text, rfl⟩ := hannounces.eq_line
    have hinside : Announced job trace (body ++ .closed c arm :: rest) :=
      ihBody.append (ihRest.cons hrest.head fun _ => Event.noConfusion) rfl
    have hopened : Announced job trace (.opened c arm :: (body ++ .closed c arm :: rest)) := by
      refine hinside.cons ?_ fun _ => Event.noConfusion
      cases body with
      | nil => rfl
      | cons x xs => exact hbody.head
    refine (announced_of_standsAt hannounces.standsAt).append ?_ rfl
    intro y hy
    rcases List.mem_cons.mp hy with rfl | hy
    · constructor
      · intro c' arm' heq
        obtain ⟨rfl, rfl⟩ := Event.opened.inj (Option.some.inj heq)
        exact ⟨level, own, hannounces⟩
      · rintro ⟨level', helse⟩
        cases hannounces with
        | condition | loop | scope => cases helse
        | otherwise => exact ⟨c, rfl⟩
    · exact hopened y hy

/-- Where an arm is opened in a layout: after the lines of its node. -/
theorem Laid.exists_announces (h : Laid job trace level steps) (hin : .opened c arm ∈ steps) :
    ∃ level own header before after, Announces job trace level c arm own header ∧
      steps = before ++ (own ++ header :: .opened c arm :: after) := by
  induction h with
  | nil => exact absurd hin List.not_mem_nil
  | @enter _ v rest _ ih =>
    obtain ⟨level, own, header, before, after, hannounces, rfl⟩ := ih (by simpa using hin)
    exact ⟨level, own, header, .enter v :: before, after, hannounces, rfl⟩
  | @filler l text rest _ _ ih =>
    obtain ⟨level, own, header, before, after, hannounces, rfl⟩ := ih (by simpa using hin)
    exact ⟨level, own, header, .line none l text :: before, after, hannounces, rfl⟩
  | @lines l v rest _ hown _ _ ih =>
    have hrest : .opened c arm ∈ rest := by
      rcases List.mem_append.mp hin with hin | hin
      · rcases hown _ hin with ⟨text, h⟩ | h <;> cases h
      · exact hin
    obtain ⟨level, own, header, before, after, hannounces, rfl⟩ := ih hrest
    exact ⟨level, own, header, ownLines trace v ++ before, after, hannounces, by simp⟩
  | @arm l c' arm' own' header' body rest hannounces' _ _ _ ihBody ihRest =>
    obtain ⟨origin, text, rfl⟩ := hannounces'.eq_line
    simp only [List.mem_append, List.mem_cons, reduceCtorEq, false_or] at hin
    rcases hin with hin | heq | hin | hin
    · rcases hannounces'.standsAt _ hin with ⟨text, h⟩ | h <;> cases h
    · obtain ⟨rfl, rfl⟩ := Event.opened.inj heq
      exact ⟨l, own', _, [], _, hannounces', rfl⟩
    · obtain ⟨level, own, header, before, after, hannounces, rfl⟩ := ihBody hin
      exact ⟨level, own, header, own' ++ .line origin l text :: .opened c' arm' :: before,
        after ++ .closed c' arm' :: rest, hannounces, by simp⟩
    · obtain ⟨level, own, header, before, after, hannounces, rfl⟩ := ihRest hin
      exact ⟨level, own, header, own' ++ .line origin l text :: .opened c' arm' ::
        (body ++ .closed c' arm' :: before), after, hannounces, by simp⟩

/-- In a layout, a node that opens a scope and has lines opens an arm. -/
theorem Laid.opened_of_line (h : Laid job trace level steps) (hscope : job.opensScope c = true)
    {x : Event} (hx : x ∈ steps) (horigin : x.origin? = some c) :
    ∃ arm, .opened c arm ∈ steps := by
  induction h with
  | nil => exact absurd hx List.not_mem_nil
  | enter _ ih | filler _ _ ih =>
    rcases List.mem_cons.mp hx with rfl | hx
    · cases horigin
    · exact (ih hx).imp fun _ => List.mem_cons_of_mem _
  | lines hplain hown _ _ ih =>
    rcases List.mem_append.mp hx with hx | hx
    · rcases hown x hx with ⟨text, rfl⟩ | rfl
      all_goals
        obtain rfl := Option.some.inj horigin
        rw [hplain] at hscope
        cases hscope
    · exact (ih hx).imp fun _ => List.mem_append_right _
  | @arm l c' arm' own header body rest hannounces _ _ _ ihBody ihRest =>
    have hin (arm : Arm) (h : .opened c arm ∈ body ∨ .opened c arm ∈ rest) : .opened c arm ∈
        own ++ header :: .opened c' arm' :: (body ++ .closed c' arm' :: rest) := by
      rcases h with h | h <;> simp [h]
    -- the lines before the arm belong to its node
    have hbefore (hy : x ∈ own ∨ x = header) : c' = c := by
      rcases hy with hy | rfl
      · rcases hannounces.standsAt x hy with ⟨text, rfl⟩ | rfl <;> exact Option.some.inj horigin
      · cases hannounces with
        | condition | loop | scope => exact Option.some.inj horigin
        | otherwise => cases horigin
    simp only [List.mem_append, List.mem_cons] at hx
    rcases hx with hx | hx | rfl | hx | rfl | hx
    · obtain rfl := hbefore (.inl hx)
      exact ⟨arm', by simp⟩
    · obtain rfl := hbefore (.inr hx)
      exact ⟨arm', by simp⟩
    · cases horigin
    · exact (ihBody hx).imp fun arm h => hin arm (.inl h)
    · cases horigin
    · exact (ihRest hx).imp fun arm h => hin arm (.inr h)

/-- The last line of a node that opens an arm stands right before the opening of an arm. -/
theorem Laid.last_line (h : Laid job trace level trace) (hin : .opened c arm ∈ trace) :
    ∃ before x arm after, trace = before ++ x :: .opened c arm :: after ∧
      ownLines trace c = ownLines before c ++ [x] := by
  -- an alternative is not opened by the last line of its node, but there is an arm before it
  have hfirst : ∃ arm, arm ≠ .elseArm ∧ .opened c arm ∈ trace := by
    by_cases helse : arm = .elseArm
    · subst helse
      obtain ⟨_, _, _, _, _, hannounces, -⟩ := h.exists_announces hin
      cases hannounces with
      | otherwise hthen => exact ⟨.thenArm, by decide, hthen⟩
    · exact ⟨arm, helse, hin⟩
  obtain ⟨arm, hne, hin⟩ := hfirst
  obtain ⟨level, own, header, before, after, hannounces, htrace⟩ := h.exists_announces hin
  have hown : ownLines trace c = own ++ [header] ∧ header.origin? = some c := by
    cases hannounces with
    | condition hlines | loop hlines => exact ⟨hlines, rfl⟩
    | scope _ hlines => exact ⟨hlines, rfl⟩
    | otherwise => exact absurd rfl hne
  have horigin : ∀ x ∈ own ++ [header], x.origin? = some c := by
    intro x hx
    rcases List.mem_append.mp hx with hx | hx
    · rcases hannounces.standsAt x hx with ⟨text, rfl⟩ | rfl <;> rfl
    · exact List.mem_singleton.mp hx ▸ hown.2
  have hparts : ownLines trace c =
      ownLines before c ++ (own ++ [header]) ++ ownLines (.opened c arm :: after) c := by
    have hsplit : trace = before ++ (own ++ [header]) ++ .opened c arm :: after := by
      simpa using htrace
    have hcut (a b : List Event) : ownLines (a ++ b) c = ownLines a c ++ ownLines b c :=
      List.filter_append _ _
    rw [hsplit, hcut, ownLines_append horigin]
  have hnone : ownLines before c = [] := by
    have hlength := congrArg List.length (hown.1.symm.trans hparts)
    simp only [List.length_append] at hlength
    exact List.length_eq_zero_iff.mp (by omega)
  refine ⟨before ++ own, header, arm, after, by simpa using htrace, ?_⟩
  rw [hown.1, ownLines_append fun x hx => horigin x (List.mem_append_left _ hx), hnone]
  rfl

end Job

namespace Generator

variable {σ : Type}

/-- The lines of a body are well nested, whatever level it starts at. An arm is opened right after a
line that announces it: the header of a conditional or of a loop, the line between two arms, or the
last line of a pattern that opens a scope, which ends in a colon. Every line between two arms is
followed by an arm, and so is the last line of a node that opens one; a node that opens none has a
pattern that opens no scope, and the lines of its pattern or kind. However it is filled, a pattern
that opens a scope writes a last line that ends in a colon. -/
theorem lines_are_well_nested (ask : PatternSource σ) (s : σ) (doc : Document)
    (settings : Settings) (conversions : Conversions) (known : List (String × Option Pattern))
    (start : Nat) :
    let gen : Generator := ⟨.ofDocument doc, settings, conversions, known⟩
    let job := gen.fittedJob ask s
    (∃ d, job.body { gen.startDraft ask s with level := start } = .ok d ∧ d.level = start ∧
      WellNested start (rows d.trace) ∧ job.Announced d.trace d.trace ∧
      ∀ c < gen.graph.size,
        (d.Opened c → ∃ before x arm after, d.trace = before ++ x :: .opened c arm :: after ∧
          ownLines d.trace c = ownLines before c ++ [x]) ∧
        (¬ d.Opened c → job.opensScope c = false ∧
          ∃ w, (job.writeGuarded w c).trace = w.trace ++ ownLines d.trace c)) ∧
    ∀ p : Pattern, p.opensScope = true → ∀ (args : List String) (w : Draft) (v : Nat) (n : Node),
      ∃ own text, (job.writeFilled w v n p.kind (Template.fill p.text args).text).trace =
          w.trace ++ (own ++ [.line (some v) w.level text]) ∧
        text.toList.getLast? = some ':' := by
  intro gen job
  have hg : gen.graph.WellFormed := FlowGraph.ofDocument_wellFormed doc
  have hjob : job.WellFormed := fittedJob_wellFormed ask hg s
  have hsize := lt_size_of_opensScope ask gen s
  let first : Draft := { gen.startDraft ask s with level := start }
  obtain ⟨e, hperforms, hbody⟩ := Job.body_performs hjob first (List.nil_subset _)
    (by simp [first, startDraft, Draft.start])
  have hlaid : job.Laid (job.closing e).trace start (job.closing e).trace :=
    hperforms.laid hsize rfl
  have hopened : e.Opens (job.closing e).Opened := fun v hv =>
    hv.imp fun _ hin => (Job.closing_extends job e).trace.subset hin
  refine ⟨⟨job.closing e, hbody, ?_, hlaid.wellNested, hlaid.announced, fun c hc => ⟨?_, ?_⟩⟩, ?_⟩
  · exact (Job.closing_extends job e).level.trans hperforms.extends.level
  · rintro ⟨arm, hin⟩
    exact hlaid.last_line hin
  · intro hnot
    obtain ⟨w, -, hturn⟩ := hperforms.turn hjob hopened rfl rfl rfl hc
    rw [← Job.ownLines_closing job] at hturn
    generalize hlines : ownLines (job.closing e).trace c = lines at hturn
    cases hturn with
    | header hopen => exact absurd hopen hnot
    | lines htrace =>
      refine ⟨?_, w, htrace⟩
      rw [← Bool.not_eq_true]
      intro hscope
      obtain ⟨own, text, hwritten, -⟩ := Job.writeGuarded_of_opensScope hc hscope w
      have hown := List.append_cancel_left (hwritten.symm.trans htrace)
      have hline : .line (some c) w.level text ∈ ownLines (job.closing e).trace c := by
        rw [hlines, ← hown]
        simp
      exact hnot (hlaid.opened_of_line hscope (List.mem_of_mem_filter hline) rfl)
  · intro p hp args w v n
    obtain ⟨own, text, hwritten, -, hcolon⟩ := @Job.writeFilled_of_opensScope job v n p hp args w
    exact ⟨own, text, hwritten, hcolon⟩

end Generator

end FlowScript
