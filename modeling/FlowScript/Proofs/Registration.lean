import FlowScript.Types.Conversion
import Mathlib.Data.List.DropRight
import Mathlib.Data.List.Induction
import Mathlib.Data.Set.Basic

/-!
# Registration of types by canonical pairs

Rules and conversions know types by the canonical forms of their names, and bringing a name into that
form twice changes nothing. So a history of registrations comes down to a set of canonical pairs that
fit with a conversion and, for each pair, the function that was given for it last.
-/

namespace FlowScript

namespace Text

/-- A character is its own small letter, or it is one of the capital letters. -/
theorem toLower_cases (c : Char) :
    c.toLower = c ∨ 65 ≤ c.toNat ∧ c.toNat ≤ 90 ∧ c.toLower.toNat = c.toNat + 32 := by
  by_cases h : c.val ≥ 'A'.val ∧ c.val ≤ 'Z'.val
  · have hrange : 65 ≤ c.val.toNat ∧ c.val.toNat ≤ 90 :=
      ⟨UInt32.le_iff_toNat_le.mp h.1, UInt32.le_iff_toNat_le.mp h.2⟩
    have hval : c.toLower.val = c.val + 32 := congrArg Char.val (dif_pos h)
    refine Or.inr ⟨hrange.1, hrange.2, ?_⟩
    change c.toLower.val.toNat = c.val.toNat + 32
    rw [hval, UInt32.toNat_add]
    have hshift : (32 : UInt32).toNat = 32 := rfl
    omega
  · exact Or.inl (dif_neg h)

theorem toLower_toLower (c : Char) : c.toLower.toLower = c.toLower := by
  rcases toLower_cases c with h | h
  · rw [h, h]
  · rcases toLower_cases c.toLower with h' | h'
    · exact h'
    · omega

/-- Letters are not blank in either case. -/
theorem isBlank_toLower (c : Char) : isBlank c.toLower = isBlank c := by
  rcases toLower_cases c with h | ⟨hge, hle, hnat⟩
  · rw [h]
  · have hletter {d : Char} (hd : 65 ≤ d.toNat ∧ d.toNat ≤ 122) : isBlank d = false := by
      simp only [isBlank, Bool.or_eq_false_iff, Bool.and_eq_false_iff, decide_eq_false_iff_not,
        beq_eq_false_iff_ne]
      omega
    rw [hletter ⟨hge, by omega⟩, hletter ⟨by omega, by omega⟩]

theorem lower_lower (s : String) : lower (lower s) = lower s := by
  simp only [lower, String.toList_ofList, List.map_map]
  exact congrArg String.ofList (List.map_congr_left fun c _ => toLower_toLower c)

/-- Trimming and small letters do not interfere. -/
theorem trim_lower (s : String) : trim (lower s) = lower (trim s) := by
  have hblank : isBlank ∘ Char.toLower = isBlank := funext isBlank_toLower
  simp only [trim, lower, dropBlankEnd, String.toList_ofList, List.dropWhile_map, ← List.map_reverse,
    hblank]

theorem trim_trim (s : String) : trim (trim s) = trim s := by
  simp only [trim, String.toList_ofList]
  generalize hcs : s.toList.dropWhile isBlank = cs
  -- what is left at the front is not blank, and the end takes nothing from the front
  have hfront : (dropBlankEnd cs).dropWhile isBlank = dropBlankEnd cs := by
    rw [List.dropWhile_eq_self_iff]
    intro hpos
    have hbegins : dropBlankEnd cs <+: cs := List.rdropWhile_prefix isBlank cs
    have hkept : cs.dropWhile isBlank = cs := by
      rw [← hcs]
      exact List.dropWhile_idempotent isBlank _
    rw [List.dropWhile_eq_self_iff] at hkept
    rw [hbegins.getElem hpos]
    exact hkept (Nat.lt_of_lt_of_le hpos hbegins.length_le)
  have hend : dropBlankEnd (dropBlankEnd cs) = dropBlankEnd cs :=
    List.rdropWhile_idempotent isBlank cs
  rw [hfront, hend]

end Text

namespace TypeName

/-- What stands for a known type is its own canonical form. -/
theorem canonical_of_mem_aliases : ∀ p ∈ aliases, canonical p.2 = p.2 := by decide

/-- A canonical form is its own canonical form. -/
theorem canonical_canonical (type : String) : canonical (canonical type) = canonical type := by
  have hname : Text.lower (Text.trim (Text.lower (Text.trim type))) = Text.lower (Text.trim type) := by
    rw [Text.trim_lower, Text.trim_trim, Text.lower_lower]
  cases halias : aliases.lookup (Text.lower (Text.trim type)) with
  | none =>
    have hself : canonical type = Text.lower (Text.trim type) := by
      rw [canonical, halias, Option.getD_none]
    rw [hself, canonical, hname, halias, Option.getD_none]
  | some name =>
    have hfolded : canonical type = name := by rw [canonical, halias, Option.getD_some]
    obtain ⟨before, after, hsplit, -⟩ := List.lookup_eq_some_iff.mp halias
    have hmem : (Text.lower (Text.trim type), name) ∈ aliases := by simp [hsplit]
    have hknown := canonical_of_mem_aliases _ hmem
    rwa [hfolded]

/-- The canonical forms of a pair of names. -/
def canonicalPair (p : String × String) : String × String :=
  (canonical p.1, canonical p.2)

end TypeName

open FlowScript.TypeName (canonical canonicalPair)

namespace TypeRules

variable {r r' : TypeRules}

/-- Allow conversions one after the other. -/
def allowAll (r : TypeRules) (ps : List (String × String)) : TypeRules :=
  ps.foldl (fun r p => r.allow p.1 p.2) r

/-- The pairs that are registered, as a set. -/
def registered (r : TypeRules) : Set (String × String) :=
  {p | p ∈ r.pairs}

/-- Allowing a conversion registers the canonical pair. -/
theorem mem_registered_allow {s t : String} {p : String × String} :
    p ∈ (r.allow s t).registered ↔ p ∈ r.registered ∨ p = canonicalPair (s, t) := by
  simp [registered, allow, canonicalPair]

/-- A history registers the canonical forms of its pairs. -/
theorem registered_allowAll (ps : List (String × String)) :
    (r.allowAll ps).registered = r.registered ∪ {p | ∃ q ∈ ps, canonicalPair q = p} := by
  induction ps using List.reverseRecOn with
  | nil => simp [allowAll]
  | append_singleton ps q ih =>
    have hstep : r.allowAll (ps ++ [q]) = (r.allowAll ps).allow q.1 q.2 := by
      rw [allowAll, List.foldl_append]
      rfl
    ext p
    rw [hstep, mem_registered_allow, ih]
    simp only [Set.mem_union, Set.mem_ofPred_eq, List.mem_append, List.mem_singleton]
    constructor
    · rintro ((hp | ⟨x, hx, rfl⟩) | rfl)
      · exact Or.inl hp
      · exact Or.inr ⟨x, Or.inl hx, rfl⟩
      · exact Or.inr ⟨q, Or.inr rfl, rfl⟩
    · rintro (hp | ⟨x, hx | rfl, rfl⟩)
      · exact Or.inl (Or.inl hp)
      · exact Or.inl (Or.inr ⟨x, hx, rfl⟩)
      · exact Or.inr rfl

/-- Two answers agree if the names have the same canonical forms and the pair is registered in both
rules or in neither. -/
theorem check_congr {a b a' b' : String} (hnames : canonicalPair (a, b) = canonicalPair (a', b'))
    (hpair : canonicalPair (a, b) ∈ r.registered ↔ canonicalPair (a, b) ∈ r'.registered) :
    r.check a b = r'.check a' b' := by
  obtain ⟨ha, hb⟩ := Prod.mk.inj hnames
  have hcontains : r.pairs.contains (canonical a, canonical b) =
      r'.pairs.contains (canonical a, canonical b) := by
    rw [List.contains_eq_mem, List.contains_eq_mem]
    exact decide_eq_decide.mpr hpair
  rw [check, check, ← ha, ← hb, hcontains]

/-- A registered pair fits at least with a conversion. -/
theorem check_of_registered {a b : String} (h : canonicalPair (a, b) ∈ r.registered) :
    r.check a b = .compatible ∨ r.check a b = .withConversion := by
  have hcontains : r.pairs.contains (canonical a, canonical b) = true := by
    simpa [registered, canonicalPair] using h
  rw [check, hcontains]
  simp only [if_true]
  split
  · exact Or.inl rfl
  · exact Or.inr rfl

/-- Whether two types fit as they are does not depend on the rules. -/
theorem check_eq_compatible_iff {a b : String} : r.check a b = .compatible ↔
    canonical a = canonical b ∨ canonical a = "any" ∨ canonical b = "any" := by
  rw [check]
  split
  · rename_i h
    exact iff_of_true rfl h
  · rename_i h
    refine iff_of_false ?_ h
    split
    · decide
    · split <;> decide

/-- Allowing a conversion changes the answer for its canonical pair only, and only an answer that
denies a connection or leaves it undecided. -/
theorem check_allow (r : TypeRules) (s t a b : String) : (r.allow s t).check a b =
    if canonicalPair (a, b) = canonicalPair (s, t) ∧
        (r.check a b = .incompatible ∨ r.check a b = .unknown) then .withConversion
    else r.check a b := by
  by_cases hpair : canonicalPair (a, b) = canonicalPair (s, t)
  · have hnow := @check_of_registered (r.allow s t) a b (mem_registered_allow.mpr (.inr hpair))
    have hfits : (r.allow s t).check a b = .compatible ↔ r.check a b = .compatible :=
      check_eq_compatible_iff.trans check_eq_compatible_iff.symm
    cases hold : r.check a b <;> simp_all
  · rw [if_neg fun h => hpair h.1]
    refine check_congr rfl (mem_registered_allow.trans ?_)
    exact or_iff_left hpair

/-- Answers come from the set of canonical pairs that is registered, however it came about. -/
structure AnswersByPairs (r : TypeRules) : Prop where
  names : ∀ a b a' b', canonicalPair (a, b) = canonicalPair (a', b') → r.check a b = r.check a' b'
  histories : ∀ (r' : TypeRules) (ps ps' : List (String × String)),
    r.registered ∪ {p | ∃ q ∈ ps, canonicalPair q = p} =
      r'.registered ∪ {p | ∃ q ∈ ps', canonicalPair q = p} →
    ∀ a b, (r.allowAll ps).check a b = (r'.allowAll ps').check a b
  allow : ∀ s t a b, (r.allow s t).check a b =
    if canonicalPair (a, b) = canonicalPair (s, t) ∧
        (r.check a b = .incompatible ∨ r.check a b = .unknown) then .withConversion
    else r.check a b

theorem answersByPairs (r : TypeRules) : r.AnswersByPairs where
  names a b a' b' h := check_congr h Iff.rfl
  histories r' ps ps' h a b := by
    rw [← registered_allowAll, ← registered_allowAll] at h
    exact check_congr rfl (by rw [h])
  allow := check_allow r

end TypeRules

namespace Conversions

variable {c c' : Conversions} {k : String × String}

/-- Register functions for pairs one after the other. -/
def registerAll (c : Conversions) (calls : List ((String × String) × String)) : Conversions :=
  calls.foldl (fun c x => c.register x.1.1 x.1.2 x.2) c

/-- The function that was given last for a canonical pair, in some calls or else before them. -/
def lastGiven? (c : Conversions) (calls : List ((String × String) × String)) (k : String × String) :
    Option String :=
  ((calls.reverse.find? fun x => canonicalPair x.1 = k).map (·.2)).or (c.functions.lookup k)

theorem registerAll_concat (c : Conversions) (calls : List ((String × String) × String))
    (x : (String × String) × String) :
    c.registerAll (calls ++ [x]) = (c.registerAll calls).register x.1.1 x.1.2 x.2 := by
  rw [registerAll, List.foldl_append]
  rfl

/-- Registering a function leaves the rules alone. -/
theorem rules_registerAll (c : Conversions) (calls : List ((String × String) × String)) :
    (c.registerAll calls).rules = c.rules := by
  induction calls using List.reverseRecOn with
  | nil => rfl
  | append_singleton calls x ih =>
    rw [registerAll_concat]
    exact ih

/-- A call replaces the function of its canonical pair and no other. -/
theorem lookup_register {s t f : String} : (c.register s t f).functions.lookup k =
    if canonicalPair (s, t) = k then some f else c.functions.lookup k := by
  rw [register, List.lookup_cons, canonicalPair]
  by_cases hk : k = (canonical s, canonical t)
  · rw [beq_iff_eq.mpr hk, if_pos hk.symm]
  · rw [beq_eq_false_iff_ne.mpr hk, if_neg (Ne.symm hk)]

/-- After a history of calls the function of a pair is the one that was given for it last. -/
theorem lookup_registerAll (c : Conversions) (calls : List ((String × String) × String))
    (k : String × String) : (c.registerAll calls).functions.lookup k = c.lastGiven? calls k := by
  induction calls using List.reverseRecOn with
  | nil => rfl
  | append_singleton calls x ih =>
    rw [registerAll_concat, lookup_register, lastGiven?, List.reverse_append, List.reverse_singleton,
      List.singleton_append, List.find?_cons]
    by_cases hk : canonicalPair x.1 = k
    · rw [if_pos hk, decide_eq_true hk]
      rfl
    · rw [if_neg hk, decide_eq_false hk, ih]
      rfl

/-- Calls for other pairs do not matter to the function of a pair. -/
theorem lastGiven?_filter (c : Conversions) (calls : List ((String × String) × String))
    (k : String × String) :
    c.lastGiven? (calls.filter fun x => canonicalPair x.1 = k) k = c.lastGiven? calls k := by
  rw [lastGiven?, lastGiven?, ← List.filter_reverse, List.find?_filter]
  simp

/-- Two conversions agree if the names have the same canonical forms and the rules and functions say
the same about the pair. -/
theorem convert_congr {a b a' b' : String} (e : String)
    (hnames : canonicalPair (a, b) = canonicalPair (a', b'))
    (hcheck : c.rules.check a b = c'.rules.check a' b')
    (hlookup : c.functions.lookup (canonicalPair (a, b)) =
      c'.functions.lookup (canonicalPair (a, b))) : c.convert e a b = c'.convert e a' b' := by
  obtain ⟨ha, hb⟩ := Prod.mk.inj hnames
  rw [canonicalPair] at hlookup
  simp only [convert, hcheck, ← ha, ← hb, hlookup]

/-- The conversion of an expression goes one of four ways. -/
theorem convert_cases (c : Conversions) (e a b : String) :
    c.rules.check a b ≠ .withConversion ∧ c.convert e a b = ⟨e, c.rules.check a b, .unchanged⟩ ∨
    c.rules.check a b = .withConversion ∧
      ((∃ f, c.functions.lookup (canonicalPair (a, b)) = some f ∧
          c.convert e a b = ⟨f ++ "(" ++ e ++ ")", .withConversion, .registered f⟩) ∨
        c.functions.lookup (canonicalPair (a, b)) = none ∧
          ((∃ wrapped, c.convert e a b = ⟨wrapped, .withConversion, .fallback⟩) ∨
            c.convert e a b = ⟨e, .withConversion, .unavailable⟩)) := by
  by_cases hcheck : c.rules.check a b = .withConversion
  · refine Or.inr ⟨hcheck, ?_⟩
    simp only [convert, hcheck, if_true, canonicalPair]
    cases c.functions.lookup (canonical a, canonical b) with
    | some f => exact Or.inl ⟨f, rfl, rfl⟩
    | none =>
      refine Or.inr ⟨rfl, ?_⟩
      cases fallback? e (canonical a) (canonical b) with
      | some wrapped => exact Or.inl ⟨wrapped, rfl⟩
      | none => exact Or.inr rfl
  · exact Or.inl ⟨hcheck, by rw [convert, if_neg hcheck]⟩

/-- A function is used exactly if a conversion is asked for and the function stands for the pair. -/
theorem strategy_eq_registered_iff {e a b f : String} : (c.convert e a b).strategy = .registered f ↔
    c.rules.check a b = .withConversion ∧ c.functions.lookup (canonicalPair (a, b)) = some f := by
  rcases convert_cases c e a b with ⟨hcheck, h⟩ | ⟨hcheck, ⟨g, hg, h⟩ | ⟨hnone, ⟨w, h⟩ | h⟩⟩
  · simp [h, hcheck]
  · simp [h, hcheck, hg]
  · simp only [h, hcheck, hnone, reduceCtorEq, and_false]
  · simp only [h, hcheck, hnone, reduceCtorEq, and_false]

/-- What a conversion gives comes from the canonical pair of its types: whether the rules ask for a
conversion of the pair, and which function was given for it last. -/
structure AnswersByPairs (c : Conversions) : Prop where
  names : ∀ e a b a' b', canonicalPair (a, b) = canonicalPair (a', b') →
    c.convert e a b = c.convert e a' b'
  histories : ∀ (r : TypeRules) (ps ps' : List (String × String)),
    c.rules.registered ∪ {p | ∃ q ∈ ps, canonicalPair q = p} =
      r.registered ∪ {p | ∃ q ∈ ps', canonicalPair q = p} →
    ∀ e a b, { c with rules := c.rules.allowAll ps }.convert e a b =
      { c with rules := r.allowAll ps' }.convert e a b
  function : ∀ calls e a b f, ((c.registerAll calls).convert e a b).strategy = .registered f ↔
    c.rules.check a b = .withConversion ∧ c.lastGiven? calls (canonicalPair (a, b)) = some f
  wraps : ∀ e a b f, (c.convert e a b).strategy = .registered f →
    (c.convert e a b).expression = f ++ "(" ++ e ++ ")"
  others : ∀ calls e a b, (c.registerAll calls).convert e a b =
    (c.registerAll (calls.filter fun x => canonicalPair x.1 = canonicalPair (a, b))).convert e a b
  untouched : ∀ e a b, (c.convert e a b).strategy = .unchanged ∨
    (c.convert e a b).strategy = .unavailable → (c.convert e a b).expression = e

theorem answersByPairs (c : Conversions) : c.AnswersByPairs where
  names e a b a' b' h := convert_congr e h (c.rules.answersByPairs.names a b a' b' h) rfl
  histories r ps ps' h e a b :=
    convert_congr e rfl (c.rules.answersByPairs.histories r ps ps' h a b) rfl
  function calls e a b f := by
    rw [strategy_eq_registered_iff, rules_registerAll, lookup_registerAll]
  wraps e a b f h := by
    rcases convert_cases c e a b with ⟨-, hc⟩ | ⟨-, ⟨g, -, hc⟩ | ⟨-, ⟨w, hc⟩ | hc⟩⟩ <;> simp_all
  others calls e a b := by
    refine convert_congr e rfl (by rw [rules_registerAll, rules_registerAll]) ?_
    rw [lookup_registerAll, lookup_registerAll, lastGiven?_filter]
  untouched e a b h := by
    rcases convert_cases c e a b with ⟨-, hc⟩ | ⟨-, ⟨g, -, hc⟩ | ⟨-, ⟨w, hc⟩ | hc⟩⟩ <;> simp_all

end Conversions

/-- Types are registered by the canonical forms of their names, which are their own canonical forms:
rules and conversions answer by the set of registered pairs and by the last function given for each. -/
theorem types_are_registered_by_canonical_pairs :
    (∀ type, canonical (canonical type) = canonical type) ∧
      (∀ r : TypeRules, r.AnswersByPairs) ∧ ∀ c : Conversions, c.AnswersByPairs :=
  ⟨TypeName.canonical_canonical, TypeRules.answersByPairs, Conversions.answersByPairs⟩

end FlowScript
