import FlowScript.Graph.Reach
import FlowScript.Proofs.Links
import Mathlib.Data.List.Perm.Subperm

/-!
# Reachability

The rounds of a search find exactly the nodes that a walk through admitted nodes can come to. A
round that finds nothing new has closed the set under steps; every other round adds a node, so
there are as many rounds as nodes at most.
-/

namespace FlowScript

open Relation (ReflTransGen)

variable {size : Nat} {step : Nat → List Nat} {admits : Nat → Bool}

/-- A walk from one of the starts to a node, through admitted nodes, both ends included. -/
def Reachable (step : Nat → List Nat) (admits : Nat → Bool) (starts : List Nat) (v : Nat) : Prop :=
  ∃ s ∈ starts, admits s = true ∧ ReflTransGen (fun a b => b ∈ step a ∧ admits b = true) s v

/-- A walk goes on to any admitted node that its last node leads to. -/
theorem Reachable.tail {starts : List Nat} {v w : Nat} (h : Reachable step admits starts v)
    (hstep : w ∈ step v) (hadmits : admits w = true) : Reachable step admits starts w := by
  obtain ⟨s, hs, hadmitted, hwalk⟩ := h
  exact ⟨s, hs, hadmitted, hwalk.tail ⟨hstep, hadmits⟩⟩

/-- The new nodes of a round are the admitted nodes of the frontier that were not seen. -/
theorem mem_fresh {frontier seen : List Nat} {v : Nat} :
    v ∈ (frontier.filter fun v => admits v && !seen.contains v).eraseDups ↔
      v ∈ frontier ∧ admits v = true ∧ v ∉ seen := by
  simp [List.mem_filter]

/-- What holds of the admitted starts and is kept by admitted steps holds of all that is found. -/
theorem reachFrom_sound {P : Nat → Prop} (rounds : Nat) (frontier seen : List Nat)
    (hkeep : ∀ v, P v → ∀ w ∈ step v, admits w = true → P w)
    (hfrontier : ∀ v ∈ frontier, admits v = true → P v) (hseen : ∀ v ∈ seen, P v) :
    ∀ v ∈ reachFrom step admits rounds frontier seen, P v := by
  induction rounds generalizing frontier seen with
  | zero => exact hseen
  | succ rounds ih =>
    rw [reachFrom]
    split_ifs
    · exact hseen
    · have hfresh : ∀ v ∈ (frontier.filter fun v => admits v && !seen.contains v).eraseDups, P v := by
        intro v hv
        obtain ⟨hmem, hadmits, -⟩ := mem_fresh.mp hv
        exact hfrontier v hmem hadmits
      apply ih
      · intro w hw hadmits
        obtain ⟨v, hv, hstep⟩ := List.mem_flatMap.mp hw
        exact hkeep v (hfresh v hv) w hstep hadmits
      · intro v hv
        rcases List.mem_append.mp hv with hv | hv
        · exact hseen v hv
        · exact hfresh v hv

/-- Nothing is forgotten, all admitted nodes of the frontier are found, and what is found is closed
under admitted steps. -/
theorem reachFrom_closed (rounds : Nat) (frontier seen : List Nat)
    (hstep : ∀ v < size, ∀ w ∈ step v, w < size) (hfrontier : ∀ v ∈ frontier, v < size)
    (hseen : ∀ v ∈ seen, v < size) (hnodup : seen.Nodup) (hrounds : size ≤ rounds + seen.length)
    (hclosed : ∀ v ∈ seen, ∀ w ∈ step v, admits w = true → w ∈ seen ∨ w ∈ frontier) :
    let found := reachFrom step admits rounds frontier seen
    (∀ v ∈ seen, v ∈ found) ∧ (∀ v ∈ frontier, admits v = true → v ∈ found) ∧
      ∀ v ∈ found, ∀ w ∈ step v, admits w = true → w ∈ found := by
  induction rounds generalizing frontier seen with
  | zero =>
    -- as many nodes have been seen as there are, so these are all
    have hall : ∀ v < size, v ∈ seen := by
      have hperm := hnodup.subperm fun v hv => List.mem_range.mpr (hseen v hv)
      have heq := hperm.perm_of_length_le (by simpa using hrounds)
      exact fun v hv => heq.mem_iff.mpr (List.mem_range.mpr hv)
    exact ⟨fun v hv => hv, fun v hv _ => hall v (hfrontier v hv),
      fun v hv w hw _ => hall w (hstep v (hseen v hv) w hw)⟩
  | succ rounds ih =>
    simp only [reachFrom]
    split_ifs with hnone
    · rw [List.isEmpty_iff, List.eq_nil_iff_forall_not_mem] at hnone
      have hold : ∀ v ∈ frontier, admits v = true → v ∈ seen := by
        intro v hv hadmits
        by_contra hnew
        exact hnone v (mem_fresh.mpr ⟨hv, hadmits, hnew⟩)
      exact ⟨fun v hv => hv, hold, fun v hv w hw hadmits =>
        (hclosed v hv w hw hadmits).elim id fun hin => hold w hin hadmits⟩
    · generalize hfresh : (frontier.filter fun v => admits v && !seen.contains v).eraseDups = fresh
        at hnone ⊢
      have hmem (v : Nat) : v ∈ fresh ↔ v ∈ frontier ∧ admits v = true ∧ v ∉ seen := by
        rw [← hfresh]
        exact mem_fresh
      have hlt : ∀ v ∈ fresh, v < size := fun v hv => hfrontier v ((hmem v).mp hv).1
      have hpos : 0 < fresh.length := by
        rw [List.length_pos_iff]
        simpa using hnone
      obtain ⟨hkept, hfound, hend⟩ := ih (fresh.flatMap step) (seen ++ fresh)
        (by
          intro w hw
          obtain ⟨v, hv, hvw⟩ := List.mem_flatMap.mp hw
          exact hstep v (hlt v hv) w hvw)
        (by
          intro v hv
          rcases List.mem_append.mp hv with hv | hv
          · exact hseen v hv
          · exact hlt v hv)
        (by
          rw [List.nodup_append]
          refine ⟨hnodup, hfresh ▸ nodup_eraseDups _, fun v hv w hw => ?_⟩
          rintro rfl
          exact ((hmem v).mp hw).2.2 hv)
        (by
          rw [List.length_append]
          omega)
        (by
          intro v hv w hw hadmits
          rcases List.mem_append.mp hv with hv | hv
          · rcases hclosed v hv w hw hadmits with hin | hin
            · exact Or.inl (List.mem_append_left _ hin)
            · by_cases hold : w ∈ seen
              · exact Or.inl (List.mem_append_left _ hold)
              · exact Or.inl (List.mem_append_right _ ((hmem w).mpr ⟨hin, hadmits, hold⟩))
          · exact Or.inr (List.mem_flatMap.mpr ⟨v, hv, hw⟩))
      refine ⟨fun v hv => hkept v (List.mem_append_left _ hv), fun v hv hadmits => ?_, hend⟩
      by_cases hold : v ∈ seen
      · exact hkept v (List.mem_append_left _ hold)
      · exact hkept v (List.mem_append_right _ ((hmem v).mpr ⟨hv, hadmits, hold⟩))

/-- The search finds exactly what can be reached. -/
theorem mem_reach {starts : List Nat} (hstep : ∀ v < size, ∀ w ∈ step v, w < size)
    (hstarts : ∀ v ∈ starts, v < size) (v : Nat) :
    v ∈ reach size step admits starts ↔ Reachable step admits starts v := by
  constructor
  · refine reachFrom_sound size starts [] ?_ ?_ (by simp) v
    · exact fun v hv w hw hadmits => hv.tail hw hadmits
    · exact fun v hv hadmits => ⟨v, hv, hadmits, .refl⟩
  · rintro ⟨s, hs, hadmits, hwalk⟩
    obtain ⟨-, hfound, hclosed⟩ := @reachFrom_closed size step admits size starts [] hstep hstarts
      (by simp) List.nodup_nil (Nat.le_add_right _ _) (by simp)
    induction hwalk with
    | refl => exact hfound s hs hadmits
    | tail _ hlast ih => exact hclosed _ ih _ hlast.1 hlast.2

end FlowScript
