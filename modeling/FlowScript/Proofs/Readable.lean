import FlowScript.Proofs.Written

/-!
# Values that texts have

The values that are read from texts have integers that fit, objects with ascending keys, and no more
nesting than texts may have. Written and read again such a value is the same, if and only if each of
its doubles is.
-/

namespace FlowScript.Json

/-- Members with ascending keys. -/
def Ascending (members : List (String × Value)) : Prop :=
  members.Pairwise fun m m' => m.1 < m'.1

/-- The members after an insertion are those before it and the new one. -/
theorem mem_insertMember {key : String} {value : Value} {members : List (String × Value)}
    {m : String × Value} (hm : m ∈ insertMember key value members) : m = (key, value) ∨ m ∈ members := by
  induction members with
  | nil => exact .inl (List.mem_singleton.mp hm)
  | cons x rest ih =>
    rw [insertMember] at hm
    split at hm
    · exact (List.mem_cons.mp hm).imp_right (List.mem_cons_of_mem _)
    · split at hm
      · exact List.mem_cons.mp hm
      · rcases List.mem_cons.mp hm with rfl | hm
        · exact .inr List.mem_cons_self
        · exact (ih hm).imp_right (List.mem_cons_of_mem _)

/-- An insertion keeps keys ascending. -/
theorem Ascending.insertMember {members : List (String × Value)} (h : Ascending members)
    (key : String) (value : Value) : Ascending (Json.insertMember key value members) := by
  induction members with
  | nil => exact List.pairwise_singleton _ _
  | cons x rest ih =>
    obtain ⟨hfirst, hrest⟩ := List.pairwise_cons.mp h
    rw [Json.insertMember]
    split
    · rename_i hsame
      exact List.pairwise_cons.mpr ⟨fun m hm => hsame ▸ hfirst m hm, hrest⟩
    · rename_i hother
      split
      · rename_i hbefore
        refine List.pairwise_cons.mpr ⟨fun m hm => ?_, h⟩
        rcases List.mem_cons.mp hm with rfl | hm
        · exact hbefore
        · exact String.lt_trans hbefore (hfirst m hm)
      · rename_i hafter
        have hkey : x.1 < key :=
          Decidable.byContradiction fun hnot =>
            hother (String.le_antisymm (String.not_lt.mp hnot) (String.not_lt.mp hafter))
        refine List.pairwise_cons.mpr ⟨fun m hm => ?_, ih hrest⟩
        rcases mem_insertMember hm with rfl | hm
        · exact hkey
        · exact hfirst m hm

/-- Sorted members have ascending keys. -/
theorem ascending_sortMembers (members : List (String × Value)) : Ascending (sortMembers members) :=
  List.foldlRecOn members _ (motive := Ascending) List.Pairwise.nil
    fun _ hsorted m _ => hsorted.insertMember m.1 m.2

/-- Sorted members are members. -/
theorem mem_of_mem_sortMembers {members : List (String × Value)} {m : String × Value}
    (hm : m ∈ sortMembers members) : m ∈ members := by
  refine List.foldlRecOn members (fun sorted m => insertMember m.1 m.2 sorted)
    (motive := fun sorted => ∀ m ∈ sorted, m ∈ members) (by simp) (fun sorted hsorted x hx m hm => ?_)
    m hm
  rcases mem_insertMember hm with rfl | hm
  · exact hx
  · exact hsorted m hm

/-- A member whose key is above all others comes last. -/
theorem insertMember_of_lt {members : List (String × Value)} {key : String} (value : Value)
    (h : ∀ m ∈ members, m.1 < key) : insertMember key value members = members ++ [(key, value)] := by
  induction members with
  | nil => rfl
  | cons x rest ih =>
    have hx := h x List.mem_cons_self
    have hne : key ≠ x.1 := fun heq => String.lt_irrefl key (heq ▸ hx)
    rw [insertMember, if_neg hne, if_neg (String.lt_asymm hx),
      ih fun m hm => h m (List.mem_cons_of_mem _ hm), List.cons_append]

/-- Members with ascending keys are sorted. -/
theorem Ascending.sortMembers_eq {members : List (String × Value)} (h : Ascending members) :
    sortMembers members = members := by
  have hfold (front rest : List (String × Value)) (hall : Ascending (front ++ rest)) :
      rest.foldl (fun sorted m => Json.insertMember m.1 m.2 sorted) front = front ++ rest := by
    induction rest generalizing front with
    | nil => rw [List.foldl_nil, List.append_nil]
    | cons m rest ih =>
      have hlast : ∀ x ∈ front, x.1 < m.1 :=
        fun x hx => (List.pairwise_append.mp hall).2.2 x hx m List.mem_cons_self
      rw [List.foldl_cons, insertMember_of_lt m.2 hlast, ih (front ++ [m]) (by simpa using hall),
        List.append_assoc]
      rfl
  exact hfold [] members h

/-- A value that a text nested at most `depth` deep can have. -/
inductive Value.Readable : Nat → Value → Prop where
  | null {depth} : Readable depth .null
  | bool {depth b} : Readable depth (.bool b)
  | number {depth n} : n.Fits → Readable depth (.number n)
  | string {depth s} : Readable depth (.string s)
  | array {depth items} : (∀ v ∈ items, Readable depth v) → Readable (depth + 1) (.array items)
  | object {depth members} : Ascending members → (∀ m ∈ members, Readable depth m.2) →
      Readable (depth + 1) (.object members)

/-- A form with integers that fit. -/
inductive Form.Fits : Form → Prop where
  | null : Fits .null
  | bool {b} : Fits (.bool b)
  | number {n : Option Number} : (∀ m ∈ n, m.Fits) → Fits (.number n)
  | string {s} : Fits (.string s)
  | array {items} : (∀ f ∈ items, Fits f) → Fits (.array items)
  | object {members} : (∀ m ∈ members, Fits m.2) → Fits (.object members)

section Scans

variable {α : Type} {part : List Char → Option (α × List Char)} {close : Char} {P : α → Prop}

/-- What all parts have, the parts of a list with commas have. -/
theorem scanSeparated_forall (hpart : ∀ cs a rest, part cs = some (a, rest) → P a) {bound : Nat}
    {cs rest : List Char} {as : List α} (h : scanSeparated part close bound cs = some (as, rest)) :
    ∀ a ∈ as, P a := by
  induction bound generalizing cs as rest with
  | zero => cases h
  | succ bound ih =>
    rw [scanSeparated] at h
    obtain ⟨⟨a, after⟩, hfirst, h⟩ := Option.bind_eq_some_iff.mp h
    have ha := hpart cs a after hfirst
    dsimp only at h
    split at h
    · split at h
      · obtain ⟨rfl, -⟩ := Prod.mk.inj (Option.some.inj h)
        exact fun x hx => List.mem_singleton.mp hx ▸ ha
      · split at h
        · obtain ⟨⟨more, after⟩, hmore, h⟩ := Option.bind_eq_some_iff.mp h
          obtain ⟨rfl, -⟩ := Prod.mk.inj (Option.some.inj h)
          intro x hx
          rcases List.mem_cons.mp hx with rfl | hx
          · exact ha
          · exact ih hmore x hx
        · cases h
    · cases h

/-- What all parts have, the parts of a list have. -/
theorem scanList_forall (hpart : ∀ cs a rest, part cs = some (a, rest) → P a) {cs rest : List Char}
    {as : List α} (h : scanList part close cs = some (as, rest)) : ∀ a ∈ as, P a := by
  rw [scanList] at h
  split at h
  · cases h
  · split at h
    · obtain ⟨rfl, -⟩ := Prod.mk.inj (Option.some.inj h)
      simp
    · exact scanSeparated_forall hpart h

end Scans

/-- A number that is read fits. -/
theorem scanNumber_fits {negative : Bool} {cs rest : List Char} {f : Form}
    (h : scanNumber negative cs = some (f, rest)) : f.Fits := by
  rw [scanNumber] at h
  obtain ⟨⟨whole, cs₁⟩, -, h⟩ := Option.bind_eq_some_iff.mp h
  obtain ⟨⟨fraction, cs₂⟩, -, h⟩ := Option.bind_eq_some_iff.mp h
  obtain ⟨⟨exponent, cs₃⟩, -, h⟩ := Option.bind_eq_some_iff.mp h
  obtain ⟨rfl, -⟩ := Prod.mk.inj (Option.some.inj h)
  exact .number fun m hm => Literal.value_fits hm

/-- A member that is read fits, if its form does. -/
theorem scanMember_fits {form : List Char → Option (Form × List Char)}
    (hform : ∀ cs f rest, form cs = some (f, rest) → f.Fits) {cs rest : List Char}
    {m : Option String × Form} (h : scanMember form cs = some (m, rest)) : m.2.Fits := by
  rw [scanMember] at h
  split at h
  · obtain ⟨⟨key, after⟩, -, h⟩ := Option.bind_eq_some_iff.mp h
    dsimp only at h
    split at h
    · obtain ⟨⟨f, after⟩, hf, h⟩ := Option.bind_eq_some_iff.mp h
      obtain ⟨rfl, -⟩ := Prod.mk.inj (Option.some.inj h)
      exact hform _ f after hf
    · cases h
  · cases h

/-- A form that is read fits. -/
theorem scanForm_fits {fuel : Nat} {cs rest : List Char} {f : Form}
    (h : scanForm fuel cs = some (f, rest)) : f.Fits := by
  induction fuel generalizing cs rest f with
  | zero => cases h
  | succ fuel ih =>
    rw [scanForm] at h
    split at h
    · obtain ⟨rfl, -⟩ := Prod.mk.inj (Option.some.inj h)
      exact .null
    · obtain ⟨rfl, -⟩ := Prod.mk.inj (Option.some.inj h)
      exact .bool
    · obtain ⟨rfl, -⟩ := Prod.mk.inj (Option.some.inj h)
      exact .bool
    · obtain ⟨x, -, h⟩ := Option.map_eq_some_iff.mp h
      obtain ⟨rfl, -⟩ := Prod.mk.inj h
      exact .string
    · obtain ⟨x, hlist, h⟩ := Option.map_eq_some_iff.mp h
      obtain ⟨rfl, -⟩ := Prod.mk.inj h
      exact .array (scanList_forall (fun _ _ _ hpart => ih hpart) hlist)
    · obtain ⟨x, hlist, h⟩ := Option.map_eq_some_iff.mp h
      obtain ⟨rfl, -⟩ := Prod.mk.inj h
      exact .object (scanList_forall (P := fun m => m.2.Fits)
        (fun _ _ _ hpart => scanMember_fits (fun _ _ _ hform => ih hform) hpart) hlist)
    · exact scanNumber_fits h
    · exact scanNumber_fits h

/-- The form of a text fits. -/
theorem Form.parse?_fits {text : String} {f : Form} (h : Form.parse? text = some f) : f.Fits := by
  rw [Form.parse?] at h
  split at h
  · rename_i g rest hscan
    split at h
    · obtain rfl := Option.some.inj h
      exact scanForm_fits hscan
    · cases h
  · cases h

/-- What is read from the parts of a list is read from some of them. -/
theorem exists_of_mem_mapM {α β : Type} {read : α → Option β} {xs : List α} {ys : List β}
    (h : xs.mapM read = some ys) : ∀ y ∈ ys, ∃ x ∈ xs, read x = some y := by
  induction xs generalizing ys with
  | nil =>
    obtain rfl : [] = ys := Option.some.inj h
    simp
  | cons x xs ih =>
    rw [List.mapM_cons] at h
    obtain ⟨y', hfirst, h⟩ := Option.bind_eq_some_iff.mp h
    obtain ⟨ys', hrest, h⟩ := Option.bind_eq_some_iff.mp h
    obtain rfl : y' :: ys' = ys := Option.some.inj h
    intro y hy
    rcases List.mem_cons.mp hy with rfl | hy
    · exact ⟨x, List.mem_cons_self, hfirst⟩
    · obtain ⟨x', hx', hread⟩ := ih hrest y hy
      exact ⟨x', List.mem_cons_of_mem _ hx', hread⟩

/-- Parts that are written and read are the same if and only if each of them is. -/
theorem mapM_written {α β : Type} {read : β → Option α} {write : α → β} {xs : List α} :
    (xs.map write).mapM read = some xs ↔ ∀ x ∈ xs, read (write x) = some x := by
  induction xs with
  | nil => simp
  | cons x xs ih =>
    rw [List.forall_mem_cons, ← ih]
    simp [Option.bind_eq_some_iff]

/-- The value of an object member. -/
def memberValue? (depth : Nat) (m : Option String × Form) : Option (String × Value) :=
  m.1.bind fun k => (m.2.value? depth).map fun v => (k, v)

theorem itemValues?_eq (depth : Nat) (items : List Form) :
    itemValues? depth items = items.mapM (Form.value? depth) := by
  induction items with
  | nil => rfl
  | cons f rest ih =>
    rw [itemValues?, ih, List.mapM_cons]
    rfl

theorem memberValues?_eq (depth : Nat) (members : List (Option String × Form)) :
    memberValues? depth members = members.mapM (memberValue? depth) := by
  induction members with
  | nil => rfl
  | cons m rest ih =>
    obtain ⟨k, f⟩ := m
    rw [memberValues?, ih, List.mapM_cons, memberValue?]
    cases k with
    | none => rfl
    | some k => cases f.value? depth <;> rfl

/-- The value of a form that fits is one that texts have. -/
theorem Form.Fits.readable {f : Form} (hf : f.Fits) {depth : Nat} {v : Value}
    (h : f.value? depth = some v) : v.Readable depth := by
  induction hf generalizing depth v with
  | null =>
    obtain rfl := Option.some.inj h
    exact .null
  | bool =>
    obtain rfl := Option.some.inj h
    exact .bool
  | number hn =>
    obtain ⟨m, hm, rfl⟩ := Option.map_eq_some_iff.mp h
    exact .number (hn m hm)
  | string =>
    obtain ⟨s, -, rfl⟩ := Option.map_eq_some_iff.mp h
    exact .string
  | array _ ih =>
    rw [Form.value?] at h
    split at h
    · cases h
    · obtain ⟨k, rfl⟩ : ∃ k, depth = k + 1 := ⟨depth - 1, by omega⟩
      obtain ⟨vs, hvs, rfl⟩ := Option.map_eq_some_iff.mp h
      refine .array fun v hv => ?_
      rw [itemValues?_eq] at hvs
      obtain ⟨f, hf, hvalue⟩ := exists_of_mem_mapM hvs v hv
      exact ih f hf hvalue
  | object _ ih =>
    rw [Form.value?] at h
    split at h
    · cases h
    · obtain ⟨k, rfl⟩ : ∃ k, depth = k + 1 := ⟨depth - 1, by omega⟩
      obtain ⟨vs, hvs, rfl⟩ := Option.map_eq_some_iff.mp h
      refine .object (ascending_sortMembers vs) fun m hm => ?_
      rw [memberValues?_eq] at hvs
      obtain ⟨x, hx, hmember⟩ := exists_of_mem_mapM hvs m (mem_of_mem_sortMembers hm)
      obtain ⟨k, -, hvalue⟩ := Option.bind_eq_some_iff.mp hmember
      obtain ⟨v, hv, rfl⟩ := Option.map_eq_some_iff.mp hvalue
      exact ih x hx hv

mutual

/-- The doubles in a value. -/
def Value.doubles : Value → List UInt64
  | .number (.double bits) => [bits]
  | .array items => itemDoubles items
  | .object members => memberDoubles members
  | _ => []

/-- The doubles in array items. -/
def itemDoubles : List Value → List UInt64
  | [] => []
  | v :: rest => v.doubles ++ itemDoubles rest

/-- The doubles in object members. -/
def memberDoubles : List (String × Value) → List UInt64
  | [] => []
  | (_, v) :: rest => v.doubles ++ memberDoubles rest

end

theorem itemDoubles_eq (items : List Value) : itemDoubles items = items.flatMap Value.doubles := by
  induction items with
  | nil => rfl
  | cons v rest ih => rw [itemDoubles, ih, List.flatMap_cons]

theorem memberDoubles_eq (members : List (String × Value)) :
    memberDoubles members = members.flatMap fun m => m.2.doubles := by
  induction members with
  | nil => rfl
  | cons m rest ih => rw [memberDoubles, ih, List.flatMap_cons]

/-- A double is printed with digits that are read as this double. -/
def Faithful (bits : UInt64) : Prop :=
  Value.parse? (Number.double bits).text = some (.number (.double bits))

/-- Items are read back if and only if each of them is. -/
theorem itemValues?_forms {depth : Nat} {items : List Value} :
    itemValues? depth (formItems items) = some items ↔
      ∀ v ∈ items, v.form.value? depth = some v := by
  rw [itemValues?_eq, formItems_eq, mapM_written]

/-- Members are read back if and only if the value of each of them is. -/
theorem memberValues?_forms {depth : Nat} {members : List (String × Value)} :
    memberValues? depth (formMembers members) = some members ↔
      ∀ m ∈ members, m.2.form.value? depth = some m.2 := by
  rw [memberValues?_eq, formMembers_eq, mapM_written]
  simp [memberValue?, Prod.ext_iff]

/-- Members are read with the keys they were written with. -/
theorem memberValues?_keys {depth : Nat} {members vs : List (String × Value)}
    (h : memberValues? depth (formMembers members) = some vs) :
    vs.map Prod.fst = members.map Prod.fst := by
  induction members generalizing vs with
  | nil =>
    obtain rfl := Option.some.inj h
    rfl
  | cons m rest ih =>
    rw [formMembers, memberValues?] at h
    obtain ⟨k, hk, h⟩ := Option.bind_eq_some_iff.mp h
    obtain ⟨w, -, h⟩ := Option.bind_eq_some_iff.mp h
    obtain ⟨ws, hws, h⟩ := Option.bind_eq_some_iff.mp h
    obtain rfl := Option.some.inj hk
    obtain rfl := Option.some.inj h
    rw [List.map_cons, List.map_cons, ih hws]

/-- Members that are read with ascending keys are sorted already, whatever their values are. -/
theorem Ascending.read_sorted {depth : Nat} {members vs : List (String × Value)}
    (hmembers : Ascending members) (h : memberValues? depth (formMembers members) = some vs) :
    sortMembers vs = vs := by
  have hkeys : (vs.map Prod.fst).Pairwise (· < ·) := by
    rw [memberValues?_keys h]
    exact List.pairwise_map.mpr hmembers
  exact Ascending.sortMembers_eq (List.pairwise_map.mp hkeys)

/-- A value that texts have is read back as it was written if and only if each of its doubles is. -/
theorem Value.Readable.value?_form {depth : Nat} {v : Value} (h : v.Readable depth) :
    v.form.value? depth = some v ↔ ∀ b ∈ v.doubles, Faithful b := by
  induction h with
  | null | bool | string => simp [Value.form, Form.value?, Value.doubles]
  | @number depth n hn =>
    cases n with
    | integer i => simp [Value.form, Form.value?, Value.doubles, Number.reread_integer hn]
    | double bits =>
      rw [Value.form, Form.value?, Value.doubles, List.forall_mem_singleton, Faithful,
        ← Number.reread_eq_some_iff]
      simp
  | @array depth items _ ih =>
    have hitems : (Value.array items).form.value? (depth + 1) = some (.array items) ↔
        itemValues? depth (formItems items) = some items := by
      simp [Value.form, Form.value?]
    rw [hitems, itemValues?_forms, Value.doubles, itemDoubles_eq]
    simp only [List.mem_flatMap, forall_exists_index, and_imp]
    exact ⟨fun hall b v hv => (ih v hv).mp (hall v hv) b,
      fun hall v hv => (ih v hv).mpr fun b => hall b v hv⟩
  | @object depth members hascending _ ih =>
    have hmembers : (Value.object members).form.value? (depth + 1) = some (.object members) ↔
        memberValues? depth (formMembers members) = some members := by
      rw [Value.form, Form.value?, if_neg (Nat.succ_ne_zero depth), Nat.add_sub_cancel]
      constructor
      · intro hread
        obtain ⟨vs, hvs, heq⟩ := Option.map_eq_some_iff.mp hread
        rw [hvs, ← Value.object.inj heq, hascending.read_sorted hvs]
      · intro hread
        rw [hread, Option.map_some, hascending.sortMembers_eq]
    rw [hmembers, memberValues?_forms, Value.doubles, memberDoubles_eq]
    simp only [List.mem_flatMap, forall_exists_index, and_imp]
    exact ⟨fun hall b m hm => (ih m hm).mp (hall m hm) b,
      fun hall m hm => (ih m hm).mpr fun b => hall b m hm⟩

-- a double whose seventeen digits are read as its neighbour
example : Number.text (.double 4600538784969124670) = "0.38120423768821243" ∧
    Number.reread (.double 4600538784969124670) ≠ some (.double 4600538784969124670) := by
  decide +kernel

end FlowScript.Json
