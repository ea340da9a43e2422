import Marshal.Proofs.Json.Levels
import Marshal.Proofs.Json.Walk
import Marshal.Proofs.Wire.Order

/-!
# The order of members

Trees that differ only in the order of the members of objects, at any depth, are `Shuffled`. If no
object repeats a key they are read as the same value, or neither is read (`value_of_shuffled`).
-/

namespace Marshal.Json

open Decode Outcome

/-- **Trees that differ only in the order of members** of objects, at any depth. -/
inductive Shuffled : Json → Json → Prop where
  | refl (j : Json) : Shuffled j j
  | trans {i j k : Json} : Shuffled i j → Shuffled j k → Shuffled i k
  | members {ms ns : List (String × Json)} : ms.Perm ns → Shuffled (.object ms) (.object ns)
  | member {key : String} {j k : Json} (before after : List (String × Json)) :
    Shuffled j k →
    Shuffled (.object (before ++ (key, j) :: after)) (.object (before ++ (key, k) :: after))
  | item {j k : Json} (before after : List Json) :
    Shuffled j k → Shuffled (.array (before ++ j :: after)) (.array (before ++ k :: after))

variable {c : Catalogue} {f : Format} {s : PlanSet} {d room : Nat} {j k : Json}
  {ms ns : List (String × Json)} {is js : List Json}

/-- What is a text stays the same text. -/
theorem Shuffled.eq_text_iff (h : Shuffled j k) (t : String) : j = .text t ↔ k = .text t := by
  induction h with
  | refl => exact Iff.rfl
  | trans _ _ ih₁ ih₂ => exact ih₁.trans ih₂
  | _ => simp

theorem Bounded.nodup_keys (h : Bounded d (.object ms)) : (Table.keys ms).Nodup := by
  cases h with
  | object hkeys => exact hkeys

theorem Bounded.of_member {key : String} (h : Bounded d (.object ms)) (hm : (key, j) ∈ ms) :
    ∃ d', Bounded d' j := by
  cases h with
  | object _ hmem => exact ⟨_, hmem key j hm⟩

theorem Bounded.of_item (h : Bounded d (.array is)) (hm : j ∈ is) : ∃ d', Bounded d' j := by
  cases h with
  | array hmem => exact ⟨_, hmem j hm⟩

/-- A tree in another order repeats no key either. -/
theorem Bounded.of_shuffled (h : Shuffled j k) (hj : Bounded d j) : Bounded d k := by
  induction h generalizing d with
  | refl => exact hj
  | trans _ _ ih₁ ih₂ => exact ih₂ (ih₁ hj)
  | @members ms ns hperm =>
    cases hj with
    | object hkeys hmem =>
      exact .object ((hperm.map Prod.fst).nodup_iff.1 hkeys)
        fun key j hj => hmem key j (hperm.mem_iff.2 hj)
  | @member key j k before after _ ih =>
    cases hj with
    | object hkeys hmem =>
      have hmem : ∀ m ∈ before ++ (key, j) :: after, Bounded _ m.2 := fun m => hmem m.1 m.2
      rw [List.forall_mem_append, List.forall_mem_cons] at hmem
      have hmem' : ∀ m ∈ before ++ (key, k) :: after, Bounded _ m.2 :=
        List.forall_mem_append.2 ⟨hmem.1, List.forall_mem_cons.2 ⟨ih hmem.2.1, hmem.2.2⟩⟩
      exact .object (by simpa [Table.keys] using hkeys) fun key' j' hj' => hmem' (key', j') hj'
  | @item j k before after _ ih =>
    cases hj with
    | array hmem =>
      rw [List.forall_mem_append, List.forall_mem_cons] at hmem
      exact .array (List.forall_mem_append.2
        ⟨hmem.1, List.forall_mem_cons.2 ⟨ih hmem.2.1, hmem.2.2⟩⟩)

/-! ## The text of a member -/

/-- A text is found among the members of its key alone. -/
theorem firstText?_filter (key : String) (ms : List (String × Json)) :
    Reader.firstText? key (ms.filter fun m => m.1 = key) = Reader.firstText? key ms := by
  induction ms with
  | nil => rfl
  | cons m ms ih =>
    obtain ⟨k, j⟩ := m
    by_cases hk : k = key
    · rw [List.filter_cons_of_pos (by simpa using hk)]
      cases j <;> simp [Reader.firstText?, hk, ih]
    · rw [List.filter_cons_of_neg (by simpa using hk), ih]
      cases j <;> simp [Reader.firstText?, hk]

theorem firstText?_cons_of_ne (h : ∀ t, j ≠ .text t) (name key : String) (ms : List (String × Json)) :
    Reader.firstText? name ((key, j) :: ms) = Reader.firstText? name ms := by
  cases j with
  | text t => exact absurd rfl (h t)
  | _ => rfl

theorem firstText?_member (h : Shuffled j k) (name key : String) (before after : List (String × Json)) :
    Reader.firstText? name (before ++ (key, j) :: after) =
      Reader.firstText? name (before ++ (key, k) :: after) := by
  induction before with
  | nil =>
    have htext := h.eq_text_iff
    rw [List.nil_append, List.nil_append]
    by_cases hj : ∃ t, j = .text t
    · obtain ⟨t, rfl⟩ := hj
      rw [(htext t).1 rfl]
    · have hj : ∀ t, j ≠ .text t := fun t e => hj ⟨t, e⟩
      rw [firstText?_cons_of_ne hj, firstText?_cons_of_ne fun t e => hj t ((htext t).2 e)]
  | cons m before ih =>
    obtain ⟨key', i⟩ := m
    cases i <;> simp [Reader.firstText?, ih]

/-! ## Values -/

/-- An object is read by its members. -/
theorem value_object_of_members
    (hobject : ∀ room h, (Tree.object s (Tree.value s room) h (Json.object ms)).toOption =
      (Tree.object s (Tree.value s room) h (Json.object ns)).toOption)
    (hmapping : ∀ room element n,
      ((ms.map .ok).foldlM (Tree.entry (Tree.value s room element n)) []).toOption =
        ((ns.map .ok).foldlM (Tree.entry (Tree.value s room element n)) []).toOption)
    (room : Nat) (shape : Shape) (allowed : Bool) (name : String) :
    (Tree.value s room shape allowed name (Json.object ms)).toOption =
      (Tree.value s room shape allowed name (Json.object ns)).toOption := by
  cases shape with
  | object h => exact Tree.value_object_congr rfl rfl (fun room => hobject room h) room allowed name
  | mapping element n =>
    exact Tree.value_mapping_congr rfl rfl rfl rfl (fun room => hmapping room element n) room allowed
      name
  | primitive | sequence => cases room <;> rfl
  | enumeration h =>
    rw [Tree.value_of_not_null rfl, Tree.value_of_not_null rfl, Tree.shaped, Tree.shaped,
      Tree.enumeration, Tree.enumeration]
    rcases s.enum? h with _ | p <;> rfl

/-- An array is read by its items. -/
theorem value_array_of_items
    (hitems : ∀ room element n name, (is.mapM (Tree.value s room element n name)).toOption =
      (js.mapM (Tree.value s room element n name)).toOption)
    (room : Nat) (shape : Shape) (allowed : Bool) (name : String) :
    (Tree.value s room shape allowed name (Json.array is)).toOption =
      (Tree.value s room shape allowed name (Json.array js)).toOption := by
  cases shape with
  | sequence element n layout =>
    exact Tree.value_sequence_congr (t := .array is) (u := .array js) rfl rfl rfl rfl rfl
      (fun room name => hitems room element n name) room allowed name
  | object h =>
    refine Tree.value_object_congr rfl rfl (fun room => ?_) room allowed name
    rw [Tree.object, Tree.object]
    rcases typePlan s h with _ | p <;> rfl
  | primitive | mapping => cases room <;> rfl
  | enumeration h =>
    rw [Tree.value_of_not_null rfl, Tree.value_of_not_null rfl, Tree.shaped, Tree.shaped,
      Tree.enumeration, Tree.enumeration]
    rcases s.enum? h with _ | p <;> rfl

/-- The text of a member is the same in another order. -/
theorem firstText?_of_sameOrder (h : SameOrder Prod.fst ms ns) (name : String) :
    Reader.firstText? name ms = Reader.firstText? name ns := by
  rw [← firstText?_filter, h, firstText?_filter]

/-- **A tree in another order is read as the same value**, or is not read either. -/
theorem value_of_shuffled (P : c.PlannedBy f s) (h : Shuffled j k) (hj : Bounded d j) (room : Nat)
    (shape : Shape) (allowed : Bool) (name : String) :
    (Tree.value s room shape allowed name j).toOption =
      (Tree.value s room shape allowed name k).toOption := by
  induction h generalizing d room shape allowed name with
  | refl => rfl
  | trans h _ ih₁ ih₂ => exact (ih₁ hj ..).trans (ih₂ (hj.of_shuffled h) ..)
  | @members ms ns hperm =>
    have hsame : SameOrder Prod.fst ms ns := sameOrder_of_perm hj.nodup_keys hperm
    refine value_object_of_members (fun room h => ?_) (fun room element n => ?_) room shape allowed name
    · refine Tree.object_congr P rfl rfl (fun name _ => ?_) rfl fun dplan plan _ _ hsep => ?_
      · exact congrArg some (firstText?_of_sameOrder hsame name)
      · exact Tree.fields_of_sameOrder hsep (hsame.map fun _ => rfl) _
    · exact Tree.entries_of_sameOrder hsame []
  | @member key j k before after h ih =>
    obtain ⟨d', hj⟩ := hj.of_member (List.mem_append_right _ List.mem_cons_self)
    refine value_object_of_members (fun room h' => ?_) (fun room element n => ?_) room shape allowed
      name
    · refine Tree.object_congr P rfl rfl (fun name _ => ?_) rfl fun dplan plan _ _ _ => ?_
      · exact congrArg some (firstText?_member h name key before after)
      · rw [List.map_append, List.map_append]
        exact toOption_foldlM_replace _ _
          (Tree.field_congr fun shape allowed _ => ih hj room shape allowed key) _
    · rw [List.map_append, List.map_append]
      exact toOption_foldlM_replace _ _ (Tree.entry_congr (ih hj room element n key)) _
  | @item j k before after h ih =>
    obtain ⟨d', hj⟩ := hj.of_item (List.mem_append_right _ List.mem_cons_self)
    refine value_array_of_items (fun room element n name => ?_) room shape allowed name
    exact toOption_mapM_replace before after (ih hj room element n name)

theorem Shuffled.isNull_eq (h : Shuffled j k) : Tree.isNull j = Tree.isNull k := by
  induction h with
  | trans _ _ ih₁ ih₂ => exact ih₁.trans ih₂
  | _ => rfl

/-- **A document in another order is read as the same object**, or is not read either. -/
theorem root_of_shuffled (P : c.PlannedBy f s) (h : Shuffled j k) (hj : Bounded d j)
    (declared : Handle) :
    (Tree.root s declared j).toOption = (Tree.root s declared k).toOption := by
  by_cases hn : Tree.isNull j = true
  · -- a null is no object
    have hnull : ∀ {j : Json}, Tree.isNull j = true → (Tree.root s declared j).toOption = none := by
      intro j hj
      cases j with
      | null =>
        rw [Tree.root, Tree.object]
        rcases typePlan s declared with _ | p <;> rfl
      | _ => cases hj
    rw [hnull hn, hnull (h.isNull_eq.symm.trans hn)]
  · rw [Bool.not_eq_true] at hn
    exact Tree.root_congr hn (h.isNull_eq.symm.trans hn) fun allowed name =>
      value_of_shuffled P h hj _ (.object declared) allowed name

end Marshal.Json
