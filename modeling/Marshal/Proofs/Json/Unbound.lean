import Marshal.Proofs.Json.Order
import Marshal.Proofs.Wire.Unbound

/-!
# Members that are bound to nothing

A member of a JSON object whose key no property has is tolerated (`Json.object_tolerates`). Repeated keys
are merged before anything is read, so where no object captures it, it may repeat a key that is not
bound either.
-/

namespace Marshal.Json

open Decode Catalogue

variable {c : Catalogue} {s : PlanSet} {dplan plan : TypePlan} {declared : Handle} {k : String}
  {j x : Json} {ms before after : List (String × Json)}

/-! ## Merged members -/

/-- The members of an object once its repeated keys are merged. -/
def gathered (ms : List (String × Json)) : List (String × Json) :=
  (mergedMembers ms).foldl (fun t m => put t m.1 m.2) []

theorem mergedMembers_eq_map (ms : List (String × Json)) :
    mergedMembers ms = ms.map fun m => (m.1, merged m.2) := by
  induction ms with
  | nil => rfl
  | cons m ms ih => rw [mergedMembers, ih, List.map_cons]

/-- A member under a key does not touch those under other keys. -/
theorem filter_gathered (p : String → Bool) (hk : p k = false)
    (before after : List (String × Json)) (x : Json) :
    (gathered (before ++ (k, x) :: after)).filter (fun m => p m.1) =
      (gathered (before ++ after)).filter fun m => p m.1 := by
  rw [gathered, gathered, filter_foldl_put, filter_foldl_put, mergedMembers_eq_map, mergedMembers_eq_map,
    List.map_append, List.map_append, List.map_cons, List.filter_append, List.filter_append,
    List.filter_cons_of_neg (by simp [hk])]

theorem put_append_of_mem {ns : List (String × Json)} (h : k ∈ Table.keys ms) :
    put (ms ++ ns) k j = put ms k j ++ ns := by
  induction ms with
  | nil => cases h
  | cons m ms ih =>
    rw [List.cons_append, put, put]
    by_cases hm : m.1 = k
    · rw [if_pos hm, if_pos hm, List.cons_append]
    · rw [if_neg hm, if_neg hm, List.cons_append,
        ih ((List.mem_cons.1 h).resolve_left (Ne.symm hm))]

theorem not_mem_keys_foldl_put {ns : List (String × Json)} (h : k ∉ Table.keys ms)
    (hn : k ∉ Table.keys ns) : k ∉ Table.keys (ms.foldl (fun t m => put t m.1 m.2) ns) := by
  induction ms generalizing ns with
  | nil => exact hn
  | cons m ms ih =>
    rw [Table.keys, List.map_cons, List.mem_cons, not_or] at h
    refine ih h.2 ?_
    show k ∉ Table.keys (put ns m.1 m.2)
    by_cases hm : m.1 ∈ Table.keys ns
    · rw [keys_put_of_mem hm]
      exact hn
    · rw [put_eq_append hm, Table.keys, List.map_append, List.mem_append, not_or]
      exact ⟨hn, by simpa using h.1⟩

theorem not_mem_keys_gathered (h : k ∉ Table.keys ms) : k ∉ Table.keys (gathered ms) := by
  refine not_mem_keys_foldl_put ?_ List.not_mem_nil
  rwa [mergedMembers_eq_map, Table.keys, List.map_map]

/-- Putting members under other keys leaves a member where it is. -/
theorem exists_foldl_put (h : k ∉ Table.keys ms) (before after : List (String × Json)) :
    ∃ before' after',
      ms.foldl (fun t m => put t m.1 m.2) (before ++ (k, x) :: after) = before' ++ (k, x) :: after' ∧
      ms.foldl (fun t m => put t m.1 m.2) (before ++ after) = before' ++ after' := by
  induction ms generalizing before after with
  | nil => exact ⟨before, after, rfl, rfl⟩
  | cons m ms ih =>
    rw [Table.keys, List.map_cons, List.mem_cons, not_or] at h
    rw [List.foldl_cons, List.foldl_cons]
    by_cases hm : m.1 ∈ Table.keys before
    · rw [put_append_of_mem hm, put_append_of_mem hm]
      exact ih h.2 _ _
    · rw [put_append_of_not_mem hm, put_append_of_not_mem hm, put, if_neg h.1]
      exact ih h.2 _ _

/-- **A member under a new key** is one member more among the merged ones. -/
theorem exists_gathered (h : k ∉ Table.keys (before ++ after)) (x : Json) : ∃ before' after',
    gathered (before ++ (k, x) :: after) = before' ++ (k, merged x) :: after' ∧
      gathered (before ++ after) = before' ++ after' := by
  rw [Table.keys, List.map_append, List.mem_append, not_or] at h
  have hafter : k ∉ Table.keys (mergedMembers after) := by
    rw [mergedMembers_eq_map, Table.keys, List.map_map]
    exact h.2
  obtain ⟨before', after', hins, hout⟩ := exists_foldl_put (x := merged x) hafter (gathered before) []
  refine ⟨before', after', ?_, ?_⟩
  · rw [gathered, mergedMembers_eq_map, List.map_append, List.map_cons, List.foldl_append,
      List.foldl_cons, ← mergedMembers_eq_map, ← mergedMembers_eq_map]
    show (mergedMembers after).foldl _ (put (gathered before) k (merged x)) = _
    rw [put_eq_append (not_mem_keys_gathered h.1)]
    exact hins
  · rw [gathered, mergedMembers_eq_map, List.map_append, List.foldl_append, ← mergedMembers_eq_map,
      ← mergedMembers_eq_map]
    rw [List.append_nil] at hout
    exact hout

/-! ## Objects -/

/-- The tree of a document whose root is an object. -/
theorem merged_object_eq (ms : List (String × Json)) : merged (.object ms) = .object (gathered ms) := rfl

/-- The text of a member is found without regard to another key. -/
theorem firstText?_gathered {name : String} (hn : name ≠ k) (before after : List (String × Json))
    (x : Json) :
    Reader.firstText? name (gathered (before ++ (k, x) :: after)) =
      Reader.firstText? name (gathered (before ++ after)) := by
  rw [← firstText?_filter, filter_gathered (fun l => l = name) (by simpa using hn.symm),
    firstText?_filter]

/-- The members that are bound are the same without one that is not. -/
theorem bound_gathered (hk : boundAction plan k .element = none) (before after : List (String × Json))
    (x : Json) :
    Tree.bound plan ((gathered (before ++ (k, x) :: after)).map fun m => (m.1, .element, m.2)) =
      Tree.bound plan ((gathered (before ++ after)).map fun m => (m.1, .element, m.2)) := by
  rw [Tree.bound, Tree.bound, List.filter_map, List.filter_map]
  exact congrArg (List.map _) (filter_gathered (fun l => (boundAction plan l .element).isSome)
    (by rw [hk]; rfl) before after x)

/-- **A member that is bound to nothing is tolerated**, wherever it stands in the object. -/
theorem object_tolerates (P : c.PlannedBy .json s) {inner : Tree.Inner Json}
    (hd : s.type? declared = some dplan)
    (hplan : Tree.concretePlan s dplan (merged (.object (before ++ after))) = .ok plan)
    (hk : boundAction plan k .element = none) :
    Tree.Tolerates inner plan ((before ++ after).map fun m => (m.1, .element, m.2)) k (merged x)
      (Tree.object s inner declared (merged (.object (before ++ after))))
      (Tree.object s inner declared (merged (.object (before ++ (k, x) :: after)))) := by
  have hplan' : Tree.concretePlan s dplan (merged (.object (before ++ (k, x) :: after))) = .ok plan := by
    refine Tree.concretePlan_of_unbound P hd hplan hk fun p hp => ?_
    exact congrArg Except.ok (firstText?_gathered (fun he => hp ⟨he, rfl⟩) before after x)
  refine ⟨fun hnone => ?_, fun target v htarget hfresh hv => ?_⟩
  · exact Tree.object_of_bound_eq hd rfl rfl rfl hplan hplan' hnone (bound_gathered hk before after x)
  · have hnew : k ∉ Table.keys (before ++ after) := by
      intro hmem
      obtain ⟨m, hm, rfl⟩ := List.mem_map.1 hmem
      have hbound := hfresh _ (List.mem_map_of_mem hm) rfl
      rw [hk] at hbound
      cases hbound
    obtain ⟨before', after', hins, hout⟩ := exists_gathered hnew x
    have hafter : k ∉ Table.keys after' := by
      have hgathered := not_mem_keys_gathered hnew
      rw [hout, Table.keys, List.map_append, List.mem_append, not_or] at hgathered
      exact hgathered.2
    rw [merged_object_eq] at hplan hplan'
    rw [merged_object_eq, merged_object_eq]
    rw [hout] at hplan ⊢
    rw [hins] at hplan' ⊢
    refine Tree.object_of_captured (x := (k, .element, merged x)) P hd
      (congrArg Except.ok List.map_append) (congrArg Except.ok List.map_append) rfl hplan hplan' htarget
      hk hv fun y hy he => ?_
    obtain ⟨m, hm, rfl⟩ := List.mem_map.1 hy
    exact absurd (List.mem_map.2 ⟨m, hm, he⟩) hafter

end Marshal.Json
