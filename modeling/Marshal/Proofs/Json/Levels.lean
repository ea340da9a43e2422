import Marshal.Proofs.Json.Outline

/-!
# Levels of trees

A document is refused when arrays and objects stand in each other deeper than `Json.depthLimit`, so
the tree of a document that is read has no more levels (`bounded_of_ofBytes?`), and it repeats no
key. Levels show in the outline of a tree, so a tree whose text is read has no more levels either
(`Plain.bounded_of_ofBytes?`).
-/

namespace Marshal.Json

/-- A tree that repeats no key and has at most so many arrays and objects in each other. -/
inductive Bounded : Nat → Json → Prop where
  | null {d : Nat} : Bounded d .null
  | bool {d : Nat} {b : Bool} : Bounded d (.bool b)
  | integer {d : Nat} {n : Int} : Bounded d (.integer n)
  | float {d : Nat} {x : Number.Double} : Bounded d (.float x)
  | text {d : Nat} {s : String} : Bounded d (.text s)
  | array {d : Nat} {items : List Json} :
    (∀ j ∈ items, Bounded d j) → Bounded (d + 1) (.array items)
  | object {d : Nat} {members : List (String × Json)} :
    (Table.keys members).Nodup → (∀ k j, (k, j) ∈ members → Bounded d j) →
    Bounded (d + 1) (.object members)

variable {d : Nat} {j : Json} {cs rest : List Char} {read : List Char → Option (Json × List Char)}

theorem mem_mergedItems {js : List Json} (h : j ∈ mergedItems js) : ∃ i ∈ js, merged i = j := by
  induction js with
  | nil => cases h
  | cons i js ih =>
    rcases List.mem_cons.1 h with rfl | h
    · exact ⟨i, List.mem_cons_self, rfl⟩
    · obtain ⟨i', hi, hj⟩ := ih h
      exact ⟨i', List.mem_cons_of_mem _ hi, hj⟩

theorem mem_mergedMembers {ms : List (String × Json)} {m : String × Json}
    (h : m ∈ mergedMembers ms) : ∃ n ∈ ms, merged n.2 = m.2 := by
  induction ms with
  | nil => cases h
  | cons n ms ih =>
    rcases List.mem_cons.1 h with rfl | h
    · exact ⟨n, List.mem_cons_self, rfl⟩
    · obtain ⟨n', hn, hj⟩ := ih h
      exact ⟨n', List.mem_cons_of_mem _ hn, hj⟩

/-! ## Reading -/

/-- Whatever a reader reads has so many levels once it is merged. -/
def Bounds (read : List Char → Option (Json × List Char)) (d : Nat) : Prop :=
  ∀ cs j rest, read cs = some (j, rest) → Bounded d (merged j)

theorem bounded_of_scalar? (h : scalar? strict cs = some (j, rest)) : Bounded d (merged j) := by
  have hkeyword : ∀ {word : String} {k : Json} {cs : List Char},
      keyword? word k cs = some (j, rest) → k = j := by
    intro word k cs hk
    rw [keyword?] at hk
    split at hk
    · exact (Prod.mk.inj (Option.some.inj hk)).1
    · cases hk
  rcases cs with _ | ⟨c, cs⟩
  · cases h
  · rw [scalar?] at h
    split at h
    · obtain ⟨⟨s, _⟩, -, h⟩ := Option.map_eq_some_iff.1 h
      cases h
      exact .text
    · split at h
      · exact hkeyword h ▸ .bool
      · split at h
        · exact hkeyword h ▸ .bool
        · split at h
          · exact hkeyword h ▸ .null
          · obtain ⟨⟨parts, _⟩, -, h⟩ := Option.bind_eq_some_iff.1 h
            obtain ⟨j', hj', h⟩ := Option.bind_eq_some_iff.1 h
            cases h
            have hnumber := isNumber_of_value? hj'
            cases j with
            | integer => exact .integer
            | float => exact .float
            | _ => cases hnumber

theorem bounded_of_items? (hr : Bounds read d) {fuel : List Char} {js : List Json}
    (h : items? read fuel cs = some (js, rest)) : ∀ j ∈ js, Bounded d (merged j) := by
  induction fuel generalizing cs js rest with
  | nil => cases h
  | cons _ fuel ih =>
    rw [items?] at h
    obtain ⟨⟨j, cs'⟩, hj, h⟩ := Option.bind_eq_some_iff.1 h
    dsimp only at h
    split at h
    · obtain ⟨⟨js', cs''⟩, hjs, h⟩ := Option.bind_eq_some_iff.1 h
      cases h
      exact List.forall_mem_cons.2 ⟨hr _ _ _ hj, ih hjs⟩
    · cases h
      exact List.forall_mem_singleton.2 (hr _ _ _ hj)
    · cases h

theorem bounded_of_member? (hr : Bounds read d) {m : String × Json}
    (h : member? strict (fun _ => read) cs = some (m, rest)) : Bounded d (merged m.2) := by
  rw [member?] at h
  split at h
  · obtain ⟨⟨key, cs'⟩, -, h⟩ := Option.bind_eq_some_iff.1 h
    dsimp only at h
    split at h
    · obtain ⟨⟨j, cs''⟩, hj, h⟩ := Option.bind_eq_some_iff.1 h
      cases h
      exact hr _ _ _ hj
    · cases h
  · cases h

theorem bounded_of_members? (hr : Bounds read d) {fuel : List Char} {ms : List (String × Json)}
    (h : members? strict (fun _ => read) fuel cs = some (ms, rest)) :
    ∀ m ∈ ms, Bounded d (merged m.2) := by
  induction fuel generalizing cs ms rest with
  | nil => cases h
  | cons _ fuel ih =>
    rw [members?] at h
    obtain ⟨⟨m, cs'⟩, hm, h⟩ := Option.bind_eq_some_iff.1 h
    dsimp only at h
    split at h
    · obtain ⟨⟨ms', cs''⟩, hms, h⟩ := Option.bind_eq_some_iff.1 h
      cases h
      exact List.forall_mem_cons.2 ⟨bounded_of_member? hr hm, ih hms⟩
    · cases h
      exact List.forall_mem_singleton.2 (bounded_of_member? hr hm)
    · cases h

theorem bounded_of_array? (hr : Bounds read d) (h : array? read cs = some (j, rest)) :
    Bounded (d + 1) (merged j) := by
  rw [array?] at h
  split at h
  · cases h
    exact .array (by simp [mergedItems])
  · obtain ⟨⟨js, cs'⟩, hjs, h⟩ := Option.map_eq_some_iff.1 h
    cases h
    refine .array fun j hj => ?_
    obtain ⟨i, hi, rfl⟩ := mem_mergedItems hj
    exact bounded_of_items? hr hjs i hi

theorem bounded_of_object? (hr : Bounds read d)
    (h : object? strict (fun _ => read) cs = some (j, rest)) : Bounded (d + 1) (merged j) := by
  have hmembers : ∀ ms : List (String × Json), (∀ m ∈ ms, Bounded d (merged m.2)) →
      Bounded (d + 1) (merged (.object ms)) := by
    intro ms hms
    obtain ⟨ns, hns, hkeys, hmem⟩ := exists_ofMembers (mergedMembers ms)
    rw [merged, hns]
    refine .object hkeys fun k j hj => ?_
    obtain ⟨m, hm, rfl⟩ := hmem k j hj
    obtain ⟨n, hn, hj⟩ := mem_mergedMembers hm
    exact hj ▸ hms n hn
  rw [object?] at h
  split at h
  · cases h
    exact hmembers [] (by simp)
  · obtain ⟨⟨ms, cs'⟩, hms, h⟩ := Option.map_eq_some_iff.1 h
    cases h
    exact hmembers ms (bounded_of_members? hr hms)

/-- **A reader with so much room** reads trees of no more levels. -/
theorem bounds_value? (d : Nat) : Bounds (value? strict d) d := by
  induction d with
  | zero => exact fun cs j rest h => bounded_of_scalar? h
  | succ d ih =>
    intro cs j rest h
    rw [value?] at h
    split at h
    · exact bounded_of_array? ih h
    · exact bounded_of_object? ih h
    · exact bounded_of_scalar? h

/-- **The tree of a document** has no more levels than are allowed, and repeats no key. -/
theorem bounded_of_ofBytes? {bytes : List UInt8} (h : ofBytes? bytes = some j) :
    Bounded depthLimit j := by
  obtain ⟨text, -, h⟩ := Option.bind_eq_some_iff.1 h
  obtain ⟨k, hk, rfl⟩ := Option.map_eq_some_iff.1 h
  obtain ⟨⟨k', rest⟩, hread, halone⟩ := Option.bind_eq_some_iff.1 hk
  rw [alone?] at halone
  split at halone
  · cases halone
    exact bounds_value? depthLimit _ _ _ hread
  · cases halone

/-! ## Levels of outlines -/

theorem Plain.regular (h : Plain d j) : Regular j := by
  induction h with
  | null => exact .null
  | bool => exact .bool
  | integer hn => exact .integer hn
  | text => exact .text
  | array _ ih => exact .array ih
  | object hn _ ih => exact .object hn ih

theorem outlineItems_eq_map (js : List Json) : outlineItems js = js.map outline := by
  induction js with
  | nil => rfl
  | cons j js ih => rw [outlineItems, ih, List.map_cons]

/-- Trees of one outline have the same levels. -/
theorem Bounded.of_outline {k : Json} (h : Bounded d j) (e : outline k = outline j) : Bounded d k := by
  induction h generalizing k with
  | null | bool | integer | float | text => cases k <;> first | constructor | cases e
  | @array d items _ ih =>
    cases k with
    | array items' =>
      have hitems := Json.array.inj e
      rw [outlineItems_eq_map, outlineItems_eq_map] at hitems
      refine .array fun j' hj' => ?_
      obtain ⟨j, hj, he⟩ := List.mem_map.1 (hitems ▸ List.mem_map_of_mem hj')
      exact ih j hj he.symm
    | _ => cases e
  | @object d members hn _ ih =>
    cases k with
    | object members' =>
      have hmembers := Json.object.inj e
      rw [outlineMembers_eq_map, outlineMembers_eq_map] at hmembers
      refine .object ?_ fun key j' hj' => ?_
      · have hkeys := congrArg Table.keys hmembers
        simp only [Table.keys, List.map_map, Function.comp_def] at hkeys
        rwa [Table.keys, hkeys]
      · obtain ⟨m, hm, he⟩ := List.mem_map.1 (hmembers ▸ List.mem_map_of_mem hj')
        exact ih m.1 m.2 hm (Prod.mk.inj he).2.symm
    | _ => cases e

/-- **A tree whose text is read** has no more levels than are allowed. -/
theorem Plain.bounded_of_ofBytes? {k : Json} (h : Plain d j)
    (hk : ofBytes? (Text.toBytes (compact j)) = some k) : Bounded depthLimit j :=
  (Json.bounded_of_ofBytes? hk).of_outline (outline_of_ofBytes? h.regular hk).symm

end Marshal.Json
