import Marshal.Catalogue.Entity
import Marshal.Table
import Mathlib.Data.List.Nodup
import Mathlib.Data.String.Basic
import Mathlib.Order.Defs.Unbundled

/-!
# Ascending tables

Insertion keeps the keys of a table ascending (`ascending_insert`, `ascending_ofList`), in an
ascending table looking up is membership (`find?_eq_some_iff`), and two ascending tables with the
same look-ups are equal (`ext`). A table made from pairs with distinct keys holds just those pairs
(`find?_ofList`).
-/

namespace Marshal

instance : IsStrictTotalOrder Handle (· < ·) where
  trichotomous := fun ⟨_⟩ ⟨_⟩ h h' =>
    congrArg Handle.mk (Nat.le_antisymm (Nat.le_of_not_lt h') (Nat.le_of_not_lt h))
  irrefl a := Nat.lt_irrefl a.index
  trans a b c := @Nat.lt_trans a.index b.index c.index

namespace Table

variable {κ α β : Type}

theorem forall_mem_cons {p : κ → α → Prop} {e : κ × α} {t : List (κ × α)} :
    (∀ k a, (k, a) ∈ e :: t → p k a) ↔ p e.1 e.2 ∧ ∀ k a, (k, a) ∈ t → p k a := by
  constructor
  · exact fun h => ⟨h _ _ List.mem_cons_self, fun k a ha => h k a (List.mem_cons_of_mem _ ha)⟩
  · rintro ⟨he, ht⟩ k a ha
    rcases List.mem_cons.1 ha with rfl | ha
    · exact he
    · exact ht k a ha

/-! ## Looking up in any table -/

section Lookup

variable [DecidableEq κ]

theorem find?_eq_none_iff {t : List (κ × α)} {k : κ} : find? t k = none ↔ k ∉ keys t := by
  induction t with
  | nil => simp [find?, keys]
  | cons p t ih =>
    obtain ⟨k', a⟩ := p
    simp only [keys] at ih
    rw [find?_cons]
    by_cases h : k = k' <;> simp [keys, h, ih]

theorem contains_iff_exists {t : List (κ × α)} {k : κ} :
    contains t k = true ↔ ∃ a, find? t k = some a := by
  rw [contains, Option.isSome_iff_exists]

theorem find?_of_mem {t : List (κ × α)} (hn : (keys t).Nodup) {k : κ} {a : α}
    (h : (k, a) ∈ t) : find? t k = some a := by
  induction t with
  | nil => simp at h
  | cons p t ih =>
    obtain ⟨k', a'⟩ := p
    simp only [keys, List.map_cons, List.nodup_cons] at hn
    rw [find?_cons]
    rcases List.mem_cons.1 h with e | h
    · cases e
      simp
    · have : k ≠ k' := fun e => hn.1 (e ▸ List.mem_map.2 ⟨(k, a), h, rfl⟩)
      rw [if_neg this]
      exact ih hn.2 h

end Lookup

section Order

variable [LT κ]

theorem Ascending.tail {p : κ × α} {t : List (κ × α)} (h : Ascending (p :: t)) : Ascending t :=
  List.Pairwise.of_cons h

theorem ascending_iff_keys {t : List (κ × α)} : Ascending t ↔ (keys t).Pairwise (· < ·) := by
  rw [Ascending, keys, List.pairwise_map]

instance [DecidableLT κ] (t : List (κ × α)) : Decidable (Ascending t) :=
  inferInstanceAs (Decidable (t.Pairwise fun p q => p.1 < q.1))

theorem ascending_nil : Ascending ([] : List (κ × α)) := List.Pairwise.nil

variable [IsStrictTotalOrder κ (· < ·)]

theorem Ascending.nodup {t : List (κ × α)} (h : Ascending t) : (keys t).Nodup :=
  (ascending_iff_keys.1 h).imp fun {a b} (hab : a < b) (e : a = b) =>
    irrefl_of (· < ·) b (e ▸ hab)

variable [DecidableEq κ]

/-- **In an ascending table looking up is membership.** -/
theorem find?_eq_some_iff {t : List (κ × α)} (h : Ascending t) {k : κ} {a : α} :
    find? t k = some a ↔ (k, a) ∈ t :=
  ⟨mem_of_find?, find?_of_mem h.nodup⟩

/-- **An ascending table is determined by its look-ups.** -/
theorem ext {t u : List (κ × α)} (ht : Ascending t) (hu : Ascending u)
    (h : ∀ k, find? t k = find? u k) : t = u := by
  have hm : ∀ p, p ∈ t ↔ p ∈ u := fun p => by
    rw [← find?_eq_some_iff ht, ← find?_eq_some_iff hu, h]
  exact List.Perm.eq_of_pairwise
    (fun p q _ _ hpq hqp => absurd hqp (asymm_of (· < ·) hpq)) ht hu
    ((List.perm_ext_iff_of_nodup (List.Nodup.of_map _ ht.nodup)
      (List.Nodup.of_map _ hu.nodup)).2 hm)

end Order

/-! ## Insertion -/

section Insert

variable [DecidableEq κ] [LT κ] [DecidableLT κ]

theorem mem_insert {t : List (κ × α)} {k : κ} {a : α} {p : κ × α} (h : p ∈ insert t k a) :
    p = (k, a) ∨ p ∈ t := by
  induction t with
  | nil => simpa [insert] using h
  | cons q t ih =>
    obtain ⟨k', a'⟩ := q
    rw [insert] at h
    split at h
    · rcases List.mem_cons.1 h with h | h
      · exact .inl h
      · exact .inr (List.mem_cons_of_mem _ h)
    · split at h
      · exact List.mem_cons.1 h
      · rcases List.mem_cons.1 h with h | h
        · exact .inr (h ▸ List.mem_cons_self)
        · exact (ih h).imp_right (List.mem_cons_of_mem _)

theorem find?_insert (t : List (κ × α)) (k k' : κ) (a : α) :
    find? (insert t k a) k' = if k' = k then some a else find? t k' := by
  split
  · rename_i h
    rw [h, find?_insert_self]
  · rename_i h
    exact find?_insert_of_ne t a h

theorem insert_ne_nil (t : List (κ × α)) (k : κ) (a : α) : insert t k a ≠ [] := by
  intro h
  have := find?_insert_self t k a
  simp [h, find?] at this

/-- An insertion takes the place of an earlier one. -/
theorem insert_insert (t : List (κ × α)) (k : κ) (a b : α) :
    insert (insert t k a) k b = insert t k b := by
  induction t with
  | nil => simp [insert]
  | cons p t ih =>
    obtain ⟨k', a'⟩ := p
    rw [insert, insert]
    split
    · rw [insert, if_pos rfl]
    · rename_i hne
      split
      · rw [insert, if_pos rfl]
      · rename_i hlt
        rw [insert, if_neg hne, if_neg hlt, ih]

theorem ofList_ne_nil {ps : List (κ × α)} (h : ps ≠ []) : ofList ps ≠ [] := by
  obtain ⟨qs, q, rfl⟩ := (List.eq_nil_or_concat ps).resolve_left h
  rw [List.concat_eq_append, ofList, List.foldl_append]
  exact insert_ne_nil _ _ _

variable [IsStrictTotalOrder κ (· < ·)]

/-- **Insertion keeps a table ascending.** -/
theorem ascending_insert {t : List (κ × α)} (h : Ascending t) (k : κ) (a : α) :
    Ascending (insert t k a) := by
  induction t with
  | nil => exact List.pairwise_singleton _ _
  | cons q t ih =>
    obtain ⟨k', a'⟩ := q
    have hrel := (List.pairwise_cons.1 h).1
    rw [insert]
    split
    · rename_i hk
      exact List.pairwise_cons.2 ⟨fun p hp => hk ▸ hrel p hp, h.tail⟩
    · split
      · rename_i hlt
        refine List.pairwise_cons.2 ⟨fun p hp => ?_, h⟩
        rcases List.mem_cons.1 hp with rfl | hp
        · exact hlt
        · exact trans_of (· < ·) hlt (hrel p hp)
      · rename_i hne hnlt
        refine List.pairwise_cons.2 ⟨fun p hp => ?_, ih h.tail⟩
        rcases mem_insert hp with rfl | hp
        · exact ((trichotomous_of (· < ·) k k').resolve_left hnlt).resolve_left hne
        · exact hrel p hp

theorem ascending_foldl_insert (ps : List (κ × α)) {t : List (κ × α)} (h : Ascending t) :
    Ascending (ps.foldl (fun t p => insert t p.1 p.2) t) := by
  induction ps generalizing t with
  | nil => exact h
  | cons p ps ih => exact ih (ascending_insert h p.1 p.2)

theorem ascending_ofList (ps : List (κ × α)) : Ascending (ofList ps) :=
  ascending_foldl_insert ps ascending_nil

theorem insert_insert_of_lt (t : List (κ × α)) {k k' : κ} (h : k < k') (a b : α) :
    insert (insert t k a) k' b = insert (insert t k' b) k a := by
  have hne : k ≠ k' := ne_of_irrefl h
  have hnlt : ¬ k' < k := asymm_of (· < ·) h
  induction t with
  | nil => simp [insert, hne, hne.symm, h, hnlt]
  | cons p t ih =>
    obtain ⟨q, c⟩ := p
    rcases trichotomous_of (· < ·) k' q with hq | rfl | hq
    · have hkq : k < q := trans_of (· < ·) h hq
      simp [insert, hne, hne.symm, h, hnlt, hq, hkq, ne_of_irrefl hq, ne_of_irrefl hkq]
    · simp [insert, hne, hne.symm, h, hnlt]
    · have hqn : ¬ k' < q := asymm_of (· < ·) hq
      rcases trichotomous_of (· < ·) k q with hkq | rfl | hkq
      · simp [insert, hne.symm, hnlt, hkq, hqn, ne_of_irrefl hkq, (ne_of_irrefl hq).symm]
      · simp [insert, hne.symm, hnlt]
      · simp [insert, hqn, asymm_of (· < ·) hkq, (ne_of_irrefl hq).symm, (ne_of_irrefl hkq).symm, ih]

/-- **Insertions of different keys** may be made in any order. -/
theorem insert_comm (t : List (κ × α)) {k k' : κ} (h : k ≠ k') (a b : α) :
    insert (insert t k a) k' b = insert (insert t k' b) k a := by
  rcases trichotomous_of (· < ·) k k' with hlt | he | hlt
  · exact insert_insert_of_lt t hlt a b
  · exact absurd he h
  · exact (insert_insert_of_lt t hlt b a).symm

omit [IsStrictTotalOrder κ (· < ·)] in
theorem find?_foldl_insert {ps : List (κ × α)} (hn : (keys ps).Nodup) (t : List (κ × α)) (k : κ) :
    find? (ps.foldl (fun t p => insert t p.1 p.2) t) k = (find? ps k).or (find? t k) := by
  induction ps generalizing t with
  | nil => rfl
  | cons p ps ih =>
    obtain ⟨k', a⟩ := p
    simp only [keys, List.map_cons, List.nodup_cons] at hn
    rw [List.foldl_cons, ih hn.2, find?_insert, find?_cons]
    by_cases h : k = k'
    · have hk : find? ps k = none := find?_eq_none_iff.2 (h ▸ hn.1)
      rw [if_pos h, if_pos h, hk, Option.none_or, Option.some_or]
    · simp [h]

omit [IsStrictTotalOrder κ (· < ·)] in
/-- **A table made from pairs with distinct keys holds just those pairs.** -/
theorem find?_ofList {ps : List (κ × α)} (hn : (keys ps).Nodup) (k : κ) :
    find? (ofList ps) k = find? ps k := by
  rw [ofList, find?_foldl_insert hn, find?_nil, Option.or_none]

theorem mem_ofList {ps : List (κ × α)} (hn : (keys ps).Nodup) {p : κ × α} :
    p ∈ ofList ps ↔ p ∈ ps := by
  rw [← find?_eq_some_iff (ascending_ofList ps), find?_ofList hn]
  exact ⟨mem_of_find?, find?_of_mem hn⟩

/-- An ascending table is made from its own entries. -/
theorem ofList_eq_self {t : List (κ × α)} (h : Ascending t) : ofList t = t :=
  ext (ascending_ofList t) h fun k => find?_ofList h.nodup k

/-- A table made by looking up keys. -/
theorem find?_ofList_filterMap {ks : List κ} (hn : ks.Nodup) (g : κ → Option α) (k : κ) :
    find? (ofList (ks.filterMap fun k => (g k).map fun a => (k, a))) k =
      if k ∈ ks then g k else none := by
  have hsub : (keys (ks.filterMap fun k => (g k).map fun a => (k, a))).Sublist ks := by
    clear hn
    induction ks with
    | nil => exact List.Sublist.slnil
    | cons k ks ih =>
      rcases hg : g k with _ | a
      · simpa [hg] using ih.cons k
      · simpa [hg, keys] using ih.cons_cons k
  have hmem : ∀ a, (k, a) ∈ ks.filterMap (fun k => (g k).map fun a => (k, a)) ↔
      k ∈ ks ∧ g k = some a := by
    intro a
    simp only [List.mem_filterMap, Option.map_eq_some_iff, Prod.mk.injEq]
    constructor
    · rintro ⟨_, hk, _, ha, rfl, rfl⟩
      exact ⟨hk, ha⟩
    · rintro ⟨hk, ha⟩
      exact ⟨k, hk, a, ha, rfl, rfl⟩
  refine Option.ext fun a => ?_
  rw [find?_eq_some_iff (ascending_ofList _), mem_ofList (hn.sublist hsub), hmem]
  by_cases hk : k ∈ ks <;> simp [hk]

end Insert

end Table

end Marshal
