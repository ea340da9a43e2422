/-!
# Tables

A finite map is kept as the list of its entries in ascending key order, so the order in which a
table is listed is part of its value. `Table.find?_insert_self` and `Table.find?_insert_of_ne` say
what an insertion does to a look-up, and they need no hypothesis on the table.
-/

namespace Marshal

/-- A finite map from `κ` to `α`, listed by ascending key. -/
abbrev Table (κ α : Type) := List (κ × α)

namespace Table

variable {κ α β : Type}

section Lookup

variable [DecidableEq κ]

/-- The value stored under `k`. -/
def find? : List (κ × α) → κ → Option α
  | [], _ => none
  | (k', a) :: t, k => if k = k' then some a else find? t k

/-- Whether `k` is a key of the table. -/
def contains (t : List (κ × α)) (k : κ) : Bool := (find? t k).isSome

theorem find?_nil (k : κ) : find? ([] : List (κ × α)) k = none := rfl

theorem find?_cons (k' : κ) (a : α) (t : List (κ × α)) (k : κ) :
    find? ((k', a) :: t) k = if k = k' then some a else find? t k := rfl

theorem mem_of_find? {t : List (κ × α)} {k : κ} {a : α} (h : find? t k = some a) :
    (k, a) ∈ t := by
  induction t with
  | nil => simp [find?] at h
  | cons p t ih =>
    obtain ⟨k', a'⟩ := p
    rw [find?_cons] at h
    split at h
    · cases h
      subst k
      exact List.mem_cons_self
    · exact List.mem_cons_of_mem _ (ih h)

end Lookup

/-- The keys, in table order. -/
def keys (t : List (κ × α)) : List κ := t.map Prod.fst

section Order

variable [DecidableEq κ] [LT κ] [DecidableLT κ]

/-- Stores `a` under `k`, in place of what was stored there. -/
def insert : List (κ × α) → κ → α → List (κ × α)
  | [], k, a => [(k, a)]
  | (k', a') :: t, k, a =>
    if k = k' then (k, a) :: t
    else if k < k' then (k, a) :: (k', a') :: t
    else (k', a') :: insert t k a

/-- The table of a list of pairs; of two pairs with one key the later counts. -/
def ofList (ps : List (κ × α)) : List (κ × α) :=
  ps.foldl (fun t p => insert t p.1 p.2) []

/-- The keys of the table strictly ascend. -/
def Ascending (t : List (κ × α)) : Prop := t.Pairwise fun p q => p.1 < q.1

theorem find?_insert_self (t : List (κ × α)) (k : κ) (a : α) :
    find? (insert t k a) k = some a := by
  induction t with
  | nil => simp [insert, find?]
  | cons p t ih =>
    obtain ⟨k', a'⟩ := p
    rw [insert]
    split
    · simp [find?]
    · split
      · simp [find?]
      · rename_i h _
        simp [find?, h, ih]

theorem find?_insert_of_ne (t : List (κ × α)) {k k' : κ} (a : α) (h : k' ≠ k) :
    find? (insert t k a) k' = find? t k' := by
  induction t with
  | nil => simp [insert, find?, h]
  | cons p t ih =>
    obtain ⟨k'', a''⟩ := p
    rw [insert]
    split
    · rename_i hk
      subst hk
      simp [find?, h]
    · split
      · simp [find?, h]
      · simp [find?, ih]

end Order

end Table

end Marshal
