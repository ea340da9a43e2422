import Marshal.Catalogue.Seal
import Marshal.Proofs.Catalogue.Lineage
import Marshal.Proofs.Outcome
import Marshal.Proofs.Table.Ascending

/-!
# Changes in place

What an operation does to a catalogue, whether it fails or not, is said by one equation for each
(`InPlace.declare_eq`, `InPlace.define_eq`, `InPlace.trySeal_eq`). An operation that succeeds makes
only changes of three sorts (`Change`): it appends a name, fills in a definition, or freezes. The index
follows the slots through every change (`Indexed`), and a definition has the name of its slot
(`Carried`).
-/

namespace Marshal.Catalogue

open Outcome

variable {c c' : Catalogue}

/-! ## What the operations do -/

/-- A catalogue in which a slot is filled in. -/
def fill (c : Catalogue) (h : Handle) (e : Entity) : Catalogue :=
  { c with slots := c.slots.modify h.index fun s => { s with entity := some e } }

/-- The same types, sealed with hierarchies. -/
def withForest (c : Catalogue) (f : Forest) : Catalogue := { c with forest := f, isSealed := true }

namespace InPlace

theorem get_run (c : Catalogue) : (get : InPlace Catalogue) c = .ok c c := rfl

theorem ensureOpen_of_open (name : String) (ho : c.isSealed = false) :
    ensureOpen name c = .ok () c := by
  rw [ensureOpen]
  refine (run_bind (get_run c)).trans ?_
  rw [ho]
  rfl

theorem ensureOpen_of_sealed (name : String) (hs : c.isSealed = true) :
    ensureOpen name c = .error (.sealed name) c := by
  rw [ensureOpen]
  refine (run_bind (get_run c)).trans ?_
  rw [hs]
  rfl

theorem slotAt_eq (h : Handle) (context : String) (c : Catalogue) :
    slotAt h context c =
      match c.slot? h with
      | some s => .ok s c
      | none => .error (.unknownHandle h.index context) c := by
  rw [slotAt]
  refine (run_bind (get_run c)).trans ?_
  rcases c.slot? h with _ | s <;> rfl

/-- **Declaring** finds the name, or appends it to the slots and to the index. It fails before either
is changed. -/
theorem declare_eq (name : String) (c : Catalogue) :
    declare name c =
      match c.handleOf? name with
      | some h => .ok h c
      | none =>
        if c.isSealed then .error (.sealed name) c else .ok ⟨c.size⟩ (c.push ⟨name, none⟩) := by
  rw [declare]
  refine (run_bind (get_run c)).trans ?_
  rcases c.handleOf? name with _ | h
  · cases hs : c.isSealed with
    | false => exact (run_bind (ensureOpen_of_open name hs)).trans rfl
    | true => exact run_bind_error (ensureOpen_of_sealed name hs)
  · rfl

/-- **Defining** finds the same definition, or fills it in. It fails before the slot is changed. -/
theorem define_eq (h : Handle) (kind : Kind) (c : Catalogue) :
    define h kind c =
      match c.slot? h with
      | none => .error (.unknownHandle h.index "define") c
      | some s =>
        if c.isSealed then .error (.sealed s.name) c
        else
          match s.entity with
          | some e => if e.kind = kind then .ok () c else .error (.duplicateType s.name) c
          | none => .ok () (c.fill h ⟨s.name, kind⟩) := by
  rw [define]
  have hslot := slotAt_eq h "define" c
  rcases hs : c.slot? h with _ | s <;> rw [hs] at hslot
  · exact run_bind_error hslot
  · refine (run_bind hslot).trans ?_
    cases ho : c.isSealed with
    | true => exact run_bind_error (ensureOpen_of_sealed s.name ho)
    | false =>
      refine (run_bind (ensureOpen_of_open s.name ho)).trans ((run_bind hslot).trans ?_)
      simp only [Bool.false_eq_true, if_false]
      rcases s.entity with _ | e
      · rfl
      · dsimp only
        split <;> rfl

/-- **Sealing** finds the catalogue sealed, or freezes it when all checks have passed. -/
theorem trySeal_eq (c : Catalogue) :
    trySeal c =
      if c.isSealed then .ok () c
      else
        match c.check with
        | .ok f => .ok () (c.withForest f)
        | .error e => .error e c := by
  rw [trySeal]
  refine (run_bind (get_run c)).trans ?_
  cases c.isSealed with
  | true => rfl
  | false =>
    refine (run_bind (get_run c)).trans ?_
    rcases c.check with e | f <;> rfl

end InPlace

/-! ## Changes -/

/-- One change to an open catalogue. -/
inductive Change (c : Catalogue) : Catalogue → Prop where
  | append {name : String} : c.isSealed = false → c.handleOf? name = none →
    Change c (c.push ⟨name, none⟩)
  | fill {h : Handle} {name : String} {kind : Kind} :
    c.isSealed = false → c.slot? h = some ⟨name, none⟩ → Change c (c.fill h ⟨name, kind⟩)
  | freeze {f : Forest} : c.isSealed = false → c.check = .ok f → Change c (c.withForest f)

/-- Any number of changes. -/
def Changes : Catalogue → Catalogue → Prop := Relation.ReflTransGen Change

namespace InPlace

/-- Declaring finds the name, or appends it. -/
theorem declare_eq_ok {name : String} {h : Handle} (hd : declare name c = .ok h c') :
    (c.handleOf? name = some h ∧ c' = c) ∨
      (c.isSealed = false ∧ c.handleOf? name = none ∧ h = ⟨c.size⟩ ∧ c' = c.push ⟨name, none⟩) := by
  rw [declare_eq] at hd
  split at hd
  · rename_i hf
    cases hd
    exact .inl ⟨hf, rfl⟩
  · rename_i hf
    split at hd
    · cases hd
    · rename_i ho
      cases hd
      exact .inr ⟨Bool.eq_false_iff.2 ho, hf, rfl, rfl⟩

/-- Defining finds the same definition, or fills it in. -/
theorem define_eq_ok {h : Handle} {kind : Kind} {u : Unit} (hd : define h kind c = .ok u c') :
    (c.kind? h = some kind ∧ c' = c) ∨
      ∃ name, c.isSealed = false ∧ c.slot? h = some ⟨name, none⟩ ∧ c' = c.fill h ⟨name, kind⟩ := by
  rw [define_eq] at hd
  split at hd
  · cases hd
  · rename_i s hs
    split at hd
    · cases hd
    · rename_i ho
      split at hd
      · rename_i e he
        split at hd
        · rename_i hkind
          cases hd
          exact .inl ⟨by rw [kind?, hs, ← hkind, Option.bind_some, Slot.kind, he, Option.map_some], rfl⟩
        · cases hd
      · rename_i he
        cases hd
        obtain ⟨name, _⟩ := s
        subst he
        exact .inr ⟨name, Bool.eq_false_iff.2 ho, hs, rfl⟩

/-- Sealing finds the catalogue sealed, or freezes it. -/
theorem trySeal_eq_ok {u : Unit} (ht : trySeal c = .ok u c') :
    (c.isSealed = true ∧ c' = c) ∨
      ∃ f, c.isSealed = false ∧ c.check = .ok f ∧ c' = c.withForest f := by
  rw [trySeal_eq] at ht
  split at ht
  · rename_i hs
    cases ht
    exact .inl ⟨hs, rfl⟩
  · rename_i ho
    split at ht
    · rename_i f hf
      cases ht
      exact .inr ⟨f, Bool.eq_false_iff.2 ho, hf, rfl⟩
    · cases ht

theorem register_eq_ok {e : Entity} {h : Handle} (hr : register e c = .ok h c') :
    ∃ c₁, declare e.name c = .ok h c₁ ∧ define h e.kind c₁ = .ok () c' := by
  obtain ⟨k, c₁, hd, hr⟩ := run_bind_eq_ok_iff.1 hr
  obtain ⟨u, c₂, hf, hr⟩ := run_bind_eq_ok_iff.1 hr
  cases hr
  exact ⟨c₁, hd, hf⟩

theorem declare_changes {name : String} {h : Handle} (hd : declare name c = .ok h c') :
    Changes c c' := by
  rcases declare_eq_ok hd with ⟨-, rfl⟩ | ⟨ho, hf, -, rfl⟩
  · exact .refl
  · exact .single (.append ho hf)

theorem define_changes {h : Handle} {kind : Kind} {u : Unit} (hd : define h kind c = .ok u c') :
    Changes c c' := by
  rcases define_eq_ok hd with ⟨-, rfl⟩ | ⟨name, ho, hs, rfl⟩
  · exact .refl
  · exact .single (.fill ho hs)

theorem trySeal_changes {u : Unit} (ht : trySeal c = .ok u c') : Changes c c' := by
  rcases trySeal_eq_ok ht with ⟨-, rfl⟩ | ⟨f, ho, hf, rfl⟩
  · exact .refl
  · exact .single (.freeze ho hf)

theorem register_changes {e : Entity} {h : Handle} (hr : register e c = .ok h c') :
    Changes c c' := by
  obtain ⟨c₁, hd, hf⟩ := register_eq_ok hr
  exact (declare_changes hd).trans (define_changes hf)

end InPlace

/-! ## Slots -/

theorem slot?_push (c : Catalogue) (s : Slot) (h : Handle) :
    (c.push s).slot? h = if h.index = c.size then some s else c.slot? h :=
  Array.getElem?_push

theorem slot?_fill (c : Catalogue) (k : Handle) (e : Entity) (h : Handle) :
    (c.fill k e).slot? h =
      if k.index = h.index then (c.slot? h).map fun s => { s with entity := some e }
      else c.slot? h :=
  Array.getElem?_modify

/-- The slot that was just appended, filled in. -/
theorem fill_push (c : Catalogue) (name : String) (e : Entity) :
    (c.push ⟨name, none⟩).fill ⟨c.size⟩ e = c.push ⟨name, some e⟩ := by
  have hslots : (c.slots.push ⟨name, none⟩).modify c.slots.size
      (fun s => { s with entity := some e }) = c.slots.push ⟨name, some e⟩ := by
    apply Array.ext_getElem?
    intro i
    rw [Array.getElem?_modify, Array.getElem?_push, Array.getElem?_push]
    split
    · rename_i hi
      rw [if_pos hi.symm, if_pos hi.symm]
      rfl
    · rename_i hi
      rw [if_neg (Ne.symm hi), if_neg (Ne.symm hi)]
  rw [fill, push, push]
  simp only [size, hslots]

/-! ## An operation that fails changes nothing -/

namespace InPlace

theorem declare_error {name : String} {e : CatalogueError} (h : declare name c = .error e c') :
    c' = c := by
  rw [declare_eq] at h
  split at h
  · cases h
  · split at h <;> cases h
    rfl

theorem define_error {k : Handle} {kind : Kind} {e : CatalogueError}
    (h : define k kind c = .error e c') : c' = c := by
  rw [define_eq] at h
  split at h
  · cases h
    rfl
  · split at h
    · cases h
      rfl
    · split at h
      · split at h <;> cases h
        rfl
      · cases h

theorem trySeal_error {e : CatalogueError} (h : trySeal c = .error e c') : c' = c := by
  rw [trySeal_eq] at h
  split at h
  · cases h
  · split at h <;> cases h
    rfl

/-- A name that was just appended can be defined. -/
theorem define_push (ho : c.isSealed = false) (name : String) (kind : Kind) :
    define ⟨c.size⟩ kind (c.push ⟨name, none⟩) = .ok () (c.push ⟨name, some ⟨name, kind⟩⟩) := by
  have hslot : (c.push ⟨name, none⟩).slot? ⟨c.size⟩ = some ⟨name, none⟩ := by
    rw [slot?_push, if_pos rfl]
  have hopen : (c.push ⟨name, none⟩).isSealed = false := ho
  rw [define_eq, hslot, hopen, ← fill_push]
  rfl

/-- **A registration is all or nothing**: where the definition fails, the name was there before. -/
theorem register_error {e : Entity} {err : CatalogueError} (h : register e c = .error err c') :
    c' = c := by
  rw [register, run_bind_eq_error_iff] at h
  rcases h with hd | ⟨k, c₁, hd, h⟩
  · exact declare_error hd
  · rw [run_bind_eq_error_iff] at h
    rcases h with hf | ⟨_, _, _, h⟩
    · rcases declare_eq_ok hd with ⟨-, rfl⟩ | ⟨ho, -, rfl, rfl⟩
      · exact define_error hf
      · cases hf.symm.trans (define_push ho e.name e.kind)
    · cases h

end InPlace

/-! ## What a change keeps -/

theorem Change.isOpen (h : Change c c') : c.isSealed = false := by
  cases h <;> assumption

/-- What each change keeps is kept by any number of them. -/
theorem Changes.keeps {P : Catalogue → Prop} (h : Changes c c')
    (hstep : ∀ {c c' : Catalogue}, Change c c' → P c → P c') (hc : P c) : P c' := by
  induction h with
  | refl => exact hc
  | tail _ h ih => exact hstep h ih

/-- A sealed catalogue does not change any more. -/
theorem Changes.eq_of_isSealed (h : Changes c c') (hs : c.isSealed = true) : c' = c := by
  rcases h.cases_head with h | ⟨c₁, h, -⟩
  · exact h.symm
  · exact absurd hs (by simp [h.isOpen])

/-- A change keeps the name of a slot, and its definition once it has one. -/
theorem Change.slot? (h : Change c c') {k : Handle} {s : Slot} (hs : c.slot? k = some s) :
    ∃ s', c'.slot? k = some s' ∧ s'.name = s.name ∧ ∀ e, s.entity = some e → s'.entity = some e := by
  cases h with
  | append =>
    rw [slot?_push, if_neg (lt_size_of_slot? hs).ne]
    exact ⟨s, hs, rfl, fun _ he => he⟩
  | @fill h name kind _ hn =>
    rw [slot?_fill, hs, Option.map_some]
    split
    · rename_i hkh
      obtain rfl : h = k := congrArg Handle.mk hkh
      obtain rfl := Option.some.inj (hs.symm.trans hn)
      exact ⟨_, rfl, rfl, nofun⟩
    · exact ⟨s, rfl, rfl, fun _ he => he⟩
  | freeze => exact ⟨s, hs, rfl, fun _ he => he⟩

theorem Changes.slot? (h : Changes c c') {k : Handle} {s : Slot} (hs : c.slot? k = some s) :
    ∃ s', c'.slot? k = some s' ∧ s'.name = s.name ∧ ∀ e, s.entity = some e → s'.entity = some e := by
  refine h.keeps (P := fun c' => ∃ s', c'.slot? k = some s' ∧ s'.name = s.name ∧
    ∀ e, s.entity = some e → s'.entity = some e) ?_ ⟨s, hs, rfl, fun _ he => he⟩
  rintro c c' h ⟨s₁, hs₁, hn₁, he₁⟩
  obtain ⟨s₂, hs₂, hn₂, he₂⟩ := h.slot? hs₁
  exact ⟨s₂, hs₂, hn₂.trans hn₁, fun e he => he₂ e (he₁ e he)⟩

/-- The name at a handle. -/
def name? (c : Catalogue) (h : Handle) : Option String := (c.slot? h).map Slot.name

theorem Changes.name? (h : Changes c c') {k : Handle} {n : String} (hn : c.name? k = some n) :
    c'.name? k = some n := by
  obtain ⟨s, hs, rfl⟩ := Option.map_eq_some_iff.1 hn
  obtain ⟨s', hs', hname, -⟩ := h.slot? hs
  exact Option.map_eq_some_iff.2 ⟨s', hs', hname⟩

theorem get?_eq_some_iff {h : Handle} {e : Entity} :
    c.get? h = some e ↔ ∃ n, c.slot? h = some ⟨n, some e⟩ := by
  rw [get?, Option.bind_eq_some_iff]
  constructor
  · rintro ⟨⟨n, _⟩, hs, rfl⟩
    exact ⟨n, hs⟩
  · rintro ⟨n, hs⟩
    exact ⟨_, hs, rfl⟩

theorem kind?_eq (c : Catalogue) (h : Handle) : c.kind? h = (c.get? h).map Entity.kind := by
  rw [kind?, get?, Option.map_bind]
  rfl

theorem kind?_eq_some_iff {h : Handle} {k : Kind} :
    c.kind? h = some k ↔ ∃ name, c.get? h = some ⟨name, k⟩ := by
  rw [kind?_eq, Option.map_eq_some_iff]
  constructor
  · rintro ⟨⟨name, _⟩, he, rfl⟩
    exact ⟨name, he⟩
  · rintro ⟨name, he⟩
    exact ⟨_, he, rfl⟩

theorem resolve_eq_ok_iff {h : Handle} {e : Entity} : c.resolve h = .ok e ↔ c.get? h = some e := by
  rw [resolve, Catalogue.get?]
  rcases c.slot? h with _ | ⟨n, _ | e⟩ <;> simp

/-- A definition stays. -/
theorem Changes.get? (h : Changes c c') {k : Handle} {e : Entity} (he : c.get? k = some e) :
    c'.get? k = some e := by
  obtain ⟨s, hs, hse⟩ := Option.bind_eq_some_iff.1 he
  obtain ⟨s', hs', -, hse'⟩ := h.slot? hs
  exact Option.bind_eq_some_iff.2 ⟨s', hs', hse' e hse⟩

/-- A defined slot stays as it is. -/
theorem Changes.slot?_of_defined (h : Changes c c') {k : Handle} {n : String} {e : Entity}
    (hs : c.slot? k = some ⟨n, some e⟩) : c'.slot? k = some ⟨n, some e⟩ := by
  obtain ⟨⟨n', e'⟩, hs', hn, he⟩ := h.slot? hs
  rw [hs', show n' = n from hn, show e' = some e from he e rfl]

/-! ## The index -/

/-- **The index says what the slots say**: it leads from a name to the slot of this name, and there is
none in it else. -/
def Indexed (c : Catalogue) : Prop := ∀ n h, c.handleOf? n = some h ↔ c.name? h = some n

theorem name?_push (c : Catalogue) (s : Slot) (h : Handle) :
    (c.push s).name? h = if h.index = c.size then some s.name else c.name? h := by
  rw [Catalogue.name?, slot?_push, apply_ite (Option.map Slot.name)]
  rfl

theorem handleOf?_push (c : Catalogue) (s : Slot) (n : String) :
    (c.push s).handleOf? n = if n = s.name then some ⟨c.size⟩ else c.handleOf? n :=
  Table.find?_insert c.index s.name n ⟨c.size⟩

theorem name?_fill (c : Catalogue) (k : Handle) (e : Entity) : (c.fill k e).name? = c.name? := by
  funext h
  rw [Catalogue.name?, slot?_fill, Catalogue.name?]
  split
  · rw [Option.map_map]
    rfl
  · rfl

theorem lt_size_of_name? {h : Handle} {n : String} (hn : c.name? h = some n) : h.index < c.size := by
  obtain ⟨s, hs, -⟩ := Option.map_eq_some_iff.1 hn
  exact lt_size_of_slot? hs

namespace Indexed

theorem empty : Indexed empty := fun n h => by
  simp [handleOf?, Catalogue.name?, Catalogue.slot?, Catalogue.empty, Table.find?]

/-- A new name is put into the index with its slot. -/
theorem push (hc : c.Indexed) {s : Slot} (hnew : c.handleOf? s.name = none) : (c.push s).Indexed := by
  intro n h
  rw [handleOf?_push, name?_push]
  by_cases hn : n = s.name <;> by_cases hh : h.index = c.size
  · rw [if_pos hn, if_pos hh, hn]
    exact iff_of_true (congrArg (fun i => some (Handle.mk i)) hh.symm) rfl
  · -- another slot of the name would have been in the index
    rw [if_pos hn, if_neg hh, hn, ← hc, hnew]
    exact iff_of_false (fun e => hh (congrArg Handle.index (Option.some.inj e)).symm) nofun
  · -- what is in the index has a slot
    rw [if_neg hn, if_pos hh]
    refine iff_of_false (fun e => ?_) fun e => hn (Option.some.inj e).symm
    exact (lt_size_of_name? ((hc n h).1 e)).ne hh
  · rw [if_neg hn, if_neg hh, hc]

theorem fill (hc : c.Indexed) (k : Handle) (e : Entity) : (c.fill k e).Indexed := by
  intro n h
  rw [name?_fill]
  exact hc n h

theorem withForest (hc : c.Indexed) (f : Forest) : (c.withForest f).Indexed := hc

end Indexed

/-! ### The names of the slots -/

/-- The names of the slots, in order. -/
def names (c : Catalogue) : List String := (c.slots.map Slot.name).toList

theorem name?_eq (c : Catalogue) (h : Handle) : c.name? h = c.names[h.index]? := by
  simp [Catalogue.name?, Catalogue.slot?, names]

theorem names_push (c : Catalogue) (s : Slot) : (c.push s).names = c.names ++ [s.name] := by
  simp [names, push]

/-- Appending changes the slots and the index. -/
theorem append_eq (c : Catalogue) (slots : List Slot) : c.append slots =
    { c with slots := c.slots ++ slots.toArray, index := (c.append slots).index } := by
  induction slots generalizing c with
  | nil => rw [Array.append_empty]; rfl
  | cons s slots ih => exact (ih (c.push s)).trans (by simp [push]; rfl)

theorem slots_append (c : Catalogue) (slots : List Slot) :
    (c.append slots).slots = c.slots ++ slots.toArray := by
  rw [append_eq]

theorem isSealed_append (c : Catalogue) (slots : List Slot) :
    (c.append slots).isSealed = c.isSealed := by
  rw [append_eq]

/-- The index depends on the names of the slots alone. -/
theorem index_append_congr {slots slots' : List Slot}
    (h : slots.map Slot.name = slots'.map Slot.name) (hindex : c.index = c'.index)
    (hsize : c.size = c'.size) : (c.append slots).index = (c'.append slots').index := by
  induction slots generalizing c c' slots' with
  | nil =>
    obtain rfl := List.map_eq_nil_iff.1 h.symm
    exact hindex
  | cons s slots ih =>
    obtain ⟨s', slots', rfl, hs, hslots⟩ := List.map_eq_cons_iff.1 h.symm
    show ((c.push s).append slots).index = ((c'.push s').append slots').index
    refine ih hslots.symm ?_ ?_
    · rw [push, push, hindex, hs, show c.slots.size = c'.slots.size from hsize]
    · simpa [push, size] using hsize

theorem names_append (c : Catalogue) (slots : List Slot) :
    (c.append slots).names = c.names ++ slots.map Slot.name := by
  simp [names, slots_append]

theorem names_initial : initial.names = Primitive.all.map Primitive.name := by
  have hempty : empty.names = [] := by simp [names, empty]
  rw [initial, names_append, hempty, List.map_map]
  rfl

namespace Indexed

theorem handleOf?_eq_none_iff (hc : c.Indexed) {n : String} :
    c.handleOf? n = none ↔ n ∉ c.names := by
  rw [Option.eq_none_iff_forall_ne_some, List.mem_iff_getElem?, not_exists]
  constructor
  · intro h i hi
    exact h ⟨i⟩ ((hc n ⟨i⟩).2 ((c.name?_eq ⟨i⟩).trans hi))
  · intro h k hk
    exact h k.index ((c.name?_eq k).symm.trans ((hc n k).1 hk))

/-- No two slots have the same name. -/
theorem nodup_names (hc : c.Indexed) : c.names.Nodup := by
  rw [List.nodup_iff_getElem?_ne_getElem?]
  intro i j hij hj heq
  have hi : c.handleOf? c.names[j] = some ⟨i⟩ :=
    (hc _ ⟨i⟩).2 ((c.name?_eq ⟨i⟩).trans (heq.trans (List.getElem?_eq_getElem hj)))
  have hj' : c.handleOf? c.names[j] = some ⟨j⟩ :=
    (hc _ ⟨j⟩).2 ((c.name?_eq ⟨j⟩).trans (List.getElem?_eq_getElem hj))
  exact hij.ne (congrArg Handle.index (Option.some.inj (hi.symm.trans hj')))

theorem append (hc : c.Indexed) {slots : List Slot}
    (hn : (c.names ++ slots.map Slot.name).Nodup) : (c.append slots).Indexed := by
  induction slots generalizing c with
  | nil => exact hc
  | cons s slots ih =>
    have hnew : s.name ∉ c.names := fun hmem =>
      List.disjoint_of_nodup_append hn hmem List.mem_cons_self
    exact ih (hc.push (hc.handleOf?_eq_none_iff.2 hnew)) (by simpa [names_push] using hn)

theorem initial : Indexed initial := Indexed.empty.append (by decide +kernel)

end Indexed

/-- **A change keeps the index in step.** -/
theorem Change.indexed (h : Change c c') (hc : c.Indexed) : c'.Indexed := by
  cases h with
  | append _ hnew => exact hc.push hnew
  | fill => exact hc.fill _ _
  | freeze => exact hc.withForest _

theorem Changes.indexed (h : Changes c c') (hc : c.Indexed) : c'.Indexed :=
  h.keeps Change.indexed hc

/-! ## The names of definitions -/

/-- **A definition has the name of its slot.** -/
def Carried (c : Catalogue) : Prop := ∀ h e, c.get? h = some e → c.name? h = some e.name

namespace Carried

theorem nameOf_eq (hc : c.Carried) {h : Handle} {e : Entity} (he : c.get? h = some e) :
    c.nameOf h = e.name := by
  obtain ⟨s, hs, hname⟩ := Option.map_eq_some_iff.1 (hc h e he)
  rw [nameOf, hs]
  exact hname

/-- Where definitions have the names of their slots, one is its kind under that name. -/
theorem get?_of_kind? (hc : c.Carried) {h : Handle} {k : Kind} (hk : c.kind? h = some k) :
    c.get? h = some ⟨c.nameOf h, k⟩ := by
  obtain ⟨name, he⟩ := kind?_eq_some_iff.1 hk
  rw [he, hc.nameOf_eq he]

theorem empty : Carried empty := fun h e he => by
  simp [Catalogue.get?, Catalogue.slot?, Catalogue.empty] at he

theorem push (hc : c.Carried) {s : Slot} (hs : ∀ e, s.entity = some e → e.name = s.name) :
    (c.push s).Carried := by
  intro h e he
  rw [Catalogue.get?, slot?_push] at he
  rw [name?_push]
  split
  · rename_i hh
    rw [if_pos hh] at he
    rw [hs e he]
  · rename_i hh
    rw [if_neg hh] at he
    exact hc h e he

/-- A blank slot is filled in under its own name. -/
theorem fill (hc : c.Carried) {k : Handle} {name : String} {kind : Kind}
    (hs : c.slot? k = some ⟨name, none⟩) : (c.fill k ⟨name, kind⟩).Carried := by
  intro h e he
  rw [name?_fill]
  rw [Catalogue.get?, slot?_fill] at he
  split at he
  · rename_i hkh
    obtain rfl : k = h := congrArg Handle.mk hkh
    rw [hs] at he
    obtain rfl := Option.some.inj he
    rw [Catalogue.name?, hs]
    rfl
  · exact hc h e he

theorem append (hc : c.Carried) {slots : List Slot}
    (hs : ∀ s ∈ slots, ∀ e, s.entity = some e → e.name = s.name) : (c.append slots).Carried := by
  induction slots generalizing c with
  | nil => exact hc
  | cons s slots ih =>
    obtain ⟨hs, hslots⟩ := List.forall_mem_cons.1 hs
    exact ih (hc.push hs) hslots

theorem initial : Carried initial :=
  Carried.empty.append (by decide)

end Carried

/-- **A change leaves definitions with the names of their slots.** -/
theorem Change.carried (h : Change c c') (hc : c.Carried) : c'.Carried := by
  cases h with
  | append => exact hc.push nofun
  | fill _ hs => exact hc.fill hs
  | freeze => exact hc

theorem Changes.carried (h : Changes c c') (hc : c.Carried) : c'.Carried :=
  h.keeps Change.carried hc

end Marshal.Catalogue
