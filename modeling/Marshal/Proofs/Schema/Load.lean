import Marshal.Proofs.Catalogue.Sealing
import Marshal.Proofs.Schema.Meaning

/-!
# Loading schemas

Loading declares and defines the types of a schema one after the other. It comes to the same as making
each type by itself, with the names of all of them at hand (`load_eq`); that is proved by induction on
the types that are still to be defined, whose slots are blank. So loading seals the translation of the
schema (`load_eq_ok_iff`), every error is about the schema (`Document.refuses_of_load_eq_error`), and
what comes of a schema can be said without loading it (`Document.load_outcome`).
-/

namespace Marshal.Schema

open Outcome

variable {d : Document} {c : Catalogue}

/-! ## Aliases are passed over -/

theorem Document.types_cons (e : String × Definition) (d : Document) :
    Document.types (e :: d) = if e.2.isType then e :: d.types else d.types :=
  List.filter_cons

theorem declareAll_types (definitions : Document) (c : Catalogue) :
    declareAll definitions c = declareAll definitions.types c := by
  induction definitions generalizing c with
  | nil => rfl
  | cons e definitions ih =>
    obtain ⟨name, definition⟩ := e
    rw [declareAll, Document.types_cons]
    split
    · rename_i ht
      rw [declareAll, if_pos ht]
      rcases c.declare name with err | ⟨h, c'⟩
      · rfl
      · exact ih c'
    · exact ih c

theorem defineAll_types (definitions : Document) (c : Catalogue) :
    defineAll d definitions c = defineAll d definitions.types c := by
  induction definitions generalizing c with
  | nil => rfl
  | cons e definitions ih =>
    obtain ⟨name, definition⟩ := e
    rw [Document.types_cons]
    rcases definition with o | e | p
    · simp only [defineAll, ih, Definition.isType, if_true]
    · simp only [defineAll, ih, Definition.isType, if_true]
    · exact ih c

/-! ## Declaring -/

/-- Blank slots for the names of some definitions that are not taken. -/
def Document.blanks (taken : List String) (d : Document) : List Slot :=
  (d.filter fun e => e.1 ∉ taken).map fun e => ⟨e.1, none⟩

theorem names_blanks (taken : List String) (d : Document) :
    (d.blanks taken).map Slot.name = (Table.keys d).filter fun name => name ∉ taken := by
  simp only [Document.blanks, List.map_map, Table.keys, List.filter_map]
  rfl

section Blanks

variable {taken : List String} {e : String × Definition}

theorem blanks_cons_of_mem (h : e.1 ∈ taken) (d : Document) :
    Document.blanks taken (e :: d) = d.blanks taken := by
  simp [Document.blanks, h]

theorem blanks_cons_of_new (h : e.1 ∉ taken) (d : Document) :
    Document.blanks taken (e :: d) = ⟨e.1, none⟩ :: d.blanks taken := by
  simp [Document.blanks, h]

/-- A name that is not among the definitions may as well be taken. -/
theorem blanks_append_singleton {name : String} (h : name ∉ Table.keys d) :
    d.blanks (taken ++ [name]) = d.blanks taken := by
  have hne : ∀ e ∈ d, e.1 ≠ name := fun e he hname =>
    h (hname ▸ List.mem_map_of_mem (f := Prod.fst) he)
  rw [Document.blanks, Document.blanks, List.filter_congr]
  intro e he
  simp [hne e he]

end Blanks

/-- **Declaring types** puts blank slots behind what is there, for the names that are new. -/
theorem declareAll_eq {ts : Document} (ht : ∀ e ∈ ts, e.2.isType = true)
    (hn : (Table.keys ts).Nodup) (hc : c.Indexed) (hopen : c.isSealed = false) :
    declareAll ts c = .ok (c.append (ts.blanks c.names)) := by
  induction ts generalizing c with
  | nil => rfl
  | cons e ts ih =>
    obtain ⟨hnew, hn⟩ := List.nodup_cons.1 hn
    obtain ⟨hte, ht⟩ := List.forall_mem_cons.1 ht
    rw [declareAll, if_pos hte]
    by_cases hmem : e.1 ∈ c.names
    · obtain ⟨h, hdeclare⟩ := Catalogue.exists_declare_of_mem hc hmem
      rw [hdeclare, blanks_cons_of_mem hmem]
      exact ih ht hn hc hopen
    · have hpush := hc.push (s := ⟨e.1, none⟩) (hc.handleOf?_eq_none_iff.2 hmem)
      rw [Catalogue.declare_of_new hc hopen hmem, blanks_cons_of_new hmem]
      refine (ih ht hn hpush hopen).trans ?_
      rw [Catalogue.names_push, blanks_append_singleton hnew]
      rfl

/-! ## Defining -/

/-- What is made of a definition depends on the index of the catalogue alone. -/
theorem kind_congr {c' : Catalogue} (h : c.index = c'.index) : kind d c = kind d c' := by
  have hlookUp : lookUp d c = lookUp d c' := by
    funext context name
    rw [lookUp, lookUp, handleOf?_congr h]
  have hreference : reference d c = reference d c' := by
    funext context t
    induction t with
    | named name => rw [reference, reference, hlookUp]
    | collection _ _ _ ih => rw [reference, reference, ih]
  have hproperty : property d c = property d c' := by
    funext owner f
    rw [property, property, hreference]
  have hobject : object d c = object d c' := by
    funext name o
    rw [object, object, hlookUp, hproperty]
  funext name definition
  rcases definition with o | _ | _
  · rw [kind, kind, hobject]
  · rfl
  · rfl

theorem exists_kind_of_isType {name : String} {definition : Definition}
    (ht : definition.isType = true) {k : Option Kind} (hk : kind d c name definition = .ok k) :
    ∃ k', k = some k' ∧ ∀ p, k' ≠ .primitive p := by
  rcases definition with o | e | p
  · rw [kind, map_eq_ok_iff] at hk
    obtain ⟨t, -, rfl⟩ := hk
    exact ⟨_, rfl, fun p hp => by cases hp⟩
  · cases hk
    exact ⟨_, rfl, fun p hp => by cases hp⟩
  · cases ht

/-- The type that is made of a definition by itself, with the names of a catalogue at hand. The name
of a primitive is not free. -/
def slot (d : Document) (c : Catalogue) (e : String × Definition) : Except LoadError Slot := do
  let k ← kind d c e.1 e.2
  if e.1 ∈ Catalogue.initial.names then .error (.defining e.1 (.duplicateType e.1))
  else return ⟨e.1, k.map fun k => ⟨e.1, k⟩⟩

section Steps

variable {e : String × Definition} {h : Handle} {k : Kind}

theorem defineAll_cons_of_ok {c' : Catalogue} (hk : kind d c e.1 e.2 = .ok (some k))
    (hh : c.handleOf? e.1 = some h) (hdefine : c.define h k = .ok c') (ts : Document) :
    defineAll d (e :: ts) c = defineAll d ts c' := by
  rw [defineAll, hk]
  simp only [bind, Except.bind, hh, hdefine]

theorem defineAll_cons_of_error {err : CatalogueError} (hk : kind d c e.1 e.2 = .ok (some k))
    (hh : c.handleOf? e.1 = some h) (hdefine : c.define h k = .error err) (ts : Document) :
    defineAll d (e :: ts) c = .error (.defining e.1 err) := by
  rw [defineAll, hk]
  simp only [bind, Except.bind, hh, hdefine]

theorem defineAll_cons_of_kind_eq_error {err : LoadError} (hk : kind d c e.1 e.2 = .error err)
    (ts : Document) : defineAll d (e :: ts) c = .error err := by
  rw [defineAll, hk]
  rfl

end Steps

/-- The catalogue while types are being defined: those to come are blank. -/
def halfway (declared : Catalogue) (before : List Slot) (ts : Document) : Catalogue :=
  { declared with slots := (before ++ ts.blanks Catalogue.initial.names).toArray }

/-- What stays so while types are being defined: the primitives are there, and the names are those of
the catalogue after the declarations. -/
structure Halfway (declared : Catalogue) (before : List Slot) (ts : Document) : Prop where
  isOpen : (halfway declared before ts).isSealed = false
  indexed : declared.Indexed
  primitives (p : Primitive) : before[p.handle.index]? = some ⟨p.name, some ⟨p.name, .primitive p⟩⟩
  names : (halfway declared before ts).names = declared.names

/-- The slot between what is before it and what is after it, filled in. -/
theorem modify_append_cons {α : Type} (before after : List α) (a : α) (f : α → α) :
    (before ++ a :: after).toArray.modify before.length f = (before ++ f a :: after).toArray := by
  rw [List.modify_toArray, List.modify]
  exact congrArg _ (List.modifyTailIdx_add (List.modifyHead f) 0 before (a :: after))

namespace Halfway

variable {declared : Catalogue} {before : List Slot} {e : String × Definition} {ts : Document}

theorem handleOf? (H : Halfway declared before ts) {h : Handle} {s : Slot}
    (hs : (halfway declared before ts).slot? h = some s) :
    (halfway declared before ts).handleOf? s.name = some h := by
  refine (H.indexed s.name h).2 ?_
  rw [Catalogue.name?_eq, ← H.names, ← Catalogue.name?_eq, Catalogue.name?, hs, Option.map_some]

theorem slot?_handle (H : Halfway declared before ts) (p : Primitive) :
    (halfway declared before ts).slot? p.handle = some ⟨p.name, some ⟨p.name, .primitive p⟩⟩ := by
  obtain ⟨hlt, -⟩ := List.getElem?_eq_some_iff.1 (H.primitives p)
  rw [halfway, Catalogue.slot?, List.getElem?_toArray, List.getElem?_append_left hlt, H.primitives]

/-- A type with the name of a primitive is refused: the name leads to the primitive. -/
theorem defineAll_of_mem (H : Halfway declared before (e :: ts))
    (hmem : e.1 ∈ Catalogue.initial.names) {k : Kind} (hkind : ∀ p, k ≠ .primitive p)
    (hk : kind d (halfway declared before (e :: ts)) e.1 e.2 = .ok (some k)) :
    defineAll d (e :: ts) (halfway declared before (e :: ts)) =
      .error (.defining e.1 (.duplicateType e.1)) := by
  obtain ⟨p, hp⟩ := mem_names_initial.1 hmem
  have hslot := H.slot?_handle p
  rw [hp] at hslot
  exact defineAll_cons_of_error hk (H.handleOf? hslot)
    (Catalogue.define_of_other H.isOpen hslot (hkind p).symm) ts

/-- Any other type is put into its slot. -/
theorem defineAll_of_new (H : Halfway declared before (e :: ts))
    (hnew : e.1 ∉ Catalogue.initial.names) {k : Kind}
    (hk : kind d (halfway declared before (e :: ts)) e.1 e.2 = .ok (some k)) :
    defineAll d (e :: ts) (halfway declared before (e :: ts)) =
      defineAll d ts (halfway declared (before ++ [⟨e.1, some ⟨e.1, k⟩⟩]) ts) := by
  have hhalfway : halfway declared before (e :: ts) = { declared with slots :=
      (before ++ ⟨e.1, none⟩ :: ts.blanks Catalogue.initial.names).toArray } := by
    rw [halfway, blanks_cons_of_new hnew]
  have hslot : (halfway declared before (e :: ts)).slot? ⟨before.length⟩ = some ⟨e.1, none⟩ := by
    rw [hhalfway]
    simp [Catalogue.slot?]
  have hfill : (halfway declared before (e :: ts)).fill ⟨before.length⟩ ⟨e.1, k⟩ =
      halfway declared (before ++ [⟨e.1, some ⟨e.1, k⟩⟩]) ts := by
    rw [hhalfway, Catalogue.fill, modify_append_cons, halfway, List.append_assoc]
    rfl
  rw [← hfill]
  exact defineAll_cons_of_ok hk (H.handleOf? hslot) (Catalogue.define_of_blank H.isOpen hslot) ts

theorem step (H : Halfway declared before (e :: ts)) (hnew : e.1 ∉ Catalogue.initial.names)
    (k : Option Entity) : Halfway declared (before ++ [⟨e.1, k⟩]) ts where
  isOpen := H.isOpen
  indexed := H.indexed
  primitives p := by
    obtain ⟨hlt, -⟩ := List.getElem?_eq_some_iff.1 (H.primitives p)
    rw [List.getElem?_append_left hlt, H.primitives p]
  names := by
    rw [← H.names, halfway, halfway, blanks_cons_of_new hnew]
    simp [Catalogue.names]

end Halfway

/-- **Defining types** fills in the blank slots with what is made of each definition by itself. The
induction is on the types to be defined. -/
theorem defineAll_eq {declared : Catalogue} {before : List Slot} {ts : Document}
    (H : Halfway declared before ts) (ht : ∀ e ∈ ts, e.2.isType = true) :
    defineAll d ts (halfway declared before ts) = (ts.mapM (slot d declared)).map fun slots =>
      { declared with slots := (before ++ slots).toArray } := by
  induction ts generalizing before with
  | nil => rfl
  | cons e ts ih =>
    obtain ⟨hte, ht⟩ := List.forall_mem_cons.1 ht
    have hkind : kind d (halfway declared before (e :: ts)) = kind d declared := kind_congr rfl
    rw [List.mapM_cons, slot, ← hkind]
    rcases hk : kind d (halfway declared before (e :: ts)) e.1 e.2 with err | k
    · rw [defineAll_cons_of_kind_eq_error hk]
      rfl
    obtain ⟨k, rfl, hprimitive⟩ := exists_kind_of_isType hte hk
    by_cases hmem : e.1 ∈ Catalogue.initial.names
    · rw [H.defineAll_of_mem hmem hprimitive hk]
      simp only [hmem, if_true]
      rfl
    · rw [H.defineAll_of_new hmem hk, ih (H.step hmem _) ht]
      simp only [hmem, if_false]
      rcases List.mapM (slot d declared) ts with err | slots
      · rfl
      · simp [bind, Except.bind, pure, Except.pure, Except.map]

/-! ## Loading -/

/-- The catalogue after the declarations: the types are blank. A type with the name of a primitive
has no slot of its own. -/
def Document.declared (d : Document) : Catalogue :=
  Catalogue.initial.append (d.types.blanks Catalogue.initial.names)

theorem names_declared (d : Document) : d.declared.names =
    Catalogue.initial.names ++
      (Table.keys d.types).filter fun name => name ∉ Catalogue.initial.names := by
  rw [Document.declared, Catalogue.names_append, names_blanks]

theorem mem_names_declared {e : String × Definition} (he : e ∈ d.types) :
    e.1 ∈ d.declared.names := by
  rw [names_declared, List.mem_append, List.mem_filter]
  by_cases hmem : e.1 ∈ Catalogue.initial.names
  · exact .inl hmem
  · exact .inr ⟨List.mem_map_of_mem he, by simpa using hmem⟩

theorem indexed_declared (hd : Table.Ascending d) : d.declared.Indexed := by
  have hkeys : (Table.keys d.types).Nodup := hd.nodup.sublist d.keys_types_sublist
  refine Catalogue.Indexed.initial.append ?_
  rw [names_blanks]
  exact Catalogue.Indexed.initial.nodup_names.append (hkeys.filter _) fun name hi hf => by
    simp [hi] at hf

theorem isSealed_declared (d : Document) : d.declared.isSealed = false :=
  Catalogue.isSealed_append _ _

/-- The last step of loading. -/
def conclude (c : Catalogue) : Except LoadError Catalogue :=
  match c.trySeal with
  | .ok c => .ok c
  | .error e => .error (.sealing e)

theorem conclude_eq_ok_iff {c' : Catalogue} : conclude c = .ok c' ↔ c.trySeal = .ok c' := by
  rw [conclude]
  cases c.trySeal <;> simp

theorem conclude_eq_error_iff {e : LoadError} :
    conclude c = .error e ↔ ∃ err, c.trySeal = .error err ∧ e = .sealing err := by
  rw [conclude]
  cases c.trySeal <;> simp [eq_comm]

theorem slot_eq_ok_iff {e : String × Definition} {s : Slot} :
    slot d c e = .ok s ↔
      e.1 ∉ Catalogue.initial.names ∧ s.name = e.1 ∧
        ∃ k, kind d c e.1 e.2 = .ok k ∧ s.entity = k.map fun k => ⟨e.1, k⟩ := by
  rw [slot, bind_eq_ok_iff]
  constructor
  · rintro ⟨k, hk, hs⟩
    split at hs
    · cases hs
    · rename_i hfree
      cases hs
      exact ⟨hfree, rfl, k, hk, rfl⟩
  · rintro ⟨hfree, hname, k, hk, he⟩
    exact ⟨k, hk, by rw [if_neg hfree, ← he, ← hname]; rfl⟩

/-- What is made of the types has their names, so the index of the declarations fits it. -/
theorem with_slots_declared {slots : List Slot} (h : d.types.mapM (slot d d.declared) = .ok slots) :
    { d.declared with slots := (Catalogue.initial.slots.toList ++ slots).toArray } =
      Catalogue.initial.append slots := by
  have hslots := (mapM_eq_ok_iff.1 h).imp fun _ _ => slot_eq_ok_iff.1
  have hnames : (d.types.blanks Catalogue.initial.names).map Slot.name = slots.map Slot.name := by
    clear h
    rw [names_blanks]
    generalize d.types = ts at hslots
    induction hslots with
    | nil => rfl
    | cons he _ ih =>
      obtain ⟨hfree, hname, -⟩ := he
      rw [List.map_cons, ← ih, hname]
      exact List.filter_cons_of_pos (by simpa using hfree)
  have hindex : d.declared.index = (Catalogue.initial.append slots).index :=
    Catalogue.index_append_congr hnames rfl rfl
  have hdeclared : d.declared =
      { Catalogue.initial with slots := d.declared.slots, index := d.declared.index } := by
    rw [Document.declared, Catalogue.append_eq]
  rw [← List.append_toArray, Array.toArray_toList, Catalogue.append_eq .initial slots, ← hindex,
    hdeclared]

/-- **Loading** makes every type by itself and seals the catalogue of them all. -/
theorem load_eq (hd : Table.Ascending d) :
    d.load = d.types.mapM (slot d d.declared) >>= fun slots =>
      conclude (Catalogue.initial.append slots) := by
  have ht : ∀ e ∈ d.types, e.2.isType = true := fun e he => (Document.mem_types.1 he).2
  have hhalfway : halfway d.declared Catalogue.initial.slots.toList d.types = d.declared := by
    rw [halfway, ← List.append_toArray, Array.toArray_toList, ← Catalogue.slots_append]
    rfl
  have H : Halfway d.declared Catalogue.initial.slots.toList d.types :=
    { isOpen := isSealed_declared d
      indexed := indexed_declared hd
      primitives := fun p => by rw [Array.getElem?_toList]; exact slot?_initial p
      names := by rw [hhalfway] }
  have hdeclare : declareAll d .initial = .ok d.declared := by
    rw [declareAll_types, declareAll_eq ht (hd.nodup.sublist d.keys_types_sublist) .initial rfl]
    rfl
  have hdefine : defineAll d d d.declared =
      (d.types.mapM (slot d d.declared)).map Catalogue.initial.append := by
    rw [defineAll_types]
    refine (congrArg (defineAll d d.types) hhalfway.symm).trans ((defineAll_eq H ht).trans ?_)
    rcases hslots : d.types.mapM (slot d d.declared) with err | slots
    · rfl
    · exact congrArg Except.ok (with_slots_declared hslots)
  have hload : d.load = declareAll d .initial >>= fun c => defineAll d d c >>= conclude := rfl
  rw [hload, hdeclare]
  refine (congrArg (· >>= conclude) hdefine).trans ?_
  cases d.types.mapM (slot d d.declared) <;> rfl

/-! ## What loading gives -/

theorem not_collides_iff : ¬ d.Collides ↔ ∀ e ∈ d.types, e.1 ∉ Catalogue.initial.names := by
  simp only [mem_names_initial]
  constructor
  · rintro h ⟨_, definition⟩ he ⟨p, rfl⟩
    exact h ⟨p, definition, he⟩
  · rintro h ⟨p, definition, he⟩
    exact h _ he ⟨p, rfl⟩

theorem placed_declared (hd : Table.Ascending d) (hfree : ¬ d.Collides) :
    d.Placed d.declared where
  indexed := indexed_declared hd
  names := by
    rw [names_declared, List.filter_eq_self.2]
    intro name hname
    obtain ⟨e, he, rfl⟩ := List.mem_map.1 hname
    simpa using not_collides_iff.1 hfree e he

/-- Making a type by itself fails where its kind cannot be made, and else only if its name is taken. -/
theorem slot_eq_error {e : String × Definition} {err : LoadError} (h : slot d c e = .error err) :
    kind d c e.1 e.2 = .error err ∨
      e.1 ∈ Catalogue.initial.names ∧ err = .defining e.1 (.duplicateType e.1) := by
  rw [slot, bind_eq_error_iff] at h
  rcases h with h | ⟨k, -, h⟩
  · exact .inl h
  · split at h
    · rename_i hmem
      cases h
      exact .inr ⟨hmem, rfl⟩
    · cases h

theorem denotesType_iff
    (hm : ∀ {name : String} {h : Handle}, handleOf? d c name = some h ↔ d.Means name h)
    {e : String × Definition} {s : Slot} :
    d.DenotesType e s ↔ e.2.isType = true ∧ s.name = e.1 ∧
      ∃ k, kind d c e.1 e.2 = .ok k ∧ s.entity = k.map fun k => ⟨e.1, k⟩ := by
  constructor
  · rintro ⟨hname, k, he, hdenotes⟩
    exact ⟨hdenotes.isType, hname, some k,
      (kind_eq_ok_iff hm hdenotes.isType).2 ⟨k, hdenotes, rfl⟩, he⟩
  · rintro ⟨ht, hname, k, hk, he⟩
    obtain ⟨k, hdenotes, rfl⟩ := (kind_eq_ok_iff hm ht).1 hk
    exact ⟨hname, k, he, hdenotes⟩

/-- The types that are made one by one are what the definitions denote, unless a type has the name of
a primitive. -/
theorem mapM_slot_eq_ok_iff (hd : Table.Ascending d) {slots : List Slot} :
    d.types.mapM (slot d d.declared) = .ok slots ↔
      ¬ d.Collides ∧ List.Forall₂ d.DenotesType d.types slots := by
  have ht : ∀ e ∈ d.types, e.2.isType = true := fun e he => (Document.mem_types.1 he).2
  rw [mapM_eq_ok_iff]
  simp only [slot_eq_ok_iff, List.forall₂_and_left, not_collides_iff]
  refine and_congr_right fun hfree => ?_
  have hm {name : String} {h : Handle} : handleOf? d d.declared name = some h ↔ d.Means name h :=
    handleOf?_eq_some_iff_means hd (placed_declared hd (not_collides_iff.2 hfree))
  have hdenotes : d.DenotesType = fun e s => e.2.isType = true ∧ s.name = e.1 ∧
      ∃ k, kind d d.declared e.1 e.2 = .ok k ∧ s.entity = k.map fun k => ⟨e.1, k⟩ := by
    funext e s
    exact propext (denotesType_iff hm)
  rw [hdenotes, List.forall₂_and_left, and_iff_right ht]

theorem load_eq_ok_iff (hd : Table.Ascending d) :
    d.load = .ok c ↔ ¬ d.Collides ∧ ∃ c₀, d.Translates c₀ ∧ c₀.trySeal = .ok c := by
  rw [load_eq hd, bind_eq_ok_iff]
  simp only [mapM_slot_eq_ok_iff hd, conclude_eq_ok_iff]
  constructor
  · rintro ⟨slots, ⟨hfree, hslots⟩, hseal⟩
    exact ⟨hfree, _, ⟨slots, hslots, rfl⟩, hseal⟩
  · rintro ⟨hfree, _, ⟨slots, hslots, rfl⟩, hseal⟩
    exact ⟨slots, ⟨hfree, hslots⟩, hseal⟩

/-! ## The translation of a schema -/

theorem Document.Translates.unique (hd : Table.Ascending d) (hfree : ¬ d.Collides) {c' : Catalogue}
    (h : d.Translates c) (h' : d.Translates c') : c = c' := by
  obtain ⟨slots, hslots, rfl⟩ := h
  obtain ⟨slots', hslots', rfl⟩ := h'
  have heq := ((mapM_slot_eq_ok_iff hd).2 ⟨hfree, hslots⟩).symm.trans
    ((mapM_slot_eq_ok_iff hd).2 ⟨hfree, hslots'⟩)
  cases heq
  rfl

theorem Document.Translates.means (h : d.Translates c) {context name : String}
    (hu : d.Uses context name) : ∃ h, d.Means name h := by
  obtain ⟨slots, hslots, -⟩ := h
  obtain ⟨e, he, huses⟩ := hu
  obtain ⟨s, -, -, k, -, hk⟩ := forall₂_exists_left hslots (mem_types.2 ⟨he, huses.isType⟩)
  exact hk.means huses

theorem Document.Translates.size (h : d.Translates c) : c.size = 8 + d.types.length := by
  obtain ⟨slots, hslots, rfl⟩ := h
  rw [Catalogue.size, Catalogue.slots_append, Array.size_append, List.size_toArray, hslots.length_eq]
  rfl

theorem map_name_of_denotesType {ts : Document} {slots : List Slot}
    (h : List.Forall₂ d.DenotesType ts slots) : slots.map Slot.name = Table.keys ts := by
  induction h with
  | nil => rfl
  | cons he _ ih => rw [List.map_cons, he.name, ih, Table.keys, Table.keys, List.map_cons]

theorem Document.Translates.placed (hd : Table.Ascending d) (hfree : ¬ d.Collides)
    (h : d.Translates c) : d.Placed c := by
  obtain ⟨slots, hslots, rfl⟩ := h
  have hnames : (Catalogue.initial.append slots).names =
      Catalogue.initial.names ++ Table.keys d.types := by
    rw [Catalogue.names_append, map_name_of_denotesType hslots]
  refine ⟨.append .initial ?_, hnames⟩
  have hc := placed_declared hd hfree
  rw [map_name_of_denotesType hslots, ← hc.names]
  exact hc.indexed.nodup_names

theorem Document.Translates.resolve (h : d.Translates c) {i : Nat} {name : String}
    {definition : Definition} (hi : d.types[i]? = some (name, definition)) :
    ∃ k, definition.Denotes d k ∧ c.resolve ⟨8 + i⟩ = .ok ⟨name, k⟩ := by
  obtain ⟨slots, hslots, rfl⟩ := h
  obtain ⟨hlt, hget⟩ := List.getElem?_eq_some_iff.1 hi
  have hlt' : i < slots.length := hslots.length_eq ▸ hlt
  obtain ⟨hname, k, hk, hdenotes⟩ := hslots.get hlt hlt'
  simp only [List.get_eq_getElem, hget] at hk hdenotes
  have hslot : (Catalogue.initial.append slots).slot? ⟨8 + i⟩ = some slots[i] := by
    have hsize : Catalogue.initial.slots.size = 8 := rfl
    simp [Catalogue.slot?, Catalogue.slots_append, hsize, hlt']
  refine ⟨k, hdenotes, Catalogue.resolve_eq_ok_iff.2 ?_⟩
  rw [Catalogue.get?, hslot]
  exact hk

theorem Document.Translates.resolve_primitive (h : d.Translates c) (p : Primitive) :
    c.resolve p.handle = .ok ⟨p.name, .primitive p⟩ := by
  obtain ⟨slots, -, rfl⟩ := h
  have hslot : (Catalogue.initial.append slots).slot? p.handle =
      some ⟨p.name, some ⟨p.name, .primitive p⟩⟩ := by
    rw [← slot?_initial, Catalogue.slot?, Catalogue.slots_append]
    exact Array.getElem?_append_left (Catalogue.lt_size_of_slot? (slot?_initial p))
  exact Catalogue.resolve_eq_ok_iff.2 (Catalogue.get?_eq_some_iff.2 ⟨_, hslot⟩)

/-! ## The outcome -/

/-- What an error says of the schema. -/
def Document.Refuses (d : Document) : LoadError → Prop
  | .unknownTarget name context => d.Uses context name ∧ d.Unknown name
  | .declaring _ _ => False
  | .defining name e => e = .duplicateType name ∧
    ∃ (p : Primitive) (definition : Definition), p.name = name ∧ (p.name, definition) ∈ d.types
  | .sealing e => ∃ c, d.Translates c ∧ c.check = .error e

/-- **What an error says is so.** Loading reports a name that is used and unknown, a type with the name
of a primitive, or a rule that the translation breaks, and nothing else. -/
theorem Document.refuses_of_load_eq_error (hd : Table.Ascending d) {e : LoadError}
    (he : d.load = .error e) : d.Refuses e := by
  rw [load_eq hd, bind_eq_error_iff] at he
  rcases he with he | ⟨slots, hslots, he⟩
  · obtain ⟨before, entry, after, htypes, -, hslot⟩ := mapM_eq_error_iff.1 he
    have hmem : entry ∈ d.types := htypes ▸ by simp
    rcases slot_eq_error hslot with hkind | ⟨hname, rfl⟩
    · obtain ⟨context, used, huses, hnone, rfl⟩ := exists_uses_of_kind_eq_error hkind
      exact ⟨⟨entry, (mem_types.1 hmem).1, huses⟩,
        (handleOf?_eq_none_iff hd (indexed_declared hd) fun _ => mem_names_declared).1 hnone⟩
    · obtain ⟨p, hp⟩ := mem_names_initial.1 hname
      exact ⟨rfl, p, entry.2, hp, hp ▸ hmem⟩
  · obtain ⟨err, herr, rfl⟩ := conclude_eq_error_iff.1 he
    exact ⟨_, ⟨slots, ((mapM_slot_eq_ok_iff hd).1 hslots).2, rfl⟩,
      (Catalogue.trySeal_eq_error_iff (Catalogue.isSealed_append _ _)).1 herr⟩

/-- A catalogue that a schema was loaded into. -/
structure Document.Loaded (d : Document) (c : Catalogue) : Prop where
  isSealed : c.isSealed = true
  size : c.size = 8 + d.types.length
  /-- The types are behind the primitives. -/
  primitive (p : Primitive) : c.resolve p.handle = .ok ⟨p.name, .primitive p⟩
  /-- The handle of a type is its place among the types, and what it denotes is found there. -/
  type (i : Nat) (name : String) (definition : Definition) :
    d.types[i]? = some (name, definition) → c.handleOf? name = some ⟨8 + i⟩ ∧
      ∃ k, definition.Denotes d k ∧ c.resolve ⟨8 + i⟩ = .ok ⟨name, k⟩
  /-- A name that is used means one type, wherever it is used. -/
  used (context name : String) : d.Uses context name →
    ∃ h e, c.resolve h = .ok e ∧ ∀ h', d.Means name h' ↔ h' = h

/-- **What loading gives.** -/
theorem Document.loaded_of_load_eq_ok (hd : Table.Ascending d) (hc : d.load = .ok c) :
    d.Loaded c := by
  obtain ⟨hfree, c₀, htranslates, hseal⟩ := (load_eq_ok_iff hd).1 hc
  have hopen : c₀.isSealed = false := by
    obtain ⟨slots, -, rfl⟩ := htranslates
    exact Catalogue.isSealed_append _ _
  obtain ⟨f, -, rfl⟩ := (Catalogue.trySeal_eq_ok_iff_check hopen).1 hseal
  -- sealing leaves the types and their names as they are
  have hplaced : d.Placed (c₀.withForest f) :=
    ⟨(htranslates.placed hd hfree).indexed.withForest f, (htranslates.placed hd hfree).names⟩
  have htype (i : Nat) (name : String) (definition : Definition)
      (hi : d.types[i]? = some (name, definition)) :
      ∃ k, definition.Denotes d k ∧ (c₀.withForest f).resolve ⟨8 + i⟩ = .ok ⟨name, k⟩ :=
    htranslates.resolve hi
  have hprimitive (p : Primitive) :
      (c₀.withForest f).resolve p.handle = .ok ⟨p.name, .primitive p⟩ :=
    htranslates.resolve_primitive p
  exact
    { isSealed := rfl
      size := htranslates.size
      primitive := hprimitive
      type := fun i name definition hi => ⟨hplaced.handleOf? hi, htype i name definition hi⟩
      used := fun context name hu => by
        obtain ⟨h, hh⟩ := htranslates.means hu
        have hunique (h' : Handle) : d.Means name h' ↔ h' = h := by
          rw [← handleOf?_eq_some_iff_means hd hplaced] at hh ⊢
          rw [hh, Option.some.injEq, eq_comm]
        cases hh with
        | type hi =>
          obtain ⟨k, -, hk⟩ := htype _ _ _ hi
          exact ⟨_, _, hk, hunique⟩
        | synonym => exact ⟨_, _, hprimitive _, hunique⟩
        | primitive => exact ⟨_, _, hprimitive _, hunique⟩ }

/-- Why a schema cannot be loaded, said without loading it. -/
theorem Document.exists_load_eq_error_iff (hd : Table.Ascending d) :
    (∃ e, d.load = .error e) ↔ (∃ context name, d.Uses context name ∧ d.Unknown name) ∨
      d.Collides ∨ ∃ c, d.Translates c ∧ ¬ c.WellFormed := by
  constructor
  · rintro ⟨e, he⟩
    have hrefuses := refuses_of_load_eq_error hd he
    rcases e with ⟨name, context⟩ | _ | ⟨name, e⟩ | e
    · exact .inl ⟨context, name, hrefuses⟩
    · exact hrefuses.elim
    · obtain ⟨-, p, definition, -, hmem⟩ := hrefuses
      exact .inr (.inl ⟨p, definition, hmem⟩)
    · obtain ⟨c, hc, hcheck⟩ := hrefuses
      refine .inr (.inr ⟨c, hc, fun hw => ?_⟩)
      obtain ⟨f, hf⟩ := Catalogue.exists_check_iff.2 hw
      rw [hcheck] at hf
      cases hf
  · intro h
    by_contra hnone
    obtain ⟨c, hc⟩ := exists_eq_ok_iff.2 hnone
    obtain ⟨hfree, c₀, htranslates, hseal⟩ := (load_eq_ok_iff hd).1 hc
    rcases h with ⟨context, name, huses, hunknown⟩ | hcollides | ⟨c', hc', hw⟩
    · obtain ⟨h, hh⟩ := htranslates.means huses
      exact hh.not_unknown hunknown
    · exact hfree hcollides
    · obtain rfl := htranslates.unique hd hfree hc'
      obtain ⟨slots, -, rfl⟩ := htranslates
      obtain ⟨f, hf, -⟩ :=
        (Catalogue.trySeal_eq_ok_iff_check (Catalogue.isSealed_append _ _)).1 hseal
      exact hw (Catalogue.exists_check_iff.1 ⟨f, hf⟩)

/-- **The outcome of loading a schema.** It fails exactly if a name is used that is unknown, if a type
has the name of a primitive, or if the translation of the schema breaks a structural rule. Otherwise
the translation is sealed. -/
theorem Document.load_outcome (hd : Table.Ascending d) :
    ((∃ e, d.load = .error e) ↔ (∃ context name, d.Uses context name ∧ d.Unknown name) ∨
      d.Collides ∨ ∃ c, d.Translates c ∧ ¬ c.WellFormed) ∧
    ∀ c, d.load = .ok c → d.Loaded c :=
  ⟨exists_load_eq_error_iff hd, fun _ => loaded_of_load_eq_ok hd⟩

/-- A field of which no more than the type is said. -/
def Field.plain (name : String) (target : Target) : Field :=
  ⟨name, target, false, false, false, none, none, false, false, none, false⟩

/-- An object type of which no more than the base and the fields is said. -/
def ObjectDefinition.plain (base : Option String) (fields : List Field) : ObjectDefinition :=
  ⟨fields, base, false, none, none, none, none⟩

/-- A schema of plants on plots. Its types use each other and themselves, and `"integer"` is another
name of the long integers. -/
def garden : Document :=
  [("Colour", .enumeration ⟨[⟨"Red", "red"⟩, ⟨"White", "white"⟩], true, false⟩),
    ("Label", .alias .string),
    ("Plant", .object (.plain (some "Thing") [
      .plain "plot" (.named "Plot"),
      .plain "colour" (.named "Colour"),
      .plain "neighbours" (.collection .sequence (.named "Plant") false)])),
    ("Plot", .object (.plain (some "Thing") [
      .plain "plants" (.collection .mapping (.collection .sequence (.named "Plant") false) false),
      .plain "area" (.named "integer")])),
    ("Thing", .object (.plain none [.plain "label" (.named "Label")])),
    ("integer", .alias .long)]

/-- The garden is loaded; without its labels it is not. -/
theorem load_outcome_garden :
    Table.Ascending garden ∧
      (∃ c, garden.load = .ok c ∧ garden.Loaded c ∧ c.handleOf? "Plot" = some ⟨10⟩) ∧
      ∃ e, Document.load (garden.filter fun e => e.1 ≠ "Label") = .error e := by
  have hascending : Table.Ascending garden := by decide
  refine ⟨hascending, ?_, ?_⟩
  · obtain ⟨c, hc⟩ : ∃ c, garden.load = .ok c := by
      have hok : garden.load.toBool = true := by decide +kernel
      rcases h : garden.load with e | c
      · rw [h] at hok
        cases hok
      · exact ⟨c, rfl⟩
    have hloaded := (Document.load_outcome hascending).2 c hc
    exact ⟨c, hc, hloaded, (hloaded.type 2 "Plot" _ rfl).1⟩
  · have hfiltered : Table.Ascending (garden.filter fun e => e.1 ≠ "Label") := hascending.filter _
    have huses : Document.Uses (garden.filter fun e => e.1 ≠ "Label") ("Thing" ++ "." ++ "label")
        "Label" :=
      ⟨_, List.mem_of_getElem? (i := 3) rfl,
        .field (o := .plain none _) (f := .plain "label" _) (List.mem_singleton_self _)⟩
    have hunknown : Document.Unknown (garden.filter fun e => e.1 ≠ "Label") "Label" :=
      ⟨by decide, fun p => by cases p <;> decide⟩
    exact (Document.load_outcome hfiltered).1.2 (.inl ⟨_, _, huses, hunknown⟩)

end Marshal.Schema
