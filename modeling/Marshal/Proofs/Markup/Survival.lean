import Marshal.Proofs.Markup.Parts
import Marshal.Proofs.Value.Canonical

/-!
# What survives markup

Not every object that is written as markup can be read back. Nulls and empty flattened sequences
leave nothing behind, prefixes are cut off names, and a subtype that nothing tells apart is read
along the plan of the declared type. `Readable` asks of every object that is written inside of a value
(`Inside`) that reading it is not refused for one of these reasons, and `Definite` that nothing in it
is lost at all.
-/

namespace Marshal

namespace Catalogue

variable {c : Catalogue} {r r' : Reference} {v v' : Value} {m allowed : Bool} {vs : List Value}
  {es : List (String × Value)} {k : String} {h t : Handle} {fields : List (String × Value)}
  {p : Property}

/-! ## Values that are written -/

/-- **The second value is written inside of the first**, where the references are expected. The
discriminator of an object is not, since the word of its type is written in its place, and neither
are captured entries under names of properties. -/
inductive Inside (c : Catalogue) (f : Format) (r' : Reference) (v' : Value) :
    Reference → Value → Prop where
  | refl : Inside c f r' v' r' v'
  | item {r : Reference} {m : Bool} {vs : List Value} {v : Value} :
    v ∈ vs → Inside c f r' v' r v → Inside c f r' v' (.collection .sequence r m) (.list vs)
  | entry {r : Reference} {m : Bool} {es : List (String × Value)} {k : String} {v : Value} :
    (k, v) ∈ es → Inside c f r' v' r v → Inside c f r' v' (.collection .mapping r m) (.map es)
  | field {h t : Handle} {fields : List (String × Value)} {p : Property} {v : Value} :
    p ∈ c.plannedProperties t → p.carrier = false → ¬ c.Distinguishes t p →
    Table.find? fields p.name = some v → Inside c f r' v' p.type v →
    Inside c f r' v' (.named h) (.object t fields)
  | extra {h t : Handle} {fields es : List (String × Value)} {p : Property} {r : Reference} {m : Bool}
    {k : String} {v : Value} :
    p ∈ c.plannedProperties t → p.carrier = true → p.type = .collection .mapping r m →
    Table.find? fields p.name = some (.map es) → (k, v) ∈ es →
    (∀ q ∈ c.plannedProperties t, q.carrier = false → wireName f q ≠ k) → Inside c f r' v' r v →
    Inside c f r' v' (.named h) (.object t fields)

/-- What holds of a value, and of the parts of what it holds of, holds of all that is written inside
of the value. -/
theorem Inside.of_closed {Q : Reference → Value → Prop} {f : Format} (hin : c.Inside f r' v' r v)
    (item : ∀ r m vs, Q (.collection .sequence r m) (.list vs) → ∀ v ∈ vs, Q r v)
    (entry : ∀ r m es, Q (.collection .mapping r m) (.map es) → ∀ k v, (k, v) ∈ es → Q r v)
    (field : ∀ h t fields, Q (.named h) (.object t fields) → ∀ p ∈ c.plannedProperties t, ∀ v,
      Table.find? fields p.name = some v → Q p.type v)
    (hv : Q r v) : Q r' v' := by
  induction hin with
  | refl => exact hv
  | item hmem _ ih => exact ih (item _ _ _ hv _ hmem)
  | entry hmem _ ih => exact ih (entry _ _ _ hv _ _ hmem)
  | field hp _ _ hfound _ ih => exact ih (field _ _ _ hv _ hp _ hfound)
  | extra hp _ htype hfound hmem _ _ ih =>
    have hes := field _ _ _ hv _ hp _ hfound
    rw [htype] at hes
    exact ih (entry _ _ _ hes _ _ hmem)

/-! ## Canonical values -/

/-- The value that a word is read as can stand wherever it is typed: there is no object in it. -/
theorem ReadsAs.conforms {R S : SlotRule} {n : Bool} {w : String} (h : c.ReadsAs r w v)
    (hv : c.Conforms R n r v) : c.Conforms S n r v := by
  obtain ⟨k, rfl, ⟨-, rfl⟩ | ⟨e, x, -, -, rfl⟩⟩ := h
  · cases hv with
    | primitive hk hholds => exact .primitive hk hholds
  · cases hv with
    | primitive hk hholds => exact .primitive hk hholds
    | enumeration hk hholds => exact .enumeration hk hholds

/-- **What can be written is canonical** if every object that is written inside of it is settled. -/
theorem canonical_of_inside (W : c.WellFormed) {R : SlotRule} {f : Format} {n : Bool}
    (h : c.Conforms R n r v) (ha : c.Accepted f n r v)
    (hin : ∀ h t fields, c.Inside f (.named h) (.object t fields) r v → c.Settled f h t fields) :
    c.Conforms (c.Canonical f) n r v := by
  induction h with
  | null => exact .null
  | primitive hk hv => exact .primitive hk hv
  | enumeration hk hw => exact .enumeration hk hw
  | list _ ih =>
    cases ha with
    | list ha => exact .list fun v hv => ih v hv (ha v hv) fun _ _ _ ho => hin _ _ _ (.item hv ho)
  | map hasc _ ih =>
    cases ha with
    | map ha =>
      exact .map hasc fun k v hv => ih k v hv (ha k v hv) fun _ _ _ ho => hin _ _ _ (.entry hv ho)
  | @object n h t o fields type _ ascending declared required carried typed ih =>
    cases ha with
    | primitive _ hw => exact absurd hw Primitive.not_writes_object
    | object type' _ concrete word _ typed' _ captured =>
      obtain rfl := Option.some.inj (type.symm.trans type')
      have slot := hin h t fields .refl
      have hconcrete : ∀ o', c.object? t = some o' → o'.isAbstract = false := by
        intro o' ho'
        rwa [Option.some.inj (ho'.symm.trans type)]
      refine .object type (slot.canonical hconcrete word) ascending declared required carried
        fun p hp v hv => ?_
      cases hc : p.carrier with
      | false =>
        by_cases hd : c.Distinguishes t p
        · -- the discriminator is written from the type, so nothing is known of its value
          obtain ⟨r, g, hnames⟩ := hd
          obtain ⟨w, hw⟩ := word r g
          obtain ⟨v', hv', hreads⟩ := slot.agrees r p.name w g hnames hw p hp rfl
          obtain rfl := Option.some.inj (hv.symm.trans hv')
          have htyped := typed p hp v hv
          rw [hc] at htyped
          exact hreads.conforms htyped
        · have hp' := ih p hp v hv
          rw [hc, Bool.not_false, Bool.and_true] at hp'
          rw [Bool.not_false, Bool.and_true]
          exact hp' (typed' p hp hc hd v hv) fun _ _ _ ho => hin _ _ _ (.field hp hc hd hv ho)
      | true =>
        -- what is captured is written entry by entry, as no key is that of a property
        have htyped := typed p hp v hv
        obtain ⟨r, m, hr⟩ := W.exists_mapping_of_carrier hp hc
        rw [hc] at htyped
        rw [hr, Bool.not_true, Bool.and_false] at htyped ⊢
        cases htyped with
        | @map _ _ _ es hasc hall =>
          have hkey : ∀ k u, (k, u) ∈ es → ∀ q ∈ c.plannedProperties t, q.carrier = false →
              wireName f q ≠ k := fun k u hu q hq hqc hk =>
            slot.keys p hp hc _ hv q hq hqc (hk ▸ List.mem_map.2 ⟨_, hu, rfl⟩)
          have hp' := ih p hp _ hv
          rw [hc, hr, Bool.not_true, Bool.and_false] at hp'
          refine hp' (.map fun k u hu => captured p hp hc r m hr _ hv k u hu (hkey k u hu))
            fun h' t' fields' ho => ?_
          cases ho with
          | entry hu ho => exact hin _ _ _ (.extra hp hc hr hv hu (hkey _ _ hu) ho)

/-! ## Values that can be read back -/

/-- **An object of type `t` can be read from markup** where `declared` is expected, as long as the
values in it can. -/
structure Retrievable (c : Catalogue) (declared t : Handle) (fields : List (String × Value)) :
    Prop where
  unprefixed : c.Unprefixed t fields
  /-- The type is told apart, or nothing takes what the declared type does not have. -/
  slot : declared = t ∨ (∃ r, c.Governs r declared) ∨ c.carrier? declared = none
  /-- The discriminator can hold the word of the type. -/
  word : ∀ p ∈ c.plannedProperties t, c.Distinguishes t p → ∀ w, c.word? t = some w →
    ∃ v, c.ReadsAs p.type w v
  /-- What is required leaves something behind. -/
  required : ∀ p ∈ c.plannedProperties t, p.carrier = false → p.required = true →
    ¬ c.Distinguishes t p → Table.find? fields p.name ≠ some .null
  flattened : ∀ p ∈ c.plannedProperties t, p.carrier = false → p.required = true →
    ¬ c.Distinguishes t p → p.layout = .flattened → ∀ vs,
      Table.find? fields p.name = some (.list vs) → ∃ v ∈ vs, v ≠ .null

/-- **A value can be read from markup**: every object that is written inside of it can, and every
instant is one of the calendar. -/
structure Readable (c : Catalogue) (r : Reference) (v : Value) : Prop where
  objects : ∀ h t fields, c.Inside .xml (.named h) (.object t fields) r v →
    c.Retrievable h t fields
  instants : ∀ r' x, c.Inside .xml r' (.timestamp x) r v → x.Valid

namespace Readable

theorem of_inside (H : c.Readable r v)
    (hin : ∀ r'' v'', c.Inside .xml r'' v'' r' v' → c.Inside .xml r'' v'' r v) :
    c.Readable r' v' where
  objects _ _ _ ho := H.objects _ _ _ (hin _ _ ho)
  instants _ _ hx := H.instants _ _ (hin _ _ hx)

theorem item (H : c.Readable (.collection .sequence r m) (.list vs)) (hv : v ∈ vs) :
    c.Readable r v :=
  H.of_inside fun _ _ => .item hv

theorem entry (H : c.Readable (.collection .mapping r m) (.map es)) (hv : (k, v) ∈ es) :
    c.Readable r v :=
  H.of_inside fun _ _ => .entry hv

theorem field (H : c.Readable (.named h) (.object t fields)) (hp : p ∈ c.plannedProperties t)
    (hc : p.carrier = false) (hd : ¬ c.Distinguishes t p)
    (hv : Table.find? fields p.name = some v) : c.Readable p.type v :=
  H.of_inside fun _ _ => .field hp hc hd hv

theorem extra (H : c.Readable (.named h) (.object t fields)) (hp : p ∈ c.plannedProperties t)
    (hc : p.carrier = true) (htype : p.type = .collection .mapping r m)
    (hes : Table.find? fields p.name = some (.map es)) (hv : (k, v) ∈ es)
    (hk : ∀ q ∈ c.plannedProperties t, q.carrier = false → wireName .xml q ≠ k) : c.Readable r v :=
  H.of_inside fun _ _ => .extra hp hc htype hes hv hk

end Readable

/-! ## Values that are read back as they were -/

/-- **Nothing in an object is lost in markup**: it holds no nulls and no empty sequence without an
element of its own. -/
structure Definite (c : Catalogue) (t : Handle) (fields : List (String × Value)) : Prop where
  present : ∀ k, (k, .null) ∉ fields
  filled : ∀ p ∈ c.plannedProperties t, p.layout = .flattened →
    Table.find? fields p.name ≠ some (.list [])
  captured : ∀ p ∈ c.plannedProperties t, p.carrier = true → ∀ es,
    Table.find? fields p.name = some (.map es) → ∀ k, (k, .null) ∉ es

/-- **A value is legible in markup**: it is canonical, and nothing in it is lost. -/
structure Legible (c : Catalogue) (allowed : Bool) (r : Reference) (v : Value) : Prop where
  conforms : c.Conforms (c.Canonical .xml) allowed r v
  objects : ∀ h t fields, c.Inside .xml (.named h) (.object t fields) r v →
    c.Unprefixed t fields ∧ c.Definite t fields
  lists : ∀ r' vs, c.Inside .xml r' (.list vs) r v → .null ∉ vs

namespace Legible

theorem item (H : c.Legible allowed (.collection .sequence r m) (.list vs)) (hv : v ∈ vs) :
    c.Legible m r v where
  conforms := by
    cases H.conforms with
    | list hvs => exact hvs v hv
  objects _ _ _ ho := H.objects _ _ _ (.item hv ho)
  lists _ _ hl := H.lists _ _ (.item hv hl)

theorem entry (H : c.Legible allowed (.collection .mapping r m) (.map es)) (hv : (k, v) ∈ es) :
    c.Legible m r v where
  conforms := by
    cases H.conforms with
    | map _ hes => exact hes k v hv
  objects _ _ _ ho := H.objects _ _ _ (.entry hv ho)
  lists _ _ hl := H.lists _ _ (.entry hv hl)

theorem field (H : c.Legible allowed (.named h) (.object t fields)) (hp : p ∈ c.plannedProperties t)
    (hc : p.carrier = false) (hd : ¬ c.Distinguishes t p)
    (hv : Table.find? fields p.name = some v) : c.Legible p.nullable p.type v where
  conforms := by
    cases H.conforms with
    | primitive _ hh => exact absurd hh Primitive.not_holds_object
    | object _ _ _ _ _ _ typed =>
      have := typed p hp v hv
      rwa [hc, Bool.not_false, Bool.and_true] at this
  objects _ _ _ ho := H.objects _ _ _ (.field hp hc hd hv ho)
  lists _ _ hl := H.lists _ _ (.field hp hc hd hv hl)

theorem extra (H : c.Legible allowed (.named h) (.object t fields)) (hp : p ∈ c.plannedProperties t)
    (hc : p.carrier = true) (htype : p.type = .collection .mapping r m)
    (hes : Table.find? fields p.name = some (.map es)) (hv : (k, v) ∈ es)
    (hk : ∀ q ∈ c.plannedProperties t, q.carrier = false → wireName .xml q ≠ k) : c.Legible m r v where
  conforms := by
    cases H.conforms with
    | primitive _ hh => exact absurd hh Primitive.not_holds_object
    | object _ _ _ _ _ _ typed =>
      have := typed p hp _ hes
      rw [htype, hc, Bool.not_true, Bool.and_false] at this
      cases this with
      | map _ hes => exact hes k v hv
  objects _ _ _ ho := H.objects _ _ _ (.extra hp hc htype hes hv hk ho)
  lists _ _ hl := H.lists _ _ (.extra hp hc htype hes hv hk hl)

/-- What is inside of a legible value is legible. -/
theorem of_inside (hin : c.Inside .xml r' v' r v) (H : c.Legible allowed r v) :
    ∃ n, c.Legible n r' v' := by
  induction hin generalizing allowed with
  | refl => exact ⟨allowed, H⟩
  | item hv _ ih => exact ih (H.item hv)
  | entry hv _ ih => exact ih (H.entry hv)
  | field hp hc hd hv _ ih => exact ih (H.field hp hc hd hv)
  | extra hp hc htype hes hv hk _ ih => exact ih (H.extra hp hc htype hes hv hk)

theorem canonical (H : c.Legible allowed (.named h) (.object t fields)) :
    c.Canonical .xml h t fields := by
  cases H.conforms with
  | primitive _ hh => exact absurd hh Primitive.not_holds_object
  | object _ slot => exact slot

theorem filled (W : c.WellFormed) (H : c.Legible allowed (.named h) (.object t fields)) :
    c.Filled t fields := by
  cases H.conforms with
  | primitive _ hh => exact absurd hh Primitive.not_holds_object
  | object _ _ ascending declared required carried typed =>
    exact W.filled_of_conforms ascending declared required carried typed

theorem retrievable (H : c.Legible allowed (.named h) (.object t fields)) :
    c.Retrievable h t fields := by
  obtain ⟨hun, hdef⟩ := H.objects h t fields .refl
  refine ⟨hun, ?_, fun p hp hd w hw => ?_, fun p _ _ _ _ hnull => ?_, fun p hp hc _ hd hf vs hvs => ?_⟩
  · rcases H.canonical.selects with he | ⟨r, g, -⟩
    · exact .inl he
    · exact .inr (.inl ⟨r, g⟩)
  · obtain ⟨r, g, hn⟩ := hd
    obtain ⟨w', hw', hdis⟩ := H.canonical.word r _ g hn
    obtain ⟨v, -, hreads⟩ := hdis p hp rfl
    obtain rfl := Option.some.inj (hw.symm.trans hw')
    exact ⟨v, hreads⟩
  · exact hdef.present _ (Table.mem_of_find? hnull)
  · rcases vs with _ | ⟨v, vs⟩
    · exact absurd hvs (hdef.filled p hp hf)
    · refine ⟨v, List.mem_cons_self, ?_⟩
      rintro rfl
      exact H.lists p.type _ (.field hp hc hd hvs .refl) List.mem_cons_self

/-- **What is legible can be read.** -/
theorem readable (H : c.Legible allowed r v) : c.Readable r v where
  objects h t fields hin := by
    obtain ⟨n, hn⟩ := H.of_inside hin
    exact hn.retrievable
  instants r' x hin := by
    obtain ⟨n, hn⟩ := H.of_inside hin
    cases hn.conforms with
    | @primitive _ _ kind _ _ hh => cases kind <;> first | exact hh | exact hh.elim

end Legible

/-- **A value is told by its markup**: it is canonical and holds no doubles, and nothing in it is
lost. -/
structure Told (c : Catalogue) (allowed : Bool) (r : Reference) (v : Value) : Prop where
  conforms : c.Conforms (c.Canonical .xml) allowed r v
  exact : v.isExact = true
  objects : ∀ h t fields, c.Inside .xml (.named h) (.object t fields) r v →
    c.Unprefixed t fields ∧ c.Definite t fields
  lists : ∀ r' vs, c.Inside .xml r' (.list vs) r v → .null ∉ vs

/-- Doubles are legible too. -/
theorem Told.legible (H : c.Told allowed r v) : c.Legible allowed r v :=
  ⟨H.conforms, H.objects, H.lists⟩

end Catalogue

end Marshal
