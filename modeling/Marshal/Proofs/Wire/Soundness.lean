import Marshal.Document
import Marshal.Proofs.Plan.Dispatch
import Marshal.Proofs.Value.Canonical
import Marshal.Proofs.Wire.Objects
import Marshal.Proofs.Wire.Reading

/-!
# Decoding is sound

Whatever a source holds, a value that is read along the plans of a catalogue is well typed and
nests no deeper than the room there was (`value_yields`). The invariant of the scan over the fields
of an object is `Scan.Sound`: a field that is read keeps it (`field_yields`), and an object made of a
sound scan is well typed (`make_sound`). What an object is in its slot is left open here: any rule that
every object keeps to is kept to by the objects in it (`object_yields`).
-/

namespace Marshal.Decode

open Reading

variable {c : Catalogue} {f : Format} {s : PlanSet} {R : SlotRule}

/-! ## Scalars -/

theorem fits_toInt_ofInt {n : Int} (h : Number.fits 32 n = true) :
    Number.fits 32 (Int64.ofInt n).toInt = true := by
  have hb : -(2 ^ 31 : Int) ≤ n ∧ n < 2 ^ 31 := by simpa [Number.fits] using h
  rw [Int64.toInt_ofInt_of_le (by omega) (by omega)]
  exact h

theorem readText?_holds {kind : Primitive} {text : String} {v : Value}
    (h : Token.readText? kind text = some v) : kind.Holds v := by
  cases kind <;> simp only [Token.readText?, Option.map_eq_some_iff, Option.some.injEq] at h
  case integer =>
    obtain ⟨n, hn, rfl⟩ := h
    rw [Number.readFitting?] at hn
    split at hn
    · split at hn
      · rename_i hf
        obtain rfl := Option.some.inj hn
        exact fits_toInt_ofInt hf
      · cases hn
    · cases hn
  case timestamp =>
    obtain ⟨t, ht, rfl⟩ := h
    exact Time.Instant.read?_valid ht
  case string => subst h; exact trivial
  all_goals
    obtain ⟨_, -, rfl⟩ := h
    exact trivial

theorem toValue_holds {kind : Primitive} {t : Token} {field : String} {v : Value}
    (h : Token.toValue kind t field = .ok v) : kind.Holds v := by
  unfold Token.toValue at h
  split at h
  · split at h
    · rename_i hv
      cases h
      exact readText?_holds hv
    · cases h
  · cases h
    exact trivial
  · split at h
    · rename_i hf
      cases h
      exact hf
    · cases h
  all_goals
    cases h
    try exact trivial

theorem enumOfToken_holds {h : Handle} {e : Enumeration} {name : String} {t : Token}
    {field : String} {v : Value}
    (hv : enumOfToken ⟨h, name, e.members, e.caseSensitive, e.isOpen⟩ field t = .ok v) :
    ∃ w, v = .enum w ∧ e.Holds w := by
  rcases t with _ | _ | _ | raw
  · cases hv
  · cases hv
  · cases hv
  · rw [enumOfToken, enumValue] at hv
    split at hv
    · rename_i m hm
      cases hv
      exact ⟨_, rfl, m, List.mem_of_find?_eq_some hm, rfl⟩
    · rename_i hm
      split at hv
      · rename_i ho
        cases hv
        exact ⟨_, rfl, ho, hm⟩
      · cases hv

/-! ## Objects -/

/-- What an inner reader yields: values of the type it was asked for, nesting at most `n` deep. -/
def InnerSound {σ : Type} (c : Catalogue) (R : SlotRule) (n : Nat) (inner : Inner σ) : Prop :=
  ∀ {l : Layout} {r : Reference} {shape : Shape} {allowed : Bool} {name : String},
    c.Forms l r shape →
      Yields (inner shape allowed name) fun v => c.Conforms R allowed r v ∧ c.nesting false v ≤ n

/-- **The objects that are read keep to a rule** for their slots, when an inner reader reads what stands
in them. -/
def SlotSound {σ : Type} [Source σ] (s : PlanSet) (R : SlotRule) (inner : Inner σ) : Prop :=
  ∀ declared, Yields (object s inner declared) fun i => R declared i.type i.fields

/-- **The invariant of a scan** over the fields of an object of type `t`. -/
structure Scan.Sound (c : Catalogue) (R : SlotRule) (t : Handle) (n : Nat) (scan : Scan) : Prop where
  fields : ∀ k v, Table.find? scan.fields k = some v →
    ∃ p ∈ c.plannedProperties t, p.carrier = false ∧ p.name = k ∧
      c.Conforms R p.nullable p.type v ∧ c.nesting false v ≤ n
  ascending : Table.Ascending scan.extra
  extra : ∀ p ∈ c.plannedProperties t, p.carrier = true → ∀ r m,
    p.type = .collection .mapping r m → ∀ k v, (k, v) ∈ scan.extra →
      c.Conforms R m r v ∧ c.nesting false v ≤ n

theorem Scan.sound_empty {t : Handle} {n : Nat} : Scan.Sound c R t n ⟨[], []⟩ where
  fields := by simp [Table.find?_nil]
  ascending := Table.ascending_nil
  extra := by simp

variable {σ : Type} [Source σ] {inner : Inner σ} {t : Handle} {o : ObjectType} {plan : TypePlan}
  {n : Nat}

/-- Storing a value keeps a scan sound, also when it is joined to its siblings. -/
theorem Scan.Sound.assign {scan : Scan} (hs : scan.Sound c R t n) (W : c.WellFormed)
    (ho : c.object? t = some o) {p : Property} (hp : p ∈ c.plannedProperties t)
    (hc : p.carrier = false) {a : Action} (ha : a.property = p.name) {v : Value}
    (hv : c.Conforms R p.nullable p.type v) (hn : c.nesting false v ≤ n) :
    (scan.assign a v).Sound c R t n := by
  have hstore : ∀ w, c.Conforms R p.nullable p.type w → c.nesting false w ≤ n →
      Scan.Sound c R t n { scan with fields := Table.insert scan.fields p.name w } := by
    intro w hw hwn
    refine ⟨fun k u hu => ?_, hs.ascending, hs.extra⟩
    rw [Table.find?_insert] at hu
    split at hu
    · rename_i hk
      cases hu
      exact ⟨p, hp, hc, hk.symm, hw, hwn⟩
    · exact hs.fields k u hu
  unfold Scan.assign
  rw [ha]
  dsimp only
  split
  · rename_i earlier more hf
    by_cases hflat : a.shape.isFlattened = true
    · obtain ⟨q, hq, -, hqn, hadm, hdeep⟩ := hs.fields _ _ hf
      obtain rfl := W.eq_of_name ho hq hp hqn
      rw [if_pos hflat]
      exact hstore _ (hadm.append hv) (Catalogue.nesting_list_append_le hdeep hn)
    · rw [if_neg hflat]
      exact hstore _ hv hn
  · exact hstore _ hv hn

/-- **A step of the scan.** -/
theorem field_yields (W : c.WellFormed) (ho : c.object? t = some o) (hplan : c.Plans f t o plan)
    (hi : InnerSound c R n inner) {scan : Scan} (hs : scan.Sound c R t n) (key : String)
    (placement : Placement) :
    Yields (field inner plan scan key placement) fun scan => scan.Sound c R t n := by
  rw [field]
  split
  · rename_i a ha
    obtain ⟨hf, -⟩ := Option.filter_eq_some_iff.1 ha
    obtain ⟨p, hp, hc, -, shape, hshape, -, rfl⟩ := (hplan.actions key a).1 hf
    exact yields_bind (hi hshape) fun v hv => yields_pure (hs.assign W ho hp hc rfl hv.1 hv.2)
  · split
    · rename_i target ht
      obtain ⟨p, hp, hc, r, shape, m, hr, hshape, rfl⟩ := (hplan.carrier target).1 ht
      refine yields_bind (hi hshape) fun v hv => yields_pure
        ⟨hs.fields, Table.ascending_insert hs.ascending key v, fun q hq hqc r' m' hr' k u hu => ?_⟩
      obtain rfl := W.eq_of_carrier ho hp hc hq hqc
      obtain ⟨-, rfl, rfl⟩ := Reference.collection.inj (hr.symm.trans hr')
      rcases Table.mem_insert hu with e | hu
      · obtain ⟨-, rfl⟩ := Prod.mk.inj e
        exact hv
      · exact hs.extra p hp hc r m hr k u hu
    · exact yields_then fun _ => yields_pure hs

/-- What is in the table of a sound scan. -/
theorem Scan.Sound.gathered {scan : Scan} (hs : scan.Sound c R t n) (hplan : c.Plans f t o plan) {k : String} {v : Value}
    (hv : Table.find? (scan.gathered plan) k = some v) :
    ∃ p ∈ c.plannedProperties t, p.name = k ∧
      c.Conforms R (p.nullable && !p.carrier) p.type v ∧ (p.carrier = true → v ≠ .map []) ∧
      c.nesting p.carrier v ≤ n := by
  have hfield : ∀ {k v}, Table.find? scan.fields k = some v →
      ∃ p ∈ c.plannedProperties t, p.name = k ∧
        c.Conforms R (p.nullable && !p.carrier) p.type v ∧ (p.carrier = true → v ≠ .map []) ∧
        c.nesting p.carrier v ≤ n := by
    intro k v hf
    obtain ⟨p, hp, hc, hk, hadm, hn⟩ := hs.fields k v hf
    refine ⟨p, hp, hk, ?_, by simp [hc], by rwa [hc]⟩
    simpa [hc] using hadm
  unfold Scan.gathered at hv
  split at hv
  · rename_i target ht
    split at hv
    · exact hfield hv
    · rename_i hne
      rw [Table.find?_insert] at hv
      split at hv
      · rename_i hk
        obtain rfl := Option.some.inj hv
        obtain ⟨p, hp, hc, r, shape, m, hr, -, rfl⟩ := (hplan.carrier target).1 ht
        refine ⟨p, hp, hk.symm, ?_, fun _ e => hne (by simp [Value.map.inj e]), ?_⟩
        · rw [hr]
          exact .map hs.ascending fun k u hu => (hs.extra p hp hc r m hr k u hu).1
        · rw [hc, Catalogue.nesting, if_pos rfl, Nat.add_zero, Catalogue.nestingEntries_le_iff]
          exact fun k u hu => (hs.extra p hp hc r m hr k u hu).2
      · exact hfield hv
  · exact hfield hv

/-- **An object made of a sound scan** is well typed. -/
theorem make_sound {scan : Scan} (hs : scan.Sound c R t n) (W : c.WellFormed)
    (ho : c.object? t = some o) (hplan : c.Plans f t o plan) {declared : Handle}
    {i : Instance} (hm : scan.make plan = .ok i) (hslot : R declared i.type i.fields)
    (allowed : Bool) :
    c.Conforms R allowed (.named declared) i.toValue ∧ c.nesting false i.toValue ≤ n + 1 := by
  have htype : i.type = t := (type_of_make hm).trans hplan.type
  have hsound : ∀ p ∈ c.plannedProperties t, ∀ v, Table.find? i.fields p.name = some v →
      c.Conforms R (p.nullable && !p.carrier) p.type v ∧ (p.carrier = true → v ≠ .map []) ∧
        c.nesting p.carrier v ≤ n := by
    intro p hp v hv
    rw [find?_of_make hplan hm hp] at hv
    obtain ⟨q, hq, hk, hheld⟩ := hs.gathered hplan hv
    obtain rfl := W.eq_of_name ho hq hp hk
    exact hheld
  rw [htype] at hslot
  rw [Instance.toValue, htype]
  constructor
  · refine .object ho hslot (ascending_of_make hm) (fun k v hkv => ?_)
      (fun p hp hc hr => exists_of_required hplan hm hp hc hr)
      (fun p hp hc hv => (hsound p hp _ hv).2.1 hc rfl) fun p hp v hv => (hsound p hp v hv).1
    obtain ⟨p, hp, hk, -⟩ := exists_of_mem_make hplan hm hkv
    exact ⟨p, hp, hk⟩
  · rw [Catalogue.nesting, Nat.add_le_add_iff_right, Catalogue.nestingFields_le_iff]
    intro k v hkv
    obtain ⟨p, hp, rfl, hv⟩ := exists_of_mem_make hplan hm hkv
    rw [W.carrierName?_beq ho hp]
    exact (hsound p hp v hv).2.2

/-- The plan that an object is read along is that of a type that is recognised in its slot. -/
theorem concretePlan_yields (P : c.PlannedBy f s) {declared : Handle} {p : TypePlan}
    (hp : s.type? declared = some p) :
    Yields (concretePlan s p : Reading σ TypePlan) fun q =>
      ∃ t, s.type? t = some q ∧ c.Selects declared t := by
  have hself : ∃ t, s.type? t = some p ∧ c.Selects declared t := ⟨declared, hp, .inl rfl⟩
  rw [concretePlan]
  split
  · exact yields_pure hself
  · rename_i d hd
    refine yields_then fun word => ?_
    rcases word with _ | word
    · exact yields_pure hself
    · dsimp only
      split
      · exact yields_throw
      · rename_i h hh
        refine yields_lift fun q hq => ⟨h, ?_, ?_⟩
        · exact typePlan_eq_ok_iff.1 hq
        · obtain ⟨_, -, hplan⟩ := P.plans hp
          exact P.selects_of_dispatchOf (hplan.discriminator.symm.trans hd) hh

/-- An object is made of a scan along the plan of a type that is recognised in its slot. -/
theorem object_yields_of_scan (P : c.PlannedBy f s) {declared : Handle} {Q : Instance → Prop}
    (h : ∀ t o q fuel, c.Selects declared t → c.object? t = some o → c.Plans f t o q →
      Yields (do
        let scan ← fields inner q fuel ⟨[], []⟩
        Reading.lift (scan.make q)) Q) : Yields (object s inner declared) Q := by
  refine yields_bind (yields_lift (P := fun p => s.type? declared = some p) fun p hp => ?_)
    fun p hp => yields_then fun _ => yields_bind (concretePlan_yields P hp)
      fun q ⟨t, hq, hsel⟩ => yields_then fun st => ?_
  · exact typePlan_eq_ok_iff.1 hp
  · obtain ⟨o, ho, hplan⟩ := P.plans hq
    exact h t o q _ hsel ho hplan

/-- An object is of the type that is declared or of one below it. -/
theorem object_inherits (P : c.PlannedBy f s) (inner : Inner σ) :
    SlotSound s (fun h t _ => c.Inherits t h) inner := by
  refine fun declared => object_yields_of_scan P fun t o q fuel hsel _ hplan =>
    yields_then fun scan => yields_lift fun i hm => ?_
  rw [type_of_make hm, hplan.type]
  exact hsel.inherits

/-- **An object that is read** is well typed when what is read in it is, and when it keeps to the rule
for its slot. -/
theorem object_yields (P : c.PlannedBy f s) (hi : InnerSound c R n inner) (hR : SlotSound s R inner)
    (declared : Handle) (allowed : Bool) :
    Yields (object s inner declared) fun i =>
      c.Conforms R allowed (.named declared) i.toValue ∧ c.nesting false i.toValue ≤ n + 1 := by
  have htyped : Yields (object s inner declared) fun i => R declared i.type i.fields →
      c.Conforms R allowed (.named declared) i.toValue ∧ c.nesting false i.toValue ≤ n + 1 := by
    refine object_yields_of_scan P fun t o q fuel _ ho hplan => ?_
    refine yields_bind (fields_yields (I := fun scan => scan.Sound c R t n)
      (fun scan key placement hs => field_yields P.wellFormed ho hplan hi hs key placement) _
      Scan.sound_empty) fun scan hs => yields_lift fun i hm hslot => ?_
    exact make_sound hs P.wellFormed ho hplan hm hslot allowed
  exact yields_mono (yields_and htyped (hR declared)) fun i ⟨h, hslot⟩ => h hslot

/-! ## Values -/

theorem enumeration_yields (P : c.PlannedBy f s) {h : Handle} {e : Enumeration}
    (he : c.kind? h = some (.enumeration e)) (name : String) :
    Yields (enumeration s h name : Reading σ Value) fun v => ∃ w, v = .enum w ∧ e.Holds w := by
  rw [enumeration, P.enum?_eq_some_iff.2 ⟨e, he, rfl⟩]
  exact yields_then fun t => yields_lift fun v hv => enumOfToken_holds hv

/-- A value that is no null, read with room for `m` levels. -/
theorem shaped_yields (P : c.PlannedBy f s) {inner : Option (Inner σ)} {m : Nat}
    (hi : ∀ i, inner = some i → ∃ n, m = n + 1 ∧ InnerSound c R n i ∧ SlotSound s R i) {l : Layout} {r : Reference}
    {shape : Shape} (hshape : c.Forms l r shape) (allowed : Bool) (name : String) :
    Yields (shaped s inner shape name) fun v => c.Conforms R allowed r v ∧ c.nesting false v ≤ m := by
  cases hshape with
  | primitive hk =>
    refine yields_then fun t => yields_lift fun v hv => ?_
    have hold := toValue_holds hv
    exact ⟨.primitive hk hold, by rw [Catalogue.nesting_of_holds hold]; exact Nat.zero_le _⟩
  | enumeration hk =>
    refine yields_mono (enumeration_yields P hk name) ?_
    rintro _ ⟨w, rfl, hw⟩
    exact ⟨.enumeration hk hw, Nat.zero_le _⟩
  | object ho =>
    rcases inner with _ | i
    · exact yields_throw
    · obtain ⟨n, rfl, hin, hR⟩ := hi i rfl
      exact yields_bind (object_yields P hin hR _ allowed) fun i hadm => yields_pure hadm
  | sequence hs =>
    rcases inner with _ | i
    · exact yields_throw
    · obtain ⟨n, rfl, hin, -⟩ := hi i rfl
      refine yields_then fun _ => yields_then fun _ =>
        yields_bind (items_yields (hin hs) _) fun vs hvs => yields_pure ⟨?_, ?_⟩
      · exact .list fun v hv => (hvs v hv).1
      · exact Catalogue.nesting_list_le_iff.2 fun v hv => (hvs v hv).2
  | mapping hs =>
    rcases inner with _ | i
    · exact yields_throw
    · obtain ⟨n, rfl, hin, -⟩ := hi i rfl
      rename_i r' s' m'
      have hstep : ∀ es key, (Table.Ascending es ∧
          ∀ k v, (k, v) ∈ es → c.Conforms R m' r' v ∧ c.nesting false v ≤ n) →
          Yields (i s' m' key) fun v => Table.Ascending (Table.insert es key v) ∧
            ∀ k u, (k, u) ∈ Table.insert es key v → c.Conforms R m' r' u ∧ c.nesting false u ≤ n := by
        intro es key ⟨hasc, hes⟩
        refine yields_mono (hin hs) fun v hv => ⟨Table.ascending_insert hasc key v, fun k u hu => ?_⟩
        rcases Table.mem_insert hu with e | hu
        · obtain ⟨-, rfl⟩ := Prod.mk.inj e
          exact hv
        · exact hes k u hu
      refine yields_then fun _ => yields_then fun st => yields_bind
        (entries_yields hstep _ ⟨Table.ascending_nil, by simp⟩) fun es ⟨hasc, hes⟩ =>
          yields_pure ⟨.map hasc fun k v hkv => (hes k v hkv).1, ?_⟩
      rw [Catalogue.nesting, if_neg Bool.false_ne_true, Nat.add_le_add_iff_right,
        Catalogue.nestingEntries_le_iff]
      exact fun k v hkv => (hes k v hkv).2

/-- A value or a null, read with room for `m` levels. -/
theorem nullable_yields (P : c.PlannedBy f s) {inner : Option (Inner σ)} {m : Nat}
    (hi : ∀ i, inner = some i → ∃ n, m = n + 1 ∧ InnerSound c R n i ∧ SlotSound s R i) :
    InnerSound c R m (nullable s inner) := by
  intro l r shape allowed name hshape
  rw [nullable]
  refine yields_then fun isNull => ?_
  cases isNull with
  | false => exact shaped_yields P hi hshape allowed name
  | true =>
    cases allowed with
    | false => exact yields_throw
    | true => exact yields_pure ⟨.null, Nat.zero_le _⟩

/-- **Reading a value** of a shape yields values of its type that fit into the room. -/
theorem value_yields (P : c.PlannedBy f s) (hR : ∀ room, SlotSound s R (value s room : Inner σ))
    (room : Nat) : InnerSound c R room (value s room : Inner σ) := by
  induction room with
  | zero => exact nullable_yields P (by simp)
  | succ room ih =>
    refine nullable_yields P fun i hi => ⟨room, rfl, ?_⟩
    obtain rfl := Option.some.inj hi
    exact ⟨ih, hR room⟩

/-- **Decoding from any source** yields well typed objects. -/
theorem decode_sound (P : c.PlannedBy f s) (hR : ∀ room, SlotSound s R (value s room : Inner σ))
    {declared : Handle} {source : σ} {i : Instance} (h : decode s declared source = .ok i) :
    c.Conforms R false (.named declared) i.toValue ∧ c.nesting false i.toValue ≤ depthLimit := by
  rw [decode] at h
  split at h
  · rename_i hr
    cases h
    exact object_yields P (value_yields P hR (depthLimit - 1)) (hR _) declared false _ _ _ hr
  · cases h

end Marshal.Decode

namespace Marshal.Document

/-- What is read along the plans of a catalogue is well typed by any rule for slots that the objects
read of both formats keep to, and there was room for it. -/
theorem conforms_of_read {c : Catalogue} {format : Format} {plans : PlanSet} {R : SlotRule}
    (P : c.PlannedBy format plans)
    (hjson : ∀ room, Decode.SlotSound plans R (Decode.value plans room : Decode.Inner Json.Reader))
    (hxml : ∀ room, Decode.SlotSound plans R (Decode.value plans room : Decode.Inner Markup.Reader))
    {declared : Handle} {bytes : List UInt8} {i : Instance}
    (h : read format plans declared bytes = .ok i) :
    c.Conforms R false (.named declared) i.toValue ∧
      c.nesting false i.toValue ≤ Decode.depthLimit := by
  unfold read at h
  rw [if_pos P.format] at h
  cases format with
  | json =>
    obtain ⟨source, -, h⟩ := Outcome.bind_eq_ok_iff.1 h
    exact Decode.decode_sound P hjson h
  | xml =>
    obtain ⟨source, -, h⟩ := Outcome.bind_eq_ok_iff.1 h
    exact Decode.decode_sound P hxml h

/-- What is read along the plans of a catalogue is well typed, and there was room for it. -/
theorem admits_of_read {c : Catalogue} {format : Format} {plans : PlanSet}
    (P : c.PlannedBy format plans) {declared : Handle} {bytes : List UInt8} {i : Instance}
    (h : read format plans declared bytes = .ok i) :
    c.Admits false (.named declared) i.toValue ∧
      c.nesting false i.toValue ≤ Decode.depthLimit :=
  conforms_of_read P (fun _ => Decode.object_inherits P _) (fun _ => Decode.object_inherits P _) h

/-- What is read is the object that it is the same as. -/
theorem read_eq_of_same {format : Format} {plans : PlanSet} {declared : Handle}
    {bytes : List UInt8} {i : Instance} (hx : i.toValue.isExact = true)
    (h : (read format plans declared bytes).toOption.map i.same = some true) :
    read format plans declared bytes = .ok i := by
  obtain ⟨w, hw, hsame⟩ := Option.map_eq_some_iff.1 h
  obtain ⟨htype, hfields⟩ := Value.object.inj (Value.eq_of_same hsame hx)
  obtain rfl : i = w := by
    cases i
    cases w
    cases htype
    cases hfields
    rfl
  exact Outcome.toOption_eq_some_iff.1 hw

/-- **Reading a document is sound.** Whatever the bytes, an object that is read is well typed for the
declared type, and nests no deeper than the limit. -/
theorem read_sound {c : Catalogue} (hc : c.Reachable) {format : Format} {cancelled : Bool}
    {plans : PlanSet} (hp : c.planAll format cancelled = .ok plans) {declared : Handle}
    {bytes : List UInt8} {i : Instance} (h : read format plans declared bytes = .ok i) :
    c.Admits false (.named declared) i.toValue ∧
      c.nesting false i.toValue ≤ Decode.depthLimit :=
  admits_of_read (Catalogue.planAll_spec hc hp) h

/-- A circle as JSON. -/
def circleBytes : List UInt8 :=
  Text.toBytes "\x7b\"r\":5,\"big\":null,\"kind\":\"circle\",\"labels\":[\"a\"]\x7d"

theorem read_sound_shapes : ∃ i, read .json (Catalogue.shapePlans .json) ⟨8⟩ circleBytes = .ok i ∧
    i.type = ⟨9⟩ ∧ Catalogue.sealedShapes.Admits false (.named ⟨8⟩) i.toValue ∧
      Catalogue.sealedShapes.nesting false i.toValue ≤ Decode.depthLimit := by
  have hr : (read .json (Catalogue.shapePlans .json) ⟨8⟩ circleBytes).toOption.map Instance.type =
      some ⟨9⟩ := by decide +kernel
  obtain ⟨i, hi, ht⟩ := Option.map_eq_some_iff.1 hr
  have hread := Outcome.toOption_eq_some_iff.1 hi
  exact ⟨i, hread, ht, read_sound Catalogue.reachable_sealedShapes (Catalogue.planAll_sealedShapes .json) hread⟩

end Marshal.Document
