import Marshal.Document
import Marshal.Proofs.Json.Runs
import Marshal.Proofs.Wire.Scalars

/-!
# JSON documents are read back

`RoundTrips` relates a value to the tree that is written for it and from which it is read. Every
canonical value that holds no doubles has such a tree (`trips_of_conforms`): scalars have tokens,
collections are taken apart, and an object is the object of the parts of its properties, in the
order of the plan (`Part`, `exists_object`). `Document.read_write_json` puts the text of the tree in
between.
-/

namespace Marshal

namespace Json

open Outcome Writer Reader

variable {c : Catalogue} {s : PlanSet}

/-- **A value and its tree**: writing places the tree, reading takes the value off it as long as
there is room for `d` levels, and the tree has no more levels itself. -/
structure RoundTrips (s : PlanSet) (d : Nat) (shape : Shape) (allowed : Bool) (v : Value) (j : Json) :
    Prop where
  written : ∀ pos, Encode.value s pos shape allowed v = emit (keyOf pos) j
  read : ∀ room, d ≤ room → ∀ name, Takes (Decode.value s room shape allowed name) j v
  plain : Plain d j

theorem RoundTrips.mono {d e : Nat} {shape : Shape} {allowed : Bool} {v : Value} {j : Json}
    (h : RoundTrips s d shape allowed v j) (hde : d ≤ e) : RoundTrips s e shape allowed v j :=
  ⟨h.written, fun room hr => h.read room (Nat.le_trans hde hr), h.plain.mono hde⟩

/-! ## Values at the cursor -/

/-- What reads inside of a value when there is room. -/
def innerOf (s : PlanSet) : Nat → Option (Decode.Inner Reader)
  | 0 => none
  | room + 1 => some (Decode.value s room)

theorem value_eq (room : Nat) :
    (Decode.value s room : Decode.Inner Reader) = Decode.nullable s (innerOf s room) := by
  cases room <;> rfl

/-- A tree that is not null is read along its shape. -/
theorem takes_of_shaped {room : Nat} {shape : Shape} {allowed : Bool} {name : String} {j : Json}
    {v : Value} (hj : j ≠ .null)
    (h : Takes (Decode.shaped s (innerOf s room) shape name) j v) :
    Takes (Decode.value s room shape allowed name) j v := by
  intro stack
  have hnull : Source.isNull (⟨some j, stack⟩ : Reader) = .ok false ⟨some j, stack⟩ := by
    cases j <;> first | exact absurd rfl hj | rfl
  rw [value_eq, Decode.nullable, run_bind hnull, if_neg Bool.false_ne_true]
  exact h stack

theorem scalar_takes {j : Json} {t : Token} (h : tokenOf j = .ok t) :
    Takes (Source.scalar : Reading Reader Token) j t := by
  intro stack
  have htake : take (⟨some j, stack⟩ : Reader) = .ok j ⟨none, stack⟩ := rfl
  refine (run_bind htake).trans ?_
  rw [h]
  rfl

/-- A token that is no double has a tree. -/
theorem exists_tree {t : Token} (ht : t.isExact = true) :
    ∃ j, (∀ pos, ofToken pos t = .ok j) ∧ tokenOf j = .ok t ∧ j ≠ .null ∧ Plain 0 j := by
  cases t with
  | bool b => exact ⟨.bool b, fun _ => rfl, rfl, by simp, .bool⟩
  | integer n =>
    have hfits := Number.fits_64 n
    refine ⟨.integer n.toInt, fun _ => rfl, ?_, by simp, .integer hfits⟩
    rw [tokenOf, if_pos hfits, Int64.ofInt_toInt]
  | float x => cases ht
  | text s => exact ⟨.text s, fun _ => rfl, rfl, by simp, .text⟩

/-! ## Scalars -/

theorem roundTrips_null (shape : Shape) : RoundTrips s 0 shape true .null .null where
  written pos := by
    rw [Encode.value, if_pos rfl]
    rfl
  read room _ name stack := by
    have hnull : Source.isNull (⟨some .null, stack⟩ : Reader) = .ok true ⟨none, stack⟩ := rfl
    rw [value_eq, Decode.nullable, run_bind hnull]
    rfl
  plain := .null

theorem exists_roundTrips_primitive {kind : Primitive} {v : Value} (h : kind.Holds v)
    (hx : v.isExact = true) (allowed : Bool) :
    ∃ j, RoundTrips s 0 (.primitive kind) allowed v j := by
  obtain ⟨t, ht, hof, hto, -⟩ := Token.exists_token h hx
  obtain ⟨j, hj, htoken, hne, hplain⟩ := exists_tree ht
  refine ⟨j, fun pos => ?_, fun room _ name => takes_of_shaped hne fun stack => ?_, hplain⟩
  · have hnull : v = .null → False := by
      rintro rfl
      cases kind <;> exact h
    funext w
    rw [Encode.value.eq_2 _ _ _ _ _ hnull, hof]
    refine (run_bind (rfl : Writing.lift (.ok t) w = .ok t w)).trans ?_
    refine (run_bind (?_ : Writing.lift (ofToken pos t) w = .ok j w)).trans rfl
    rw [hj]
    rfl
  · rw [Decode.shaped, run_bind (scalar_takes htoken stack), hto]
    rfl

/-- The tree of a word is read as what the word stands for. -/
theorem enumeration_takes (P : c.PlannedBy .json s) {h : Handle} {e : Enumeration}
    (he : c.kind? h = some (.enumeration e)) {w : String} {x : EnumValue} (hx : e.read? w = some x)
    (room : Nat) (allowed : Bool) (name : String) :
    Takes (Decode.value s room (.enumeration h) allowed name) (.text w) (.enum x) := by
  refine takes_of_shaped (by simp) fun stack => ?_
  rw [Decode.shaped, Decode.enumeration, P.enum?_eq_some_iff.2 ⟨e, he, rfl⟩]
  dsimp only
  rw [run_bind (scalar_takes (rfl : tokenOf (.text w) = .ok (.text w)) stack), Decode.enumOfToken,
    Catalogue.enumValue_of_read? hx]
  rfl

theorem exists_roundTrips_enumeration (P : c.PlannedBy .json s) {h : Handle} {e : Enumeration}
    (he : c.kind? h = some (.enumeration e)) {x : EnumValue} (hx : e.Holds x) (allowed : Bool) :
    ∃ j, RoundTrips s 0 (.enumeration h) allowed (.enum x) j := by
  obtain ⟨w, hw, hread⟩ := P.exists_word he hx
  refine ⟨.text w, fun pos => ?_, fun room _ name => enumeration_takes P he hread room _ name, .text⟩
  rw [Encode.value, hw]
  rfl

/-- The tree of the word of a type is read as what its discriminator holds. -/
theorem takes_of_readsAs (P : c.PlannedBy .json s) {l : Layout} {r : Reference} {shape : Shape}
    (hshape : c.Forms l r shape) {w : String} {v : Value} (h : c.ReadsAs r w v) (room : Nat)
    (allowed : Bool) (name : String) :
    Takes (Decode.value s room shape allowed name) (.text w) v := by
  obtain ⟨k, rfl, ⟨hk, rfl⟩ | ⟨e, x, he, hx, rfl⟩⟩ := h
  · obtain rfl := hshape.unique (.primitive hk)
    refine takes_of_shaped (by simp) fun stack => ?_
    rw [Decode.shaped, run_bind (scalar_takes (rfl : tokenOf (.text w) = .ok (.text w)) stack)]
    rfl
  · obtain rfl := hshape.unique (.enumeration he)
    exact enumeration_takes P he hx room allowed name

/-! ## Collections -/

theorem exists_roundTrips_list {d : Nat} {element : Shape} {m : Bool} {vs : List Value}
    (h : ∀ v ∈ vs, ∃ j, RoundTrips s d element m v j) (l : Layout) (allowed : Bool) :
    ∃ j, RoundTrips s (d + 1) (.sequence element m l) allowed (.list vs) j := by
  obtain ⟨js, H⟩ := exists_forall₂ h
  refine ⟨.array js, fun pos => ?_, fun room hr name => takes_of_shaped (by simp) fun stack => ?_, ?_⟩
  · exact value_list (items_addsItems (H.imp fun v j hj => hj.written .item))
  · obtain ⟨room, rfl⟩ := Nat.exists_eq_add_of_le' hr
    have hitems := items_run (H.imp fun v j hj => hj.read (room + d) (by omega) name)
      (Nat.lt_succ_of_le (length_le_bound none (.array js) stack)) stack
    have hopen : Source.beginContainer (Decode.containerFor name l)
        (⟨some (.array js), stack⟩ : Reader) = .ok () ⟨none, .array js :: stack⟩ := by
      cases l <;> rfl
    rw [← Nat.add_assoc, innerOf, Decode.shaped]
    refine (run_bind hopen).trans ?_
    refine (run_bind (rfl : (get : Reading Reader Reader) _ = .ok _ _)).trans ?_
    rw [run_bind hitems]
    rfl
  · refine .array fun j hj => ?_
    obtain ⟨v, -, hv⟩ := forall₂_exists_right H hj
    exact hv.plain

/-- The entries of a map and the members written for them. -/
def EntriesTrip (s : PlanSet) (d : Nat) (element : Shape) (m : Bool) (es : List (String × Value))
    (ms : List (String × Json)) : Prop :=
  List.Forall₂ (fun e x => x.1 = e.1 ∧ RoundTrips s d element m e.2 x.2) es ms

theorem EntriesTrip.keys_eq {d : Nat} {element : Shape} {m : Bool} {es : List (String × Value)}
    {ms : List (String × Json)} (h : EntriesTrip s d element m es ms) :
    Table.keys ms = Table.keys es := by
  induction h with
  | nil => rfl
  | cons he _ ih => exact congrArg₂ List.cons he.1 ih

theorem EntriesTrip.plain {d : Nat} {element : Shape} {m : Bool} {es : List (String × Value)}
    {ms : List (String × Json)} (h : EntriesTrip s d element m es ms) :
    ∀ k j, (k, j) ∈ ms → Plain d j := by
  intro k j hj
  obtain ⟨e, -, he⟩ := forall₂_exists_right h hj
  exact he.2.plain

theorem exists_entriesTrip {d : Nat} {element : Shape} {m : Bool} {es : List (String × Value)}
    (h : ∀ k v, (k, v) ∈ es → ∃ j, RoundTrips s d element m v j) :
    ∃ ms, EntriesTrip s d element m es ms := by
  refine exists_forall₂ fun e he => ?_
  obtain ⟨j, hj⟩ := h e.1 e.2 he
  exact ⟨(e.1, j), rfl, hj⟩

theorem exists_roundTrips_map {d : Nat} {element : Shape} {m : Bool} {es : List (String × Value)}
    (hasc : Table.Ascending es) (h : ∀ k v, (k, v) ∈ es → ∃ j, RoundTrips s d element m v j)
    (allowed : Bool) :
    ∃ j, RoundTrips s (d + 1) (.mapping element m) allowed (.map es) j := by
  obtain ⟨ms, H⟩ := exists_entriesTrip h
  have hn : (Table.keys ms).Nodup := H.keys_eq ▸ hasc.nodup
  refine ⟨.object ms, fun pos => ?_, fun room hr name => takes_of_shaped (by simp) fun stack => ?_,
    .object hn H.plain⟩
  · exact value_map (entries_addsMembers (H.imp fun e x hx => ⟨hx.1, hx.2.written _⟩)) hn
  · obtain ⟨room, rfl⟩ := Nat.exists_eq_add_of_le' hr
    have hentries := entries_run
      (H.imp fun e x hx => And.intro hx.1 (hx.2.read (room + d) (by omega) e.1))
      (Nat.lt_succ_of_le (length_le_bound none (.object ms) stack)) [] stack
    have hopen : Source.beginContainer .mapping (⟨some (.object ms), stack⟩ : Reader) =
        .ok () ⟨none, .object ms :: stack⟩ := rfl
    rw [← Nat.add_assoc, innerOf, Decode.shaped]
    refine (run_bind hopen).trans ?_
    refine (run_bind (rfl : (get : Reading Reader Reader) _ = .ok _ _)).trans ?_
    rw [run_bind hentries, show es.foldl _ [] = es from Table.ofList_eq_self hasc]
    rfl

/-! ## Objects -/

section Object

variable {t : Handle} {o : ObjectType} {plan : TypePlan} {fields : Table String Value} {d : Nat}

/-- The members that the step of a property adds, and what a scan gains from them. -/
structure Part (s : PlanSet) (plan : TypePlan) (fields : Table String Value) (d : Nat)
    (p : Property) (x : Catalogue.Planned) (ms : List (String × Json)) : Prop where
  written : AddsMembers (Encode.step s plan fields x.step) ms
  read : ∀ room, d ≤ room → Absorbs (Decode.value s room) plan ms fun scan => scan.absorb fields p
  plain : ∀ k j, (k, j) ∈ ms → Plain d j
  nodup : (Table.keys ms).Nodup
  /-- A property has members under its own key only, a carrier under keys of no property. -/
  field : p.carrier = false → ∀ k ∈ Table.keys ms, k = Catalogue.wireName .json p
  extra : p.carrier = true → ∀ k ∈ Table.keys ms, Table.contains plan.read.actions k = false
  word : ∀ w, x.step.emission = .discriminator (some w) → (x.step.wire, .text w) ∈ ms

/-- What is known of the values in the fields of an object. -/
structure FieldsTrip (c : Catalogue) (s : PlanSet) (t : Handle) (fields : Table String Value)
    (d : Nat) : Prop where
  field : ∀ p ∈ c.plannedProperties t, p.carrier = false → ∀ v,
    Table.find? fields p.name = some v → ∀ shape, c.Forms .standard p.type shape →
      ∃ j, RoundTrips s d shape p.nullable v j
  extra : ∀ p ∈ c.plannedProperties t, p.carrier = true → ∀ es,
    Table.find? fields p.name = some (.map es) → ∀ r m shape,
      p.type = .collection .mapping r m → c.Forms .standard r shape →
        ∃ ms, EntriesTrip s d shape m es ms

section Part

variable {p : Property} {x : Catalogue.Planned}

/-- A property that has no value has no members. -/
theorem part_of_none (hwritten : AddsMembers (Encode.step s plan fields x.step) [])
    (hv : Table.find? fields p.name = none)
    (hword : ∀ w, x.step.emission ≠ .discriminator (some w)) : Part s plan fields d p x [] where
  written := hwritten
  read room _ := by
    have hid : (fun scan : Decode.Scan => scan.absorb fields p) = id :=
      funext (Decode.Scan.absorb_none hv)
    rw [hid]
    exact absorbs_nil
  plain := by simp
  nodup := List.nodup_nil
  field := by simp [Table.keys]
  extra := by simp [Table.keys]
  word w hw := absurd hw (hword w)

/-- A property that is no carrier has one member. -/
theorem part_of_member (hc : p.carrier = false) {shape : Shape}
    (hact : Table.find? plan.read.actions (Catalogue.wireName .json p) =
      some (Catalogue.fieldAction .json p shape))
    (hflat : shape.isFlattened = false) {v : Value} (hv : Table.find? fields p.name = some v) {j : Json}
    (hwritten : Encode.step s plan fields x.step = emit (some (Catalogue.wireName .json p)) j)
    (hread : ∀ room, d ≤ room →
      Takes (Decode.value s room shape p.nullable (Catalogue.wireName .json p)) j v)
    (hplain : Plain d j)
    (hword : ∀ w, x.step.emission = .discriminator (some w) →
      (x.step.wire, .text w) = (Catalogue.wireName .json p, j)) :
    Part s plan fields d p x [(Catalogue.wireName .json p, j)] where
  written := hwritten ▸ addsMembers_emit _ _
  read room hr := absorbs_field hact hflat hc hv (hread room hr)
  plain k j' hj := by
    obtain ⟨-, rfl⟩ := Prod.mk.inj (List.mem_singleton.1 hj)
    exact hplain
  nodup := List.nodup_singleton _
  field _ k hk := List.mem_singleton.1 hk
  extra hcar := by simp [hc] at hcar
  word w hw := List.mem_singleton.2 (hword w hw)

/-- **The part of a property that is no carrier**: the word of a type, or the value of its field. -/
theorem exists_part_field (P : c.PlannedBy .json s) (ho : c.object? t = some o)
    (hplan : c.Plans .json t o plan) (hf : c.Filled t fields) {declared : Handle}
    (hcan : c.Canonical .json declared t fields) (H : FieldsTrip c s t fields d)
    (hp : p ∈ c.plannedProperties t) (hc : p.carrier = false) {shape : Shape}
    (hshape : c.Forms .standard p.type shape) (hfault : Catalogue.layoutFault? .json p shape = none) :
    ∃ ms, Part s plan fields d p
      (.field (c.fieldStep .json t o p shape) (Catalogue.fieldAction .json p shape)) ms := by
  have hact := (hplan.actions (Catalogue.wireName .json p) _).2
    ⟨p, hp, hc, rfl, shape, hshape, hfault, rfl⟩
  have hflat := hshape.not_flattened
  rcases P.emissionOf_eq ho p shape with ⟨⟨r, g, hr⟩, he⟩ | ⟨-, he⟩
  · obtain ⟨w, hw, hdis⟩ := hcan.word r p.name g hr
    obtain ⟨v, hv, hreads⟩ := hdis p hp rfl
    refine ⟨_, part_of_member hc hact hflat hv (j := .text w) ?_ (fun room _ =>
      takes_of_readsAs P hshape hreads room _ _) .text fun w' hw' => ?_⟩
    · rw [Encode.step, Catalogue.Planned.step, Catalogue.fieldStep, he, hw]
      rfl
    · rw [Catalogue.Planned.step, Catalogue.fieldStep, he, hw] at hw'
      obtain rfl := Option.some.inj (Emission.discriminator.inj hw')
      rfl
  · have hword : ∀ w, (Catalogue.Planned.field (c.fieldStep .json t o p shape)
        (Catalogue.fieldAction .json p shape)).step.emission ≠ .discriminator (some w) := by
      intro w hw
      rw [Catalogue.Planned.step, Catalogue.fieldStep, he] at hw
      cases hw
    rcases hv : Table.find? fields p.name with _ | v
    · have hoptional : p.required = false := by
        refine Bool.eq_false_iff.2 fun hr => ?_
        obtain ⟨v, hv'⟩ := hf.required p hp hc hr
        simp [hv] at hv'
      refine ⟨[], part_of_none ?_ hv hword⟩
      rw [Encode.step, Catalogue.Planned.step, Catalogue.fieldStep, he]
      dsimp only
      rw [hoptional, hv]
      exact addsMembers_pure
    · obtain ⟨j, hj⟩ := H.field p hp hc v hv shape hshape
      refine ⟨_, part_of_member hc hact hflat hv (j := j) ?_ (fun room hr => hj.read room hr _) hj.plain
        fun w hw => absurd hw (hword w)⟩
      rw [Encode.step, Catalogue.Planned.step, Catalogue.fieldStep, he]
      dsimp only
      rw [hv]
      exact hj.written _

/-- **The part of a carrier**: the entries it holds, none of which has the key of a property. -/
theorem exists_part_carrier (hplan : c.Plans .json t o plan) (hf : c.Filled t fields)
    {declared : Handle} (hcan : c.Canonical .json declared t fields) (H : FieldsTrip c s t fields d)
    (hp : p ∈ c.plannedProperties t) (hc : p.carrier = true) {r : Reference} {m : Bool} {shape : Shape}
    (ht : p.type = .collection .mapping r m) (hs : c.Forms .standard r shape) :
    ∃ ms, Part s plan fields d p
      (.carrier (Catalogue.carrierStep .json p shape m) ⟨p.name, shape, m⟩) ms := by
  have htarget := (hplan.carrier ⟨p.name, shape, m⟩).2 ⟨p, hp, hc, r, shape, m, ht, hs, rfl⟩
  rcases hv : Table.find? fields p.name with _ | v
  · refine ⟨[], part_of_none ?_ hv fun w hw => by cases hw⟩
    rw [Encode.step, Catalogue.Planned.step, Catalogue.carrierStep]
    dsimp only
    rw [hv]
    exact addsMembers_pure
  · obtain ⟨es, rfl, -, hasc⟩ := hf.carried p hp hc v hv
    obtain ⟨ms, hms⟩ := H.extra p hp hc es hv r m shape ht hs
    have hkeys : ∀ k ∈ Table.keys es, Table.contains plan.read.actions k = false := by
      intro k hk
      refine Bool.eq_false_iff.2 fun hcontains => ?_
      obtain ⟨a, ha⟩ := Table.contains_iff_exists.1 hcontains
      obtain ⟨q, hq, hqc, rfl, -⟩ := (hplan.actions k a).1 ha
      exact hcan.keys p hp hc es hv q hq hqc hk
    refine ⟨ms, ?_, fun room hr => ?_, hms.plain, hms.keys_eq ▸ hasc.nodup, by simp [hc],
      fun _ => hms.keys_eq ▸ hkeys, fun w hw => by cases hw⟩
    · rw [Encode.step, Catalogue.Planned.step, Catalogue.carrierStep]
      dsimp only
      rw [hv]
      exact extras_addsMembers (hms.imp fun e x hx => ⟨hx.1, hx.2.written _⟩) hkeys
    · exact absorbs_extras htarget hc hv hkeys
        (hms.imp fun e x hx => ⟨hx.1, hx.2.read room hr e.1⟩)

/-- **The part of a property** in the tree of an object. -/
theorem exists_part (P : c.PlannedBy .json s) (ho : c.object? t = some o)
    (hplan : c.Plans .json t o plan) (hf : c.Filled t fields) {declared : Handle}
    (hcan : c.Canonical .json declared t fields) (H : FieldsTrip c s t fields d)
    (hp : p ∈ c.plannedProperties t) (hx : c.Contributes .json t o p x) :
    ∃ ms, Part s plan fields d p x ms := by
  cases hx with
  | field hc hshape hfault => exact exists_part_field P ho hplan hf hcan H hp hc hshape hfault
  | carrier hc ht hs => exact exists_part_carrier hplan hf hcan H hp hc ht hs

end Part

/-- The key is that of a property, or one of its carrier's. -/
def Owns (plan : TypePlan) (p : Property) (k : String) : Prop :=
  if p.carrier then Table.contains plan.read.actions k = false else k = Catalogue.wireName .json p

theorem Part.owns {p : Property} {x : Catalogue.Planned} {ms : List (String × Json)}
    (h : Part s plan fields d p x ms) {k : String} (hk : k ∈ Table.keys ms) : Owns plan p k := by
  unfold Owns
  split
  · rename_i hc
    exact h.extra hc k hk
  · rename_i hc
    exact h.field (Bool.eq_false_iff.2 hc) k hk

/-- Different properties own different keys. -/
theorem owns_unique (W : c.WellFormed) (ho : c.object? t = some o) (hplan : c.Plans .json t o plan)
    {p q : Property} (hp : p ∈ c.plannedProperties t) (hq : q ∈ c.plannedProperties t) {k : String}
    (hpk : Owns plan p k) (hqk : Owns plan q k) : p = q := by
  have hmixed : ∀ p q : Property, p ∈ c.plannedProperties t → p.carrier = false →
      Owns plan p k → q.carrier = true → ¬ Owns plan q k := by
    intro p q hp hpc hpk hqc hqk
    rw [Owns, if_neg (by simp [hpc])] at hpk
    rw [Owns, if_pos hqc, hpk] at hqk
    obtain ⟨_, -, -, ha⟩ := hplan.action_of_mem hp hpc
    simp [Table.contains, ha] at hqk
  cases hpc : p.carrier with
  | true =>
    cases hqc : q.carrier with
    | true => exact W.eq_of_carrier ho hp hpc hq hqc
    | false => exact absurd hpk (hmixed q p hq hqc hqk hpc)
  | false =>
    cases hqc : q.carrier with
    | true => exact absurd hqk (hmixed p q hp hpc hpk hqc)
    | false =>
      rw [Owns, if_neg (by simp [hpc])] at hpk
      rw [Owns, if_neg (by simp [hqc])] at hqk
      exact W.eq_of_wireName ho hp hpc hq hqc (hpk.symm.trans hqk)

/-- The members that the steps of several properties add. -/
structure Parts (s : PlanSet) (plan : TypePlan) (fields : Table String Value) (d : Nat)
    (qs : List Property) (ps : List Catalogue.Planned) (ms : List (String × Json)) : Prop where
  written : AddsMembers ((ps.map Catalogue.Planned.step).forM fun st =>
    Encode.step s plan fields st) ms
  read : ∀ room, d ≤ room →
    Absorbs (Decode.value s room) plan ms fun scan => qs.foldl (Decode.Scan.absorb fields) scan
  plain : ∀ k j, (k, j) ∈ ms → Plain d j
  nodup : (Table.keys ms).Nodup
  owned : ∀ k ∈ Table.keys ms, ∃ q ∈ qs, Owns plan q k
  word : ∀ x ∈ ps, ∀ w, x.step.emission = .discriminator (some w) → (x.step.wire, .text w) ∈ ms

/-- **The parts of an object** follow each other. -/
theorem exists_parts (W : c.WellFormed) (ho : c.object? t = some o) (hplan : c.Plans .json t o plan)
    {qs : List Property} {ps : List Catalogue.Planned}
    (H : List.Forall₂ (c.Contributes .json t o) qs ps)
    (hpart : ∀ q ∈ qs, ∀ x, c.Contributes .json t o q x → ∃ ms, Part s plan fields d q x ms)
    (hq : ∀ q ∈ qs, q ∈ c.plannedProperties t) (hn : qs.Nodup) :
    ∃ ms, Parts s plan fields d qs ps ms := by
  induction H with
  | nil =>
    exact ⟨[], addsMembers_pure, fun _ _ => absorbs_nil, by simp, List.nodup_nil,
      by simp [Table.keys], by simp⟩
  | @cons q x qs ps hx _ ih =>
    obtain ⟨hpart, hparts⟩ := List.forall_mem_cons.1 hpart
    obtain ⟨hqt, hqs⟩ := List.forall_mem_cons.1 hq
    obtain ⟨hqn, hn⟩ := List.nodup_cons.1 hn
    obtain ⟨ns, hns⟩ := hpart x hx
    obtain ⟨ms, hms⟩ := ih hparts hqs hn
    have hkeys : Table.keys (ns ++ ms) = Table.keys ns ++ Table.keys ms := List.map_append
    refine ⟨ns ++ ms, hns.written.bind hms.written, fun room hr =>
      (hns.read room hr).append (hms.read room hr), fun k j hj => ?_, ?_, fun k hk => ?_,
      fun y hy w hw => ?_⟩
    · rcases List.mem_append.1 hj with hj | hj
      · exact hns.plain k j hj
      · exact hms.plain k j hj
    · rw [hkeys]
      refine List.nodup_append.2 ⟨hns.nodup, hms.nodup, ?_⟩
      rintro k hk _ hk' rfl
      obtain ⟨q', hq', hown⟩ := hms.owned k hk'
      obtain rfl := owns_unique W ho hplan hqt (hqs q' hq') (hns.owns hk) hown
      exact hqn hq'
    · rw [hkeys] at hk
      rcases List.mem_append.1 hk with hk | hk
      · exact ⟨q, List.mem_cons_self, hns.owns hk⟩
      · obtain ⟨q', hq', hown⟩ := hms.owned k hk
        exact ⟨q', List.mem_cons_of_mem _ hq', hown⟩
    · rcases List.mem_cons.1 hy with rfl | hy
      · exact List.mem_append_left _ (hns.word w hw)
      · exact List.mem_append_right _ (hms.word y hy w hw)

theorem firstText?_of_mem {ms : List (String × Json)} (hn : (Table.keys ms).Nodup) {k w : String}
    (h : (k, .text w) ∈ ms) : firstText? k ms = some w := by
  induction ms with
  | nil => cases h
  | cons m ms ih =>
    obtain ⟨k', j⟩ := m
    obtain ⟨hk', hms⟩ := List.nodup_cons.1 hn
    rcases List.mem_cons.1 h with he | hmem
    · obtain ⟨rfl, rfl⟩ := Prod.mk.inj he
      rw [firstText?, if_pos rfl]
    · have hne : k' ≠ k := by
        rintro rfl
        exact hk' (List.mem_map.2 ⟨_, hmem, rfl⟩)
      have hrest := ih hms hmem
      cases j with
      | text s => rw [firstText?, if_neg hne, hrest]
      | _ => exact hrest

/-- The plan that an object is read along where it is recognised is that of its type. -/
theorem concretePlan_run (P : c.PlannedBy .json s) (ho : c.object? t = some o)
    (hp : s.type? t = some plan) (hplan : c.Plans .json t o plan) {declared : Handle}
    (hcan : c.Canonical .json declared t fields) {ps : List Catalogue.Planned}
    (hps : List.Forall₂ (c.Contributes .json t o) (c.plannedProperties t) ps)
    {ms : List (String × Json)} (hms : Parts s plan fields d (c.plannedProperties t) ps ms) :
    ∃ declaredPlan, s.type? declared = some declaredPlan ∧ ∀ stack,
      (Decode.concretePlan s declaredPlan : Reading Reader TypePlan)
        ⟨none, .object ms :: stack⟩ = .ok plan ⟨none, .object ms :: stack⟩ := by
  by_cases hg : ∃ r, c.Governs r t
  · obtain ⟨r, g⟩ := hg
    have gd : c.Governs r declared := by
      rcases hcan.selects with rfl | ⟨r', gd, gt, -⟩
      · exact g
      · rwa [g.unique gt]
    obtain ⟨d', hd'⟩ := g.2.1
    obtain ⟨w, hw, -⟩ := hcan.word r d' g hd'
    obtain ⟨od, hod⟩ := gd.exists_object
    obtain ⟨declaredPlan, hdp, hdplan⟩ := P.exists_plans hod
    obtain ⟨disp, hdisp, hvariant, hwire⟩ :=
      P.exists_dispatch gd g hcan.selects.inherits hw hdplan
    obtain ⟨p, hpt, rfl, -, -⟩ := P.exists_discriminator g hd'
    obtain ⟨hw1, -⟩ := hwire p hpt hd'
    obtain ⟨x, hx, hcontr⟩ := forall₂_exists_left hps hpt
    have hmem : (disp.wire, Json.text w) ∈ ms := by
      cases hcontr with
      | @field shape hc _ _ =>
        rcases P.emissionOf_eq ho p shape with ⟨-, he⟩ | ⟨hnone, -⟩
        · rw [hw1]
          exact hms.word _ hx w (by rw [← hw]; exact he)
        · exact absurd hd' (hnone r g)
      | carrier hc ht _ =>
        obtain ⟨q, hq, hqn, hqc, -⟩ := P.exists_discriminator g hd'
        obtain rfl := P.wellFormed.eq_of_name ho hq hpt hqn
        simp [hc] at hqc
    refine ⟨declaredPlan, hdp, fun stack => ?_⟩
    have hpeek : Source.peekField disp.wire disp.placement
        (⟨none, .object ms :: stack⟩ : Reader) = .ok (some w) ⟨none, .object ms :: stack⟩ := by
      have hfirst := firstText?_of_mem hms.nodup hmem
      refine (run_bind (rfl : (get : Reading Reader Reader) _ = .ok _ _)).trans ?_
      dsimp only
      rw [hfirst]
      rfl
    rw [Decode.concretePlan, hdisp]
    refine (run_bind hpeek).trans ?_
    dsimp only
    rw [hvariant]
    dsimp only
    rw [Decode.typePlan, hp]
    rfl
  · rcases hcan.selects with rfl | ⟨r, -, g, -⟩
    · refine ⟨plan, hp, fun stack => ?_⟩
      rw [Decode.concretePlan, P.discriminator_eq_none (fun r g => hg ⟨r, g⟩) hplan]
      rfl
    · exact absurd ⟨r, g⟩ hg

/-- **An object and its tree**, as it is written at any position and read wherever it is
recognised. -/
theorem exists_object (P : c.PlannedBy .json s) (ho : c.object? t = some o)
    (hf : c.Filled t fields) {declared : Handle} (hcan : c.Canonical .json declared t fields)
    (H : FieldsTrip c s t fields d) :
    ∃ ms, Plain (d + 1) (.object ms) ∧
      (∀ pos expected, (∀ h, expected = some h → c.Inherits t h) →
        Encode.object s pos expected t fields = emit (keyOf pos) (.object ms)) ∧
      ∀ room, d ≤ room →
        Takes (Decode.object s (Decode.value s room) declared) (.object ms) ⟨t, fields⟩ := by
  have W := P.wellFormed
  obtain ⟨plan, hp, hplan⟩ := P.exists_plans ho
  obtain ⟨ps, hps, hsteps⟩ := hplan.steps
  have hnodup : (c.plannedProperties t).Nodup := List.Nodup.of_map _ (W.nodup_plannedProperties ho)
  obtain ⟨ms, hms⟩ := exists_parts W ho hplan hps
    (fun q hq x hx => exists_part P ho hplan hf hcan H hq hx) (fun _ hq => hq) hnodup
  obtain ⟨declaredPlan, hdeclared, hconcrete⟩ := concretePlan_run P ho hp hplan hcan hps hms
  refine ⟨ms, .object hms.nodup hms.plain, fun pos expected hexp => ?_, fun room hr => ?_⟩
  · have hwritten := hms.written
    rw [← show plan.write.steps = ps.map Catalogue.Planned.step from hsteps] at hwritten
    exact object_eq (Encode.instancePlan_eq_ok hp (hplan.isAbstract.trans (hcan.concrete o ho))
      (fun k hk => (P.isSubtype_iff ho).2 (hexp k hk)) pos) hwritten hms.nodup
  · exact object_run hdeclared hconcrete (hms.read room hr)
      (Decode.make_foldl_absorb W ho hplan hf (fun _ => Iff.rfl) (W.nodup_plannedProperties ho))

end Object

/-! ## Values -/

/-- A value of a type has a tree, and a map has members of the same keys, also where it is the value
of a carrier. -/
structure Trips (c : Catalogue) (s : PlanSet) (allowed : Bool) (r : Reference) (v : Value) : Prop where
  tree : ∀ l shape, c.Forms l r shape → ∃ j, RoundTrips s (c.nesting false v) shape allowed v j
  entries : ∀ es r' m shape, v = .map es → r = .collection .mapping r' m →
    c.Forms .standard r' shape → ∃ ms, EntriesTrip s (c.nestingEntries es) shape m es ms

theorem fieldsTrip_of_trips (P : c.PlannedBy .json s) {t : Handle} {o : ObjectType}
    {fields : Table String Value} (ho : c.object? t = some o)
    (H : ∀ p ∈ c.plannedProperties t, ∀ v, Table.find? fields p.name = some v →
      Trips c s (p.nullable && !p.carrier) p.type v) :
    FieldsTrip c s t fields (c.nestingFields (c.carrierName? t) fields) := by
  constructor
  · intro p hp hc v hv shape hshape
    obtain ⟨j, hj⟩ := (H p hp v hv).tree _ _ hshape
    have hle := P.wellFormed.nesting_le_nestingFields ho hp hv
    rw [hc] at hj hle
    rw [Bool.not_false, Bool.and_true] at hj
    exact ⟨j, hj.mono hle⟩
  · intro p hp hc es hes r m shape hr hshape
    obtain ⟨ms, hms⟩ := (H p hp _ hes).entries es r m shape rfl hr hshape
    have hle := P.wellFormed.nesting_le_nestingFields ho hp hes
    rw [hc, Catalogue.nesting, if_pos rfl, Nat.add_zero] at hle
    exact ⟨ms, hms.imp fun e x hx => ⟨hx.1, hx.2.mono hle⟩⟩

/-- **Every canonical value that holds no doubles has a tree.** -/
theorem trips_of_conforms (P : c.PlannedBy .json s) {allowed : Bool} {r : Reference} {v : Value}
    (h : c.Conforms (c.Canonical .json) allowed r v) (hx : v.isExact = true) :
    Trips c s allowed r v := by
  induction h with
  | null => exact ⟨fun l shape _ => ⟨.null, roundTrips_null shape⟩, by simp⟩
  | @primitive n h kind v hk hv =>
    refine ⟨fun l shape hshape => ?_, by rintro _ _ _ _ - ⟨⟩⟩
    obtain rfl := hshape.unique (.primitive hk)
    rw [Catalogue.nesting_of_holds hv]
    exact exists_roundTrips_primitive hv hx n
  | @enumeration n h e w hk hw =>
    refine ⟨fun l shape hshape => ?_, by simp⟩
    obtain rfl := hshape.unique (.enumeration hk)
    exact exists_roundTrips_enumeration P hk hw n
  | @list n m r vs _ ih =>
    refine ⟨fun l shape hshape => ?_, by simp⟩
    cases hshape with
    | sequence helement =>
      refine exists_roundTrips_list (fun v hv => ?_) l n
      obtain ⟨j, hj⟩ := (ih v hv (Value.areExact_iff.1 hx v hv)).tree _ _ helement
      exact ⟨j, hj.mono (Catalogue.nestingItems_le_iff.1 (Nat.le_refl _) v hv)⟩
  | @map n m r es hasc _ ih =>
    have hentries : ∀ shape, c.Forms .standard r shape → ∀ k v, (k, v) ∈ es →
        ∃ j, RoundTrips s (c.nestingEntries es) shape m v j := by
      intro shape hshape k v hv
      obtain ⟨j, hj⟩ := (ih k v hv (Value.entriesAreExact_iff.1 hx k v hv)).tree _ _ hshape
      exact ⟨j, hj.mono (Catalogue.nestingEntries_le_iff.1 (Nat.le_refl _) k v hv)⟩
    refine ⟨fun l shape hshape => ?_, fun es' r' m' shape he hr hshape => ?_⟩
    · cases hshape with
      | mapping helement => exact exists_roundTrips_map hasc (hentries _ helement) n
    · obtain rfl := Value.map.inj he
      obtain ⟨-, rfl, rfl⟩ := Reference.collection.inj hr
      exact exists_entriesTrip (hentries shape hshape)
  | @object n h t o fields type slot ascending declared required carried typed ih =>
    refine ⟨fun l shape hshape => ?_, by simp⟩
    have hfilled := P.wellFormed.filled_of_conforms ascending declared required carried typed
    have htrip := fieldsTrip_of_trips P type fun p hp v hv =>
      ih p hp v hv (Value.entriesAreExact_iff.1 hx _ v (Table.mem_of_find? hv))
    obtain ⟨ms, hplain, hwritten, hread⟩ := exists_object P type hfilled slot htrip
    obtain ⟨oh, hoh⟩ := Catalogue.object?_of_inherits P.wellFormed.base type slot.selects.inherits
    obtain rfl := hshape.unique (.object hoh)
    refine ⟨.object ms, fun pos => ?_, fun room hr name => ?_, hplain⟩
    · rw [Encode.value]
      exact hwritten pos (some h) fun k hk => Option.some.inj hk ▸ slot.selects.inherits
    · obtain ⟨room, rfl⟩ := Nat.exists_eq_add_of_le' hr
      refine takes_of_shaped (by simp) fun stack => ?_
      rw [Catalogue.nesting, ← Nat.add_assoc, innerOf, Decode.shaped]
      refine (run_bind (hread _ (by omega) stack)).trans ?_
      rfl

end Json

namespace Document

/-- **The tree of the document of a canonical object**, from which the object is read where there is
room for it. -/
theorem exists_written_of_canonical {c : Catalogue} {plans : PlanSet} (P : c.PlannedBy .json plans)
    {declared : Handle} {i : Instance}
    (hi : c.Conforms (c.Canonical .json) false (.named declared) i.toValue)
    (hx : i.toValue.isExact = true) :
    ∃ j, Json.Plain (c.nesting false i.toValue) j ∧ write .json plans i = .ok (Json.compact j) ∧
      ∀ room, c.nesting false i.toValue ≤ room + 1 →
        Json.Reader.Takes (Decode.object plans (Decode.value plans room) declared) j i := by
  obtain ⟨t, fields⟩ := i
  rw [Instance.toValue] at hi hx ⊢
  cases hi with
  | primitive _ hv => exact absurd hv Primitive.not_holds_object
  | @object _ _ _ o _ type slot ascending declared' required carried typed =>
    have hfilled := P.wellFormed.filled_of_conforms ascending declared' required carried typed
    have htrip := Json.fieldsTrip_of_trips P type fun p hp v hv =>
      Json.trips_of_conforms P (typed p hp v hv)
        (Value.entriesAreExact_iff.1 hx _ v (Table.mem_of_find? hv))
    obtain ⟨ms, hplain, hwritten, hread⟩ := Json.exists_object P type hfilled slot htrip
    obtain ⟨plan, hplan, -⟩ := P.exists_plans type
    refine ⟨.object ms, hplain, ?_, fun room hr => ?_⟩
    · have hroot : Encode.root plans ⟨t, fields⟩ (Sink.start : Json.Writer) =
          .ok () ⟨[], some (.object ms)⟩ := by
        have htype : Encode.typePlan plans t = .ok plan := by
          rw [Encode.typePlan, hplan]
        rw [Encode.root, htype]
        refine (Outcome.run_bind (rfl : Writing.lift (.ok plan) _ = .ok plan _)).trans ?_
        rw [hwritten _ none (by simp)]
        rfl
      rw [write, if_pos P.format, encode, hroot]
      rfl
    · rw [Catalogue.nesting, Nat.add_le_add_iff_right] at hr
      exact hread room hr

/-- Along the plans of a catalogue a canonical object is written, and read back from what is written. -/
theorem written_and_read_of_canonical {c : Catalogue} {plans : PlanSet} (P : c.PlannedBy .json plans)
    {declared : Handle} {i : Instance}
    (hi : c.Conforms (c.Canonical .json) false (.named declared) i.toValue)
    (hx : i.toValue.isExact = true) (hn : c.nesting false i.toValue ≤ Json.depthLimit) :
    ∃ doc, write .json plans i = .ok doc ∧
      read .json plans declared (Text.toBytes doc) = .ok i := by
  obtain ⟨j, hplain, hwrite, hread⟩ := exists_written_of_canonical P hi hx
  refine ⟨Json.compact j, hwrite, ?_⟩
  have hbytes : Json.Reader.ofBytes (Text.toBytes (Json.compact j)) = .ok (Json.Reader.ofTree j) := by
    rw [Json.Reader.ofBytes, Json.ofBytes?_toBytes_compact (hplain.mono hn)]
  have hroot : Decode.root plans declared (Json.Reader.ofTree j) = .ok i ⟨none, []⟩ :=
    hread (Decode.depthLimit - 1) (Nat.le_succ_of_le hn) []
  rw [read, if_pos P.format, hbytes]
  refine (show _ = decode plans declared (Json.Reader.ofTree j) from rfl).trans ?_
  rw [decode, hroot]

/-- **A canonical object is read back from its JSON document**, declared as its own type or as one
above it in its hierarchy. -/
theorem read_write_json {c : Catalogue} (hc : c.Reachable) {cancelled : Bool} {plans : PlanSet}
    (hp : c.planAll .json cancelled = .ok plans) {declared : Handle} {i : Instance}
    (hi : c.Conforms (c.Canonical .json) false (.named declared) i.toValue)
    (hx : i.toValue.isExact = true) (hn : c.nesting false i.toValue ≤ Json.depthLimit) :
    ∃ doc, write .json plans i = .ok doc ∧
      read .json plans declared (Text.toBytes doc) = .ok i :=
  written_and_read_of_canonical (Catalogue.planAll_spec hc hp) hi hx hn

/-- A circle. -/
def circle : Instance :=
  ⟨⟨9⟩, [("kind", .text "circle"), ("labels", .list [.text "a"]),
    ("others", .map [("big", .null)]), ("radius", .integer 5)]⟩

theorem canonical_circle :
    Catalogue.sealedShapes.Canonical .json ⟨8⟩ ⟨9⟩ circle.fields where
  selects := .inr ⟨⟨8⟩, ⟨.refl _, Catalogue.governs_circle.2⟩, Catalogue.governs_circle, Catalogue.governs_circle.1⟩
  concrete o ho := by
    obtain rfl := Option.some.inj ho
    rfl
  word r d g hd := by
    obtain rfl := g.unique Catalogue.governs_circle
    obtain rfl : d = "kind" := hd.unique ⟨_, rfl, rfl⟩
    refine ⟨"circle", rfl, fun p hp hpd => ⟨.text "circle", rfl, ⟨0⟩, ?_, .inl ⟨rfl, rfl⟩⟩⟩
    have hall : ∀ p ∈ Catalogue.sealedShapes.plannedProperties ⟨9⟩, p.name = "kind" →
        p.type = .named ⟨0⟩ := by decide
    exact hall p hp hpd
  keys p hp hc es hes q hq hqc := by
    have hall : ∀ p ∈ Catalogue.sealedShapes.plannedProperties ⟨9⟩, p.carrier = true →
        p.name = "others" := by decide
    have hkeys : ∀ q ∈ Catalogue.sealedShapes.plannedProperties ⟨9⟩,
        Catalogue.wireName .json q ≠ "big" := by decide
    rw [hall p hp hc] at hes
    obtain rfl := Value.map.inj (Option.some.inj hes)
    exact fun hmem => hkeys q hq (List.mem_singleton.1 hmem)

theorem plannedProperties_circle : Catalogue.sealedShapes.plannedProperties circle.type =
    [{ name := "kind", wire := "kind", type := .named ⟨0⟩, required := true },
      { name := "radius", wire := "r", type := .named ⟨2⟩, placement := .attribute },
      { name := "labels", wire := "labels", type := .collection .sequence (.named ⟨0⟩) false },
      { name := "others", wire := "others", carrier := true
        type := .collection .mapping (.named ⟨1⟩) true }] := by
  decide

theorem conforms_circle : Catalogue.sealedShapes.Conforms (Catalogue.sealedShapes.Canonical .json)
    false (.named ⟨8⟩) circle.toValue := by
  have hstring : Catalogue.sealedShapes.kind? ⟨0⟩ = some (.primitive .string) := rfl
  have hinteger : Catalogue.sealedShapes.kind? ⟨2⟩ = some (.primitive .integer) := rfl
  refine .object rfl canonical_circle (by decide) ?_ ?_ ?_ ?_ <;>
    simp only [plannedProperties_circle, List.forall_mem_cons]
  · intro k v hkv
    have hnames : ∀ k ∈ Table.keys circle.fields, k ∈ ["kind", "radius", "labels", "others"] := by
      decide
    simpa [eq_comm] using hnames k (List.mem_map.2 ⟨_, hkv, rfl⟩)
  · exact ⟨fun _ _ => ⟨_, rfl⟩, by simp, by simp, by simp, by simp⟩
  · refine ⟨by simp, by simp, by simp, fun _ h => ?_, by simp⟩
    cases Value.map.inj (Option.some.inj h)
  · refine ⟨fun v hv => ?_, fun v hv => ?_, fun v hv => ?_, fun v hv => ?_, by simp⟩ <;>
      obtain rfl := Option.some.inj hv
    · exact .primitive hstring trivial
    · exact .primitive hinteger (rfl : Number.fits 32 5 = true)
    · refine .list fun v hv => ?_
      obtain rfl := List.mem_singleton.1 hv
      exact .primitive hstring trivial
    · refine .map (by decide) fun k v hkv => ?_
      obtain ⟨rfl, rfl⟩ := Prod.mk.inj (List.mem_singleton.1 hkv)
      exact .null

theorem read_write_json_circle : ∃ doc,
    write .json (Catalogue.shapePlans .json) circle = .ok doc ∧
      read .json (Catalogue.shapePlans .json) ⟨8⟩ (Text.toBytes doc) = .ok circle :=
  read_write_json Catalogue.reachable_sealedShapes (Catalogue.planAll_sealedShapes .json)
    conforms_circle rfl (by decide)

end Document

end Marshal
