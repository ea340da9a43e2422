import Marshal.Proofs.Json.Rendering
import Marshal.Proofs.Json.Walk
import Marshal.Proofs.Json.RoundTrip
import Marshal.Proofs.Wire.Verdict

/-!
# Discriminators in JSON

The word of a type is written for its discriminator, whatever the object holds there
(`Draft.ofInstance?_put`), and it is read as the property is. So an object that is canonical beside its
discriminator (`Catalogue.CanonicalBeside`) is canonical with what the word is read as
(`Catalogue.CanonicalBeside.conforms_put`). Where the enumeration of the discriminator refuses the word,
nothing else in the tree of the object is at fault (`Catalogue.CanonicalBeside.object_eq_error`): the
parts of all other properties are legible (`Json.legible_of_part`).
-/

namespace Marshal

open Catalogue Outcome

/-! ## The value of one property -/

/-- The object with a value of a property in place of the one it had. -/
def Instance.put (i : Instance) (name : String) (v : Value) : Instance :=
  { i with fields := Table.insert i.fields name v }

/-- The object without its value of a property. -/
def Instance.without (i : Instance) (name : String) : Instance :=
  { i with fields := i.fields.filter fun e => e.1 ≠ name }

namespace Instance

variable {i : Instance} {name k : String} {v w : Value}

/-- What an object holds when a value was put in is that value and what it held under other names. -/
theorem mem_put (h : Table.Ascending i.fields) (hm : (k, w) ∈ (i.put name v).fields) :
    k = name ∧ w = v ∨ (k, w) ∈ (i.without name).fields := by
  have hfind := (Table.find?_eq_some_iff (Table.ascending_insert h name v)).2 hm
  rw [Table.find?_insert] at hfind
  split at hfind
  · rename_i hk
    exact .inl ⟨hk, (Option.some.inj hfind).symm⟩
  · rename_i hk
    exact .inr (List.mem_filter.2 ⟨Table.mem_of_find? hfind, by simpa using hk⟩)

/-- Without a property an object holds what it held under other names. -/
theorem find?_without (i : Instance) (name k : String) :
    Table.find? (i.without name).fields k = if k = name then none else Table.find? i.fields k := by
  rw [without]
  induction i.fields with
  | nil => simp [Table.find?_nil]
  | cons e fields ih =>
    by_cases he : e.1 = name
    · rw [List.filter_cons_of_neg (by simpa using he), ih]
      grind [Table.find?]
    · rw [List.filter_cons_of_pos (by simpa using he), Table.find?, ih]
      grind [Table.find?]

/-- With a value that holds no doubles and does not nest, the object is as it was without it. -/
theorem isExact_put (h : Table.Ascending i.fields) (hx : (i.without name).toValue.isExact = true)
    (hv : v.isExact = true) : (i.put name v).toValue.isExact = true := by
  refine Value.entriesAreExact_iff.2 fun k w hm => ?_
  rcases mem_put h hm with ⟨-, rfl⟩ | hm
  · exact hv
  · exact Value.entriesAreExact_iff.1 hx k w hm

theorem nesting_put_le {c : Catalogue} {n : Nat} (h : Table.Ascending i.fields)
    (hn : c.nesting false (i.without name).toValue ≤ n + 1) (hv : ∀ b, c.nesting b v = 0) :
    c.nesting false (i.put name v).toValue ≤ n + 1 := by
  rw [toValue, nesting, Nat.add_le_add_iff_right, nestingFields_le_iff] at *
  intro k w hm
  rcases mem_put h hm with ⟨-, rfl⟩ | hm
  · rw [hv]
    exact Nat.zero_le n
  · exact hn k w hm

end Instance

/-- A carrier has the name of no other property. -/
theorem Catalogue.WellFormed.name_ne_of_carrier {c : Catalogue} (W : c.WellFormed) {t : Handle}
    {o : ObjectType} (ho : c.object? t = some o) {p q : Property} (hp : p ∈ c.plannedProperties t)
    (hc : p.carrier = false) (hq : q ∈ c.plannedProperties t) (hqc : q.carrier = true) :
    q.name ≠ p.name := by
  intro hn
  rw [W.eq_of_name ho hq hp hn, hc] at hqc
  cases hqc

namespace Draft

variable {c : Catalogue} {f : Format} {s : PlanSet} {plan : TypePlan} {st : Step}
  {fields fields' : List (String × Value)}

/-- What a step writes depends on the value of its property. -/
theorem ofStep?_congr (h : Table.find? fields st.property = Table.find? fields' st.property) :
    ofStep? s plan fields st = ofStep? s plan fields' st := by
  rcases he : st.emission with shape | word | ⟨shape, n⟩
  · rw [Encode.ofStep?_value he, Encode.ofStep?_value he, h]
  · rw [Encode.ofStep?_discriminator he, Encode.ofStep?_discriminator he]
  · rw [Encode.ofStep?_entries he, Encode.ofStep?_entries he, h]

/-- **The word of the type is written for a discriminator**, whatever the object holds there. -/
theorem ofInstance?_put (P : c.PlannedBy f s) {i : Instance} {p : Property}
    (hp : p ∈ c.plannedProperties i.type) (hc : p.carrier = false) (hdis : c.Distinguishes i.type p)
    (v : Value) : ofInstance? s (i.put p.name v) = ofInstance? s i := by
  rw [ofInstance?, ofInstance?, ofObject?, ofObject?]
  show (plan? s none i.type >>= _) = _
  rcases hplan : plan? s none i.type with _ | plan
  · rfl
  · obtain ⟨htype, -⟩ := plan?_eq_some_iff.1 hplan
    obtain ⟨o, ho, hplans⟩ := P.plans htype
    have hstep : ∀ st ∈ plan.write.steps,
        ofStep? s plan (i.put p.name v).fields st = ofStep? s plan i.fields st := by
      refine hplans.forall_steps.2 fun q hq x hx => ?_
      by_cases hqp : q = p
      · subst hqp
        cases hx with
        | @field shape =>
          obtain ⟨r, g, hnames⟩ := hdis
          rcases P.emissionOf_eq ho q shape with ⟨-, he⟩ | ⟨hnone, -⟩
          · rw [@Encode.ofStep?_discriminator _ _ _ _ (c.word? i.type) he,
              @Encode.ofStep?_discriminator _ _ _ _ (c.word? i.type) he]
          · exact absurd hnames (hnone r g)
        | carrier hcarrier =>
          rw [hc] at hcarrier
          cases hcarrier
      · have hname : x.step.property ≠ p.name := by
          rw [hx.step_property]
          exact fun he => hqp (P.wellFormed.eq_of_name ho hq hp he)
        exact ofStep?_congr (Table.find?_insert_of_ne _ _ hname)
    have hparts : plan.write.steps.mapM (fun st => ofStep? s plan (i.put p.name v).fields st) =
        plan.write.steps.mapM fun st => ofStep? s plan i.fields st :=
      mapM_eq_of_forall₂ (List.forall₂_same.2 hstep) fun _ _ h => h
    show (plan.write.steps.mapM (fun st => ofStep? s plan (i.put p.name v).fields st) >>= _) = _
    rw [hparts]
    rfl

end Draft

/-! ## Parts that are read -/

/-- A word that an enumeration does not take is refused wherever it stands. -/
theorem Tree.value_of_refused_word {τ : Type} [Tree τ] {c : Catalogue} {f : Format} {s : PlanSet}
    (P : c.PlannedBy f s) {h : Handle} {e : Enumeration} (he : c.kind? h = some (.enumeration e))
    {w : String} (hread : e.read? w = none) {node : τ} (hn : Tree.isNull node = false)
    (ht : Tree.scalar node = .ok (.text w)) {room : Nat} {allowed : Bool} {name : String} :
    value s room (.enumeration h) allowed name node =
      .error (.unknownEnumValue (c.nameOf h) w) := by
  rw [value_of_not_null hn, shaped, enumeration, P.enum?_eq_some_iff.2 ⟨e, he, rfl⟩]
  dsimp only
  rw [ht]
  exact enumValue_of_read?_eq_none hread

namespace Json

open Draft Outcome

variable {c : Catalogue} {s : PlanSet} {t : Handle} {o : ObjectType} {plan : TypePlan}
  {fields fields' : Table String Value} {d room : Nat} {shape : Shape} {allowed : Bool} {v : Value}
  {j : Json} {q : Property} {ps : List (String × Placement × Draft)}

/-- What is taken off the cursor is the value of the tree. -/
theorem RoundTrips.value_eq (h : RoundTrips s d shape allowed v j) (hr : d ≤ room) (name : String) :
    Tree.value s room shape allowed name j = .ok v := by
  have hat : Walks.At (σ := Reader) j ⟨some j, []⟩ ⟨none, []⟩ := ⟨rfl, rfl⟩
  have hfollows := Walks.value_follows (s := s) room shape allowed name _ _ _ hat
  have hrun := h.read room hr name []
  rcases hv : Tree.value s room shape allowed name j with e | w
  · rw [hv] at hfollows
    obtain ⟨r, he⟩ := hfollows
    cases hrun.symm.trans he
  · rw [hv] at hfollows
    cases hrun.symm.trans hfollows
    rfl

/-- The tree that is placed for a value is that of its draft. -/
theorem RoundTrips.ofDraft_eq (h : RoundTrips s d shape allowed v j) {dr : Draft}
    (hd : ofValue? s shape allowed v = some dr) : ofDraft dr = j := by
  have hrenders := Encode.value_renders (s := s) (σ := Writer) v shape allowed .item
  rw [hd] at hrenders
  have hwritten : (Writer.emit none (ofDraft dr) : Writing Writer Unit) = Writer.emit none j :=
    (Writer.write_eq_emit dr .item).symm.trans (Eq.trans hrenders.symm (h.written .item))
  have hrun := congrFun hwritten (Sink.start : Writer)
  exact Option.some.inj (congrArg Writer.root (EStateM.Result.ok.inj hrun).2)

/-- A part of a document from which some value is read, and the levels that it has. -/
def Legible (s : PlanSet) (plan : TypePlan) (room d : Nat) (x : String × Placement × Draft) : Prop :=
  (∃ v, Tree.readPart? (Tree.value s room) plan (x.1, .element, ofDraft x.2.2) = some (.ok v)) ∧
    Plain d (ofDraft x.2.2)

/-- **The parts of an ordinary property are legible** if its values are read back. -/
theorem legible_of_part (hplan : c.Plans .json t o plan) (H : FieldsTrip c s t fields d)
    (hr : d ≤ room) (hq : q ∈ c.plannedProperties t) (hordinary : ¬ c.Distinguishes t q)
    (hsame : Table.find? fields' q.name = Table.find? fields q.name)
    (hpart : Draft.Part c .json s t plan fields' q ps) : ∀ x ∈ ps, Legible s plan room d x := by
  cases hpart with
  | word _ hdis => exact absurd hdis hordinary
  | absent | uncaptured => simp
  | @value shape v dr plain _ found forms _ draft =>
    refine List.forall_mem_singleton.2 ?_
    obtain ⟨j, hj⟩ := H.field q hq plain v (hsame ▸ found) shape forms
    obtain ⟨shape', forms', hbound⟩ := Decode.boundAction_of_mem hplan hq plain
    obtain rfl := forms.unique forms'
    refine ⟨⟨v, ?_⟩, hj.ofDraft_eq draft ▸ hj.plain⟩
    rw [Tree.readPart?, show Decode.boundAction plan _ .element = some _ from hbound,
      hj.ofDraft_eq draft]
    exact congrArg some (hj.value_eq hr _)
  | @captured r n shape es _ carrier type forms found drafts =>
    intro x hx
    obtain ⟨e, he, hkey, -, draft⟩ := forall₂_exists_right drafts hx
    obtain ⟨hes, hfree⟩ := List.mem_filter.1 he
    obtain ⟨ms, hms⟩ := H.extra q hq carrier es (hsame ▸ found) r n shape type forms
    obtain ⟨m, -, -, hm⟩ := forall₂_exists_left hms hes
    have htarget : plan.read.carrier = some ⟨q.name, shape, n⟩ :=
      (hplan.carrier _).2 ⟨q, hq, carrier, r, shape, n, type, forms, rfl⟩
    have hnone : Decode.boundAction plan x.1 .element = none :=
      Decode.boundAction_of_not_contains (by simpa [hkey] using hfree) _
    refine ⟨⟨e.2, ?_⟩, hm.ofDraft_eq draft ▸ hm.plain⟩
    rw [Tree.readPart?, hnone, htarget, hm.ofDraft_eq draft]
    exact congrArg some (hm.value_eq hr _)

end Json

/-! ## Objects that are canonical beside a property -/

/-- **An object that is canonical beside one property**: of its own type, and whatever it holds there. -/
structure Catalogue.CanonicalBeside (c : Catalogue) (f : Format) (name : String) (i : Instance) :
    Prop where
  ascending : Table.Ascending i.fields
  declared : ∀ k v, (k, v) ∈ i.fields → ∃ p ∈ c.plannedProperties i.type, p.name = k
  required : ∀ p ∈ c.plannedProperties i.type, p.name ≠ name → p.carrier = false →
    p.required = true → ∃ v, Table.find? i.fields p.name = some v
  carried : ∀ p ∈ c.plannedProperties i.type, p.carrier = true →
    Table.find? i.fields p.name ≠ some (.map [])
  typed : ∀ p ∈ c.plannedProperties i.type, p.name ≠ name → ∀ v,
    Table.find? i.fields p.name = some v →
      c.Conforms (c.Canonical f) (p.nullable && !p.carrier) p.type v
  keys : ∀ p ∈ c.plannedProperties i.type, p.carrier = true → ∀ es,
    Table.find? i.fields p.name = some (.map es) →
      ∀ q ∈ c.plannedProperties i.type, q.carrier = false → wireName f q ∉ Table.keys es

/-- The parts of a draft in which no name is repeated are handed out one by one. -/
theorem Json.parts_ofDraft {ps : List (String × Placement × Draft)} (h : (Table.keys ps).Nodup) :
    Tree.parts (ofDraft (.object ps)) = .ok (ps.map fun x => (x.1, .element, ofDraft x.2.2)) := by
  rw [ofDraft_object_eq h, ofParts_eq_map]
  show Except.ok (List.map _ (List.map _ ps)) = _
  rw [List.map_map]
  rfl

/-- An object has no more levels than its parts and one. -/
theorem Json.plain_ofDraft {ps : List (String × Placement × Draft)} {d : Nat}
    (h : (Table.keys ps).Nodup) (hp : ∀ x ∈ ps, Plain d (ofDraft x.2.2)) :
    Plain (d + 1) (ofDraft (.object ps)) := by
  rw [ofDraft_object_eq h]
  refine .object (keys_ofParts ps ▸ h) fun k j hm => ?_
  rw [ofParts_eq_map] at hm
  obtain ⟨x, hx, he⟩ := List.mem_map.1 hm
  obtain ⟨-, rfl⟩ := Prod.mk.inj he
  exact hp x hx

namespace Catalogue.CanonicalBeside

open Draft Json Outcome

variable {c : Catalogue} {s : PlanSet} {i : Instance} {o : ObjectType} {plan : TypePlan}
  {p : Property} {w : String} {v : Value} {room : Nat}
  {pss : List (List (String × Placement × Draft))}

theorem find?_put_carrier (W : c.WellFormed) (ho : c.object? i.type = some o)
    (hp : p ∈ c.plannedProperties i.type) (hc : p.carrier = false) {q : Property}
    (hq : q ∈ c.plannedProperties i.type) (hqc : q.carrier = true) :
    Table.find? (i.put p.name v).fields q.name = Table.find? i.fields q.name :=
  Table.find?_insert_of_ne _ _ (W.name_ne_of_carrier ho hp hc hq hqc)

/-- With what its word is read as in its discriminator, the object agrees with its type. -/
theorem canonical_put (W : c.WellFormed) (h : c.CanonicalBeside .json p.name i)
    (ho : c.object? i.type = some o) (hconcrete : o.isAbstract = false)
    (hp : p ∈ c.plannedProperties i.type) (hc : p.carrier = false)
    (hdis : c.Distinguishes i.type p) (hw : c.word? i.type = some w)
    (hreads : c.ReadsAs p.type w v) :
    c.Canonical .json i.type i.type (i.put p.name v).fields where
  selects := .inl rfl
  concrete o' ho' := by
    obtain rfl := Option.some.inj (ho.symm.trans ho')
    exact hconcrete
  word r d g hd := by
    obtain ⟨r', g', hd'⟩ := hdis
    obtain rfl := g.unique g'
    obtain rfl := hd.unique hd'
    refine ⟨w, hw, fun q hq hqn => ⟨v, Table.find?_insert_self _ _ _, ?_⟩⟩
    rw [W.eq_of_name ho hq hp hqn]
    exact hreads
  keys q hq hqc es hes := by
    rw [find?_put_carrier W ho hp hc hq hqc] at hes
    exact h.keys q hq hqc es hes

/-- **With what its word is read as** in its discriminator, the object is canonical. -/
theorem conforms_put (W : c.WellFormed) (h : c.CanonicalBeside .json p.name i)
    (ho : c.object? i.type = some o) (hconcrete : o.isAbstract = false)
    (hp : p ∈ c.plannedProperties i.type) (hc : p.carrier = false)
    (hdis : c.Distinguishes i.type p) (hw : c.word? i.type = some w) (hreads : c.ReadsAs p.type w v)
    (hv : c.Conforms (c.Canonical .json) p.nullable p.type v) :
    c.Conforms (c.Canonical .json) false (.named i.type) (i.put p.name v).toValue := by
  have hself : Table.find? (i.put p.name v).fields p.name = some v := Table.find?_insert_self _ _ _
  refine .object ho (h.canonical_put W ho hconcrete hp hc hdis hw hreads)
    (Table.ascending_insert h.ascending _ _) (fun k w hm => ?declared) (fun q hq hqc hr => ?required)
    (fun q hq hqc => ?carried) fun q hq x hx => ?typed
  case declared =>
    rcases Instance.mem_put h.ascending hm with ⟨rfl, -⟩ | hm
    · exact ⟨p, hp, rfl⟩
    · exact h.declared k w (List.mem_filter.1 hm).1
  case required =>
    by_cases hn : q.name = p.name
    · exact ⟨v, hn ▸ hself⟩
    · rw [Instance.put, Table.find?_insert_of_ne _ _ hn]
      exact h.required q hq hn hqc hr
  case carried =>
    rw [find?_put_carrier W ho hp hc hq hqc]
    exact h.carried q hq hqc
  case typed =>
    by_cases hn : q.name = p.name
    · obtain rfl := W.eq_of_name ho hq hp hn
      obtain rfl := Option.some.inj (hself.symm.trans hx)
      rw [hc, Bool.not_false, Bool.and_true]
      exact hv
    · rw [Instance.put, Table.find?_insert_of_ne _ _ hn] at hx
      exact h.typed q hq hn x hx

/-- All that the object holds beside the property is written and read back. -/
theorem fieldsTrip (P : c.PlannedBy .json s) (h : c.CanonicalBeside .json p.name i)
    (ho : c.object? i.type = some o) (hx : (i.without p.name).toValue.isExact = true) :
    FieldsTrip c s i.type (i.without p.name).fields
      (c.nestingFields (c.carrierName? i.type) (i.without p.name).fields) := by
  refine fieldsTrip_of_trips P ho fun q hq v hv => ?_
  have hmem := Table.mem_of_find? hv
  rw [Instance.find?_without] at hv
  split at hv
  · cases hv
  · rename_i hn
    exact trips_of_conforms P (h.typed q hq hn v hv) (Value.entriesAreExact_iff.1 hx _ v hmem)

/-- **Every part of the object is legible**, but for the word in its discriminator. -/
theorem legible (P : c.PlannedBy .json s) (h : c.CanonicalBeside .json p.name i)
    (W : Written c .json s i.type i.fields o plan pss) (hp : p ∈ c.plannedProperties i.type)
    (hdis : c.Distinguishes i.type p) (hw : c.word? i.type = some w)
    (hx : (i.without p.name).toValue.isExact = true)
    (hr : c.nestingFields (c.carrierName? i.type) (i.without p.name).fields ≤ room) :
    ∀ x ∈ pss.flatten, x = (wireName .json p, placementIn .json p, Draft.text w) ∨
      Legible s plan room (c.nestingFields (c.carrierName? i.type) (i.without p.name).fields) x := by
  intro x hmem
  obtain ⟨ps, hps, hmem⟩ := List.mem_flatten.1 hmem
  obtain ⟨q, hq, hpart⟩ := forall₂_exists_right W.parts hps
  have hq := mem_emissionOrder.1 hq
  by_cases hqp : q = p
  · subst hqp
    refine .inl ?_
    cases hpart with
    | word _ _ hw' =>
      obtain rfl := Option.some.inj (hw.symm.trans hw')
      exact List.mem_singleton.1 hmem
    | absent _ ordinary | value _ ordinary => exact absurd hdis ordinary
    | uncaptured carrier | captured carrier =>
      obtain ⟨r, g, hd⟩ := hdis
      obtain ⟨q', hq', hqn, hqc, -⟩ := P.exists_discriminator g hd
      rw [P.wellFormed.eq_of_name W.type hq' hq hqn, carrier] at hqc
      cases hqc
  · have hname : q.name ≠ p.name := fun hn => hqp (P.wellFormed.eq_of_name W.type hq hp hn)
    have hordinary : ¬ c.Distinguishes i.type q := by
      rintro ⟨r, g, hd⟩
      obtain ⟨r', g', hd'⟩ := hdis
      obtain rfl := g.unique g'
      exact hname (hd.unique hd')
    refine .inr (legible_of_part W.plans (h.fieldsTrip P W.type hx) hr hq hordinary ?_ hpart x hmem)
    rw [Instance.find?_without, if_neg hname]

/-- No name is repeated in what is written for the object. -/
theorem nodup_names (P : c.PlannedBy .json s) (h : c.CanonicalBeside .json p.name i)
    (W : Written c .json s i.type i.fields o plan pss) (hp : p ∈ c.plannedProperties i.type)
    (hc : p.carrier = false) : (Table.keys pss.flatten).Nodup := by
  refine W.nodup_names P.wellFormed fun q hq hqc es hes => ?_
  have htyped := h.typed q hq (P.wellFormed.name_ne_of_carrier W.type hp hc hq hqc) _ hes
  generalize (q.nullable && !q.carrier) = n at htyped
  generalize q.type = r at htyped
  cases htyped with
  | primitive _ hh => exact absurd hh Primitive.not_holds_map
  | map hasc => exact hasc

/-- The word of a type is at fault where the enumeration of the discriminator does not take it. -/
theorem readPart?_of_refused_word (P : c.PlannedBy .json s) (hplan : c.Plans .json i.type o plan)
    (hp : p ∈ c.plannedProperties i.type) (hc : p.carrier = false) {k : Handle} {e : Enumeration}
    (htype : p.type = .named k) (hk : c.kind? k = some (.enumeration e)) (hread : e.read? w = none) :
    Tree.readPart? (Tree.value s room) plan (wireName .json p, .element, Json.text w) =
      some (.error (.unknownEnumValue (c.nameOf k) w)) := by
  obtain ⟨shape, forms, hbound⟩ := Decode.boundAction_of_mem hplan hp hc
  rw [htype] at forms
  obtain rfl := forms.unique (.enumeration hk)
  rw [Tree.readPart?, show Decode.boundAction plan _ .element = some _ from hbound]
  exact congrArg some (Tree.value_of_refused_word P hk hread rfl rfl)

/-- **An object whose word is refused** by the enumeration of its discriminator has no other fault. -/
theorem object_eq_error (P : c.PlannedBy .json s) (h : c.CanonicalBeside .json p.name i)
    (W : Written c .json s i.type i.fields o plan pss) (hp : p ∈ c.plannedProperties i.type)
    (hc : p.carrier = false) (hdis : c.Distinguishes i.type p) (hw : c.word? i.type = some w)
    (hx : (i.without p.name).toValue.isExact = true)
    (hr : c.nestingFields (c.carrierName? i.type) (i.without p.name).fields ≤ room) {k : Handle}
    {e : Enumeration} (htype : p.type = .named k) (hk : c.kind? k = some (.enumeration e))
    (hread : e.read? w = none) :
    Tree.object s (Tree.value s room) i.type (ofDraft (.object pss.flatten)) =
      .error (.unknownEnumValue (c.nameOf k) w) := by
  obtain ⟨r, g, hd⟩ := hdis
  have hnodup := h.nodup_names P W hp hc
  have hlegible := h.legible P W hp ⟨r, g, hd⟩ hw hx hr
  obtain ⟨dplan, uo, uplan, hdplan, -, huplan, -, hconcrete⟩ :=
    Tree.exists_concretePlan P W (.refl _) (showsTexts_of_outline rfl) (.selected g)
  obtain rfl := Option.some.inj (W.planned.symm.trans huplan)
  have hword : Tree.readPart? (Tree.value s room) plan (wireName .json p, .element, Json.text w) =
      some (.error (.unknownEnumValue (c.nameOf k) w)) :=
    readPart?_of_refused_word P W.plans hp hc htype hk hread
  have hfirst : Tree.firstFault? (Tree.value s room) plan
      (pss.flatten.map fun x => (x.1, .element, ofDraft x.2.2)) =
        some (.unknownEnumValue (c.nameOf k) w) := by
    refine Tree.firstFault?_eq_some (fun x hx e' he' => ?_) ?_
    · obtain ⟨y, hy, rfl⟩ := List.mem_map.1 hx
      rcases hlegible y hy with rfl | ⟨⟨v, hv⟩, -⟩
      · exact (Option.some.inj ((congrArg (·.bind fault?) hword).symm.trans he')).symm
      · rw [hv] at he'
        cases he'
    · obtain ⟨q, w', hq, hqd, hw', hfilter⟩ := W.exists_word P g
      obtain rfl := P.wellFormed.eq_of_name W.type hq hp (hqd.unique hd)
      obtain rfl := Option.some.inj (hw'.symm.trans hw)
      have hmem := List.mem_of_mem_filter (hfilter ▸ List.mem_singleton_self _)
      exact ⟨_, List.mem_map.2 ⟨_, hmem, rfl⟩, congrArg (·.bind fault?) hword⟩
  rw [Tree.object_eq_scan hdplan (parts_ofDraft hnodup) hconcrete, Tree.fields_eq_error hfirst]
  rfl

end Catalogue.CanonicalBeside

end Marshal
