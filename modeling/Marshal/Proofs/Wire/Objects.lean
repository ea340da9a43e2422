import Marshal.Proofs.Plan.Objects
import Marshal.Proofs.Value.Typing
import Marshal.Proofs.Wire.Reading
import Marshal.Wire.Encode

/-!
# Objects along their plans

An object is written along the plan of its type (`instancePlan_eq_ok`), and made of what a scan has
gathered (`Scan.make_eq_ok_iff`). `absorb` is what a scan gains from the fields of one property; when
it has gained those of every planned property, the object it makes is the one that was written
(`make_foldl_absorb`).
-/

namespace Marshal

namespace Catalogue

variable {c : Catalogue}

/-- The fields of an object of type `t` as far as a scan depends on them. -/
structure Filled (c : Catalogue) (t : Handle) (fields : Table String Value) : Prop where
  ascending : Table.Ascending fields
  declared : ∀ k v, (k, v) ∈ fields → ∃ p ∈ c.plannedProperties t, p.name = k
  required : ∀ p ∈ c.plannedProperties t, p.carrier = false → p.required = true →
    ∃ v, Table.find? fields p.name = some v
  carried : ∀ p ∈ c.plannedProperties t, p.carrier = true → ∀ v, Table.find? fields p.name = some v →
    ∃ es, v = .map es ∧ es ≠ [] ∧ Table.Ascending es

/-- The fields of a typed object are known as far as a scan depends on them. -/
theorem WellFormed.filled_of_conforms (W : c.WellFormed) {R : SlotRule} {t : Handle}
    {fields : Table String Value} (ascending : Table.Ascending fields)
    (declared : ∀ k v, (k, v) ∈ fields → ∃ p ∈ c.plannedProperties t, p.name = k)
    (required : ∀ p ∈ c.plannedProperties t, p.carrier = false → p.required = true →
      ∃ v, Table.find? fields p.name = some v)
    (carried : ∀ p ∈ c.plannedProperties t, p.carrier = true →
      Table.find? fields p.name ≠ some (.map []))
    (typed : ∀ p ∈ c.plannedProperties t, ∀ v, Table.find? fields p.name = some v →
      c.Conforms R (p.nullable && !p.carrier) p.type v) : c.Filled t fields where
  ascending := ascending
  declared := declared
  required := required
  carried p hp hc v hv := by
    obtain ⟨r, m, hr⟩ := W.exists_mapping_of_carrier hp hc
    have hconf := typed p hp v hv
    rw [hc, hr, Bool.not_true, Bool.and_false] at hconf
    cases hconf with
    | map hasc _ =>
      refine ⟨_, rfl, ?_, hasc⟩
      rintro rfl
      exact carried p hp hc hv

end Catalogue

/-- The plan for writing an object that is not abstract where its type is expected. -/
theorem Encode.instancePlan_eq_ok {s : PlanSet} {t : Handle} {plan : TypePlan}
    (hp : s.type? t = some plan) (ha : plan.isAbstract = false) {expected : Option Handle}
    (h : ∀ k, expected = some k → s.isSubtype t k = true) (pos : Position) :
    instancePlan s pos expected t = .ok plan := by
  have htype : typePlan s t = .ok plan := by
    rw [typePlan, hp]
  refine Outcome.bind_eq_ok_iff.2 ⟨plan, htype, ?_⟩
  rcases expected with _ | k
  · simp only [ha, Bool.false_eq_true, if_false]
    rfl
  · simp only [h k rfl, ha, Bool.false_eq_true, if_false, if_true]
    rfl

/-- There is no plan for writing an object of an abstract type. -/
theorem Encode.instancePlan_of_isAbstract {s : PlanSet} {t : Handle} {plan : TypePlan}
    (hp : s.type? t = some plan) (ha : plan.isAbstract = true) {expected : Option Handle}
    (h : ∀ k, expected = some k → s.isSubtype t k = true) (pos : Position) :
    instancePlan s pos expected t = .error (.abstractInstance plan.name) := by
  have htype : typePlan s t = .ok plan := by
    rw [typePlan, hp]
  have hbind : ∀ f : TypePlan → Except EncodeError TypePlan,
      (Except.ok plan >>= f) = f plan := fun _ => rfl
  rw [instancePlan, htype, hbind]
  rcases expected with _ | k
  · simp only [ha, if_true]
    rfl
  · simp only [h k rfl, ha, if_true]
    rfl

namespace Decode

/-! ### What a scan makes -/

/-- **A scan makes an object** of what was gathered, once nothing required is missing. -/
theorem Scan.make_eq_ok_iff {scan : Scan} {plan : TypePlan} {i : Instance} :
    scan.make plan = .ok i ↔
      (∀ r ∈ plan.read.required, Table.contains (scan.gathered plan) r.property = true) ∧
        i = ⟨plan.type, Table.ofList (plan.read.constructionOrder.filterMap fun k =>
          (Table.find? (scan.gathered plan) k).map fun v => (k, v))⟩ := by
  have hmissing : (∀ r ∈ plan.read.required,
      Table.contains (scan.gathered plan) r.property = true) ↔
      plan.read.required.find? (fun r => !Table.contains (scan.gathered plan) r.property) = none := by
    simp [List.find?_eq_none]
  rw [hmissing]
  unfold Scan.make
  dsimp only
  split
  · rename_i hfound
    simp [hfound]
  · rename_i hnone
    simp [hnone, eq_comm]

section Made

variable {c : Catalogue} {f : Format} {t : Handle} {o : ObjectType} {plan : TypePlan} {scan : Scan}
  {i : Instance} {p : Property}

/-- The object that is made of a scan has the type of the plan. -/
theorem type_of_make (h : scan.make plan = .ok i) : i.type = plan.type := by
  obtain ⟨-, rfl⟩ := Scan.make_eq_ok_iff.1 h
  rfl

theorem ascending_of_make (h : scan.make plan = .ok i) : Table.Ascending i.fields := by
  obtain ⟨-, rfl⟩ := Scan.make_eq_ok_iff.1 h
  exact Table.ascending_ofList _

/-- The object that is made of a scan holds what was gathered of its properties. -/
theorem find?_of_make (hplan : c.Plans f t o plan) (h : scan.make plan = .ok i)
    (hp : p ∈ c.plannedProperties t) :
    Table.find? i.fields p.name = Table.find? (scan.gathered plan) p.name := by
  obtain ⟨-, rfl⟩ := Scan.make_eq_ok_iff.1 h
  rw [Table.find?_ofList_filterMap hplan.nodup_order, if_pos ((hplan.order p.name).2 ⟨p, hp, rfl⟩)]

/-- An object that is made holds every required property. -/
theorem exists_of_required (hplan : c.Plans f t o plan) (h : scan.make plan = .ok i)
    (hp : p ∈ c.plannedProperties t) (hc : p.carrier = false) (hr : p.required = true) :
    ∃ v, Table.find? i.fields p.name = some v := by
  rw [find?_of_make hplan h hp]
  exact Table.contains_iff_exists.1
    ((Scan.make_eq_ok_iff.1 h).1 _ ((hplan.required _).2 ⟨p, hp, hc, hr, rfl⟩))

/-- An object that is made holds nothing but properties. -/
theorem exists_of_mem_make (hplan : c.Plans f t o plan) (h : scan.make plan = .ok i) {k : String}
    {v : Value} (hm : (k, v) ∈ i.fields) :
    ∃ p ∈ c.plannedProperties t, p.name = k ∧ Table.find? i.fields p.name = some v := by
  have hfound := (Table.find?_eq_some_iff (ascending_of_make h)).2 hm
  obtain ⟨-, rfl⟩ := Scan.make_eq_ok_iff.1 h
  have horder := hfound
  rw [Table.find?_ofList_filterMap hplan.nodup_order] at horder
  split at horder
  · rename_i hk
    obtain ⟨p, hp, rfl⟩ := (hplan.order k).1 hk
    exact ⟨p, hp, rfl, hfound⟩
  · cases horder

end Made

/-! ### What a scan gains -/

/-- The entries that an object captures under a name. -/
def captured (fields : Table String Value) (name : String) : List (String × Value) :=
  match Table.find? fields name with
  | some (.map es) => es
  | _ => []

/-- A scan that has gained the fields of a property. -/
def Scan.absorb (fields : Table String Value) (scan : Scan) (p : Property) : Scan :=
  if p.carrier then
    { scan with
      extra := (captured fields p.name).foldl (fun t e => Table.insert t e.1 e.2) scan.extra }
  else
    match Table.find? fields p.name with
    | some v => { scan with fields := Table.insert scan.fields p.name v }
    | none => scan

theorem Scan.absorb_congr {fields fields' : Table String Value} {p : Property}
    (h : Table.find? fields p.name = Table.find? fields' p.name) (scan : Scan) :
    scan.absorb fields p = scan.absorb fields' p := by
  rw [absorb, absorb, captured, captured, h]

theorem Scan.absorb_none {fields : Table String Value} {p : Property}
    (h : Table.find? fields p.name = none) (scan : Scan) : scan.absorb fields p = scan := by
  rw [absorb, captured, h]
  split <;> rfl

/-- Values that are no siblings of a flattened sequence replace each other. -/
theorem Scan.assign_of_not_flattened (scan : Scan) {a : Action}
    (ha : a.shape.isFlattened = false) (v : Value) :
    scan.assign a v = { scan with fields := Table.insert scan.fields a.property v } := by
  unfold Scan.assign
  dsimp only
  split
  · rw [if_neg (by simp [ha])]
  · rfl

/-- Storing a value does not touch what is stored under other names. -/
theorem Scan.find?_assign_of_ne (scan : Scan) {a : Action} {name : String} (h : name ≠ a.property)
    (v : Value) : Table.find? (scan.assign a v).fields name = Table.find? scan.fields name :=
  Table.find?_insert_of_ne _ _ h

variable {fields : Table String Value}

theorem fields_foldl_absorb (qs : List Property) (scan : Scan) :
    (qs.foldl (Scan.absorb fields) scan).fields =
      (((Property.plain qs).map Property.name).filterMap fun k =>
        (Table.find? fields k).map fun v => (k, v)).foldl (fun t e => Table.insert t e.1 e.2)
          scan.fields := by
  induction qs generalizing scan with
  | nil => rfl
  | cons q qs ih =>
    rw [List.foldl_cons, ih, Scan.absorb]
    cases hc : q.carrier with
    | true =>
      rw [if_pos rfl, Property.plain, Property.plain, List.filter_cons_of_neg (by simp [hc])]
    | false =>
      rw [if_neg Bool.false_ne_true, Property.plain, Property.plain,
        List.filter_cons_of_pos (by simp [hc]), List.map_cons, List.filterMap_cons]
      rcases Table.find? fields q.name with _ | v
      · rfl
      · rfl

theorem extra_foldl_absorb (qs : List Property) (scan : Scan) :
    (qs.foldl (Scan.absorb fields) scan).extra =
      ((qs.filter Property.carrier).flatMap fun q => captured fields q.name).foldl
        (fun t e => Table.insert t e.1 e.2) scan.extra := by
  induction qs generalizing scan with
  | nil => rfl
  | cons q qs ih =>
    rw [List.foldl_cons, ih, Scan.absorb, List.filter_cons]
    cases hc : q.carrier with
    | true =>
      rw [if_pos rfl, if_pos rfl, List.flatMap_cons, List.foldl_append]
    | false =>
      rw [if_neg Bool.false_ne_true, if_neg Bool.false_ne_true]
      rcases Table.find? fields q.name with _ | v
      · rfl
      · rfl

variable {c : Catalogue} {f : Format} {t : Handle} {o : ObjectType} {plan : TypePlan}

section Gathered

variable {qs : List Property}

/-- Of the plain properties a scan gains what the object holds of them. -/
theorem find?_fields_foldl_absorb (hn : (qs.map Property.name).Nodup) (k : String) :
    Table.find? (qs.foldl (Scan.absorb fields) ⟨[], []⟩).fields k =
      if k ∈ (Property.plain qs).map Property.name then Table.find? fields k else none := by
  have hsub : ((Property.plain qs).map Property.name).Nodup :=
    hn.sublist (List.Sublist.map _ List.filter_sublist)
  rw [fields_foldl_absorb]
  exact Table.find?_ofList_filterMap hsub _ k

/-- Of its one carrier a scan gains what the object captured. -/
theorem extra_foldl_absorb_of_carrier (hn : (qs.map Property.name).Nodup) {q : Property} (hq : q ∈ qs)
    (hc : q.carrier = true) (hone : ∀ p ∈ qs, p.carrier = true → p = q) :
    (qs.foldl (Scan.absorb fields) ⟨[], []⟩).extra = Table.ofList (captured fields q.name) := by
  have hcarriers : qs.filter Property.carrier = [q] := by
    have hnodup : (qs.filter Property.carrier).Nodup := (List.Nodup.of_map _ hn).filter _
    refine List.perm_singleton.1 ((List.perm_ext_iff_of_nodup hnodup (List.nodup_singleton q)).2 ?_)
    intro p
    rw [List.mem_filter, List.mem_singleton]
    constructor
    · rintro ⟨hp, hc⟩
      exact hone p hp hc
    · rintro rfl
      exact ⟨hq, hc⟩
  rw [extra_foldl_absorb, hcarriers, List.flatMap_singleton]
  rfl

/-- An object holds nothing under the name of no property. -/
theorem find?_eq_none_of_filled (hf : c.Filled t fields) (hq : ∀ p, p ∈ qs ↔ p ∈ c.plannedProperties t)
    {k : String} (hk : k ∉ (Property.plain qs).map Property.name)
    (hcar : ∀ p ∈ qs, p.carrier = true → p.name ≠ k) : Table.find? fields k = none := by
  refine Option.eq_none_iff_forall_ne_some.2 fun v hv => ?_
  obtain ⟨p, hp, rfl⟩ := hf.declared k v (Table.mem_of_find? hv)
  cases hc : p.carrier with
  | true => exact hcar p ((hq p).2 hp) hc rfl
  | false => exact hk (List.mem_map_of_mem (Property.mem_plain.2 ⟨(hq p).2 hp, hc⟩))

/-- **The table of a scan that has gained everything** is that of the object. -/
theorem find?_gathered_foldl_absorb (W : c.WellFormed) (ho : c.object? t = some o)
    (hplan : c.Plans f t o plan) (hf : c.Filled t fields)
    (hq : ∀ p, p ∈ qs ↔ p ∈ c.plannedProperties t) (hn : (qs.map Property.name).Nodup) (k : String) :
    Table.find? ((qs.foldl (Scan.absorb fields) ⟨[], []⟩).gathered plan) k =
      Table.find? fields k := by
  rw [Scan.gathered]
  rcases hcar : plan.read.carrier with _ | target
  · dsimp only
    rw [find?_fields_foldl_absorb hn]
    split
    · rfl
    · rename_i hk
      refine (find?_eq_none_of_filled hf hq hk fun p hp hc _ => ?_).symm
      obtain ⟨_, _, _, -, -, htarget⟩ := hplan.carrier_of_mem ((hq p).1 hp) hc
      simp [hcar] at htarget
  · obtain ⟨q, hqm, hqc, _, _, _, -, -, rfl⟩ := (hplan.carrier target).1 hcar
    have hone : ∀ p ∈ qs, p.carrier = true → p = q := fun p hp hc =>
      W.eq_of_carrier ho ((hq p).1 hp) hc hqm hqc
    dsimp only
    rw [extra_foldl_absorb_of_carrier hn ((hq q).2 hqm) hqc hone]
    rcases hv : Table.find? fields q.name with _ | v
    · have hempty : captured fields q.name = [] := by rw [captured, hv]
      have hnil : (Table.ofList ([] : List (String × Value))).isEmpty = true := rfl
      rw [hempty, if_pos hnil, find?_fields_foldl_absorb hn]
      split
      · rfl
      · rename_i hk
        by_cases hkq : k = q.name
        · rw [hkq, hv]
        · exact (find?_eq_none_of_filled hf hq hk fun p hp hc hpk =>
            hkq (by rw [← hpk, hone p hp hc])).symm
    · obtain ⟨es, rfl, hne, hasc⟩ := hf.carried q hqm hqc v hv
      have hes : captured fields q.name = es := by rw [captured, hv]
      rw [hes, Table.ofList_eq_self hasc, if_neg (by simpa using hne), Table.find?_insert,
        find?_fields_foldl_absorb hn]
      split
      · rename_i hk
        rw [hk, hv]
      · rename_i hkq
        split
        · rfl
        · rename_i hk
          exact (find?_eq_none_of_filled hf hq hk fun p hp hc hpk =>
            hkq (by rw [← hpk, hone p hp hc])).symm

end Gathered

/-- **A scan that has gained everything** makes the object. -/
theorem make_foldl_absorb (W : c.WellFormed) (ho : c.object? t = some o)
    (hplan : c.Plans f t o plan) (hf : c.Filled t fields) {qs : List Property}
    (hq : ∀ p, p ∈ qs ↔ p ∈ c.plannedProperties t) (hn : (qs.map Property.name).Nodup) :
    (qs.foldl (Scan.absorb fields) ⟨[], []⟩).make plan = .ok ⟨t, fields⟩ := by
  have hgathered := find?_gathered_foldl_absorb W ho hplan hf hq hn
  generalize qs.foldl (Scan.absorb fields) ⟨[], []⟩ = scan at hgathered
  refine Scan.make_eq_ok_iff.2 ⟨fun r hr => ?_, ?_⟩
  · obtain ⟨p, hp, hc, hreq, rfl⟩ := (hplan.required r).1 hr
    rw [Table.contains_iff_exists, hgathered]
    exact hf.required p hp hc hreq
  · rw [hplan.type, Instance.mk.injEq]
    refine ⟨rfl, Table.ext hf.ascending (Table.ascending_ofList _) fun k => ?_⟩
    rw [Table.find?_ofList_filterMap hplan.nodup_order, hgathered]
    split
    · rfl
    · rename_i hk
      refine Option.eq_none_iff_forall_ne_some.2 fun v hv => hk ?_
      obtain ⟨p, hp, hpk⟩ := hf.declared k v (Table.mem_of_find? hv)
      exact (hplan.order k).2 ⟨p, hp, hpk⟩

end Decode

end Marshal
