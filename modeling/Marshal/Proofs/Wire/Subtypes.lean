import Marshal.Proofs.Wire.Parts

/-!
# What an object is read as

An object that a property holds is read as one of the type that is recognised for it: its own where
the declared type is in a hierarchy, and the declared one elsewhere (`Tree.type_of_object`). In the
object read the property holds what was read of its one part (`Tree.exists_field_of_object`).
-/

namespace Marshal

namespace Decode

open Catalogue

variable {c : Catalogue} {f : Format} {t : Handle} {o : ObjectType} {plan : TypePlan} {scan : Scan}
  {i : Instance} {p : Property}

/-- A property that is no carrier is bound to its name in its place. -/
theorem boundAction_of_mem (hplan : c.Plans f t o plan) (hp : p ∈ c.plannedProperties t)
    (hc : p.carrier = false) : ∃ shape, c.Forms (layoutIn f p) p.type shape ∧
      boundAction plan (wireName f p) (placementIn f p) = some (fieldAction f p shape) := by
  obtain ⟨shape, hshape, -, hact⟩ := hplan.action_of_mem hp hc
  exact ⟨shape, hshape, Option.filter_eq_some_iff.2 ⟨hact, by simp [fieldAction]⟩⟩

/-- A name of no property is bound to nothing. -/
theorem boundAction_of_not_contains {key : String}
    (h : Table.contains plan.read.actions key = false) (placement : Placement) :
    boundAction plan key placement = none := by
  rw [Table.contains, Option.isSome_eq_false_iff, Option.isNone_iff_eq_none] at h
  rw [boundAction, h]
  rfl

/-- No part is bound to a carrier. -/
theorem property_ne_of_carrier (W : c.WellFormed) (ho : c.object? t = some o)
    (hplan : c.Plans f t o plan) (hp : p ∈ c.plannedProperties t) (hc : p.carrier = true) {key : String}
    {placement : Placement} {a : Action} (ha : boundAction plan key placement = some a) :
    a.property ≠ p.name := by
  intro hname
  obtain ⟨hfind, -⟩ := Option.filter_eq_some_iff.1 ha
  obtain ⟨q, hq, hqc, -, _, -, -, rfl⟩ := (hplan.actions key a).1 hfind
  rw [W.eq_of_name ho hq hp hname, hc] at hqc
  cases hqc

/-- A carrier holds what was captured, unless that is nothing. -/
theorem eq_map_of_make (hplan : c.Plans f t o plan) (h : scan.make plan = .ok i)
    (hp : p ∈ c.plannedProperties t) (hc : p.carrier = true)
    (hnone : Table.find? scan.fields p.name = none) :
    Table.find? i.fields p.name = if scan.extra = [] then none else some (.map scan.extra) := by
  obtain ⟨r, shape, m, -, -, hcarrier⟩ := hplan.carrier_of_mem hp hc
  rw [find?_of_make hplan h hp, Scan.gathered, hcarrier]
  dsimp only
  by_cases he : scan.extra = []
  · rw [if_pos (List.isEmpty_iff.2 he), if_pos he, hnone]
  · rw [if_neg (mt List.isEmpty_iff.1 he), if_neg he, Table.find?_insert_self]

/-- What is captured does not touch the fields of other properties. -/
theorem find?_gathered (W : c.WellFormed) (ho : c.object? t = some o) (hplan : c.Plans f t o plan)
    (hp : p ∈ c.plannedProperties t) (hc : p.carrier = false) :
    Table.find? (scan.gathered plan) p.name = Table.find? scan.fields p.name := by
  rw [Scan.gathered]
  rcases hcar : plan.read.carrier with _ | target
  · rfl
  · obtain ⟨q, hq, hqc, _, _, _, -, -, rfl⟩ := (hplan.carrier target).1 hcar
    dsimp only
    split
    · rfl
    · rw [Table.find?_insert, if_neg]
      intro he
      rw [W.eq_of_name ho hp hq he, hqc] at hc
      cases hc

end Decode

namespace Tree

open Catalogue Draft Decode

variable {τ : Type} {c : Catalogue} {f : Format} {s : PlanSet} {declared t : Handle}
  {o : ObjectType} {plan : TypePlan} {fields : List (String × Value)}
  {pss : List (List (String × Placement × Draft))} {node t' : τ} {inner : Inner τ} {i : Instance}
  {scan scan' : Scan} {a : Action} {key : String} {placement : Placement}
  {ts : List (String × Placement × τ)}

/-- The parts of an object with a name and a placement. -/
def under (key : String) (placement : Placement) (ts : List (String × Placement × τ)) :
    List (String × Placement × τ) := ts.filter fun x => x.1 = key ∧ x.2.1 = placement

/-- A part that is bound to no action for a property leaves it alone. -/
theorem find?_of_field {x : String × Placement × τ} {name : String}
    (hx : ∀ a, boundAction plan x.1 x.2.1 = some a → a.property ≠ name)
    (h : field inner plan scan x = .ok scan') :
    Table.find? scan'.fields name = Table.find? scan.fields name := by
  obtain ⟨a, v, ha, -, rfl⟩ | ⟨-, target, v, -, -, rfl⟩ | ⟨-, -, rfl⟩ := field_eq_ok h
  · unfold Scan.assign
    dsimp only
    rw [Table.find?_insert, if_neg (Ne.symm (hx a ha))]
  · rfl
  · rfl

theorem find?_of_fields {name : String}
    (hts : ∀ x ∈ ts, ∀ a, boundAction plan x.1 x.2.1 = some a → a.property ≠ name)
    (h : ts.foldlM (field inner plan) scan = .ok scan') :
    Table.find? scan'.fields name = Table.find? scan.fields name := by
  induction ts generalizing scan with
  | nil =>
    obtain rfl := Outcome.pure_eq_ok_iff.1 h
    rfl
  | cons x ts ih =>
    obtain ⟨hx, hts⟩ := List.forall_mem_cons.1 hts
    obtain ⟨scan₁, hfield, h⟩ := Outcome.bind_eq_ok_iff.1 h
    rw [ih hts h, find?_of_field hx hfield]

/-- **The one part of a property** fills it. -/
theorem exists_of_fields (ha : boundAction plan key placement = some a)
    (hflat : a.shape.isFlattened = false)
    (hone : ∀ k pl b, boundAction plan k pl = some b → b.property = a.property →
      k = key ∧ pl = placement)
    (hts : under key placement ts = [(key, placement, t')])
    (h : ts.foldlM (field inner plan) scan = .ok scan') :
    ∃ v, inner a.shape a.nullable key t' = .ok v ∧ Table.find? scan'.fields a.property = some v := by
  have hother : ∀ x : String × Placement × τ, ¬ (x.1 = key ∧ x.2.1 = placement) →
      ∀ b, boundAction plan x.1 x.2.1 = some b → b.property ≠ a.property :=
    fun x hx b hb he => hx (hone _ _ b hb he)
  induction ts generalizing scan with
  | nil => cases hts
  | cons x ts ih =>
    obtain ⟨scan₁, hfield, h⟩ := Outcome.bind_eq_ok_iff.1 h
    by_cases hx : x.1 = key ∧ x.2.1 = placement
    · rw [under, List.filter_cons_of_pos (by simpa using hx)] at hts
      obtain ⟨rfl, hnil⟩ := List.cons.inj hts
      have hrest : ∀ x ∈ ts, ∀ b, boundAction plan x.1 x.2.1 = some b → b.property ≠ a.property :=
        fun x hx' => hother x (by simpa using List.filter_eq_nil_iff.1 hnil x hx')
      rw [field_bound ha] at hfield
      obtain ⟨v, hv, hfield⟩ := Outcome.bind_eq_ok_iff.1 hfield
      obtain rfl := Outcome.pure_eq_ok_iff.1 hfield
      refine ⟨v, hv, ?_⟩
      rw [find?_of_fields hrest h, Scan.assign_of_not_flattened _ hflat, Table.find?_insert,
        if_pos rfl]
    · rw [under, List.filter_cons_of_neg (by simpa using hx)] at hts
      exact ih hts h

variable [Tree τ]

/-- What reading an object takes, step by step. -/
theorem object_eq_ok_iff : object s inner declared node = .ok i ↔
    ∃ dplan ts plan scan, s.type? declared = some dplan ∧ Tree.parts node = .ok ts ∧
      concretePlan s dplan node = .ok plan ∧ ts.foldlM (field inner plan) ⟨[], []⟩ = .ok scan ∧
        Tree.partsEnd node = .ok () ∧ scan.make plan = .ok i := by
  simp only [object, Outcome.bind_eq_ok_iff, typePlan_eq_ok_iff]
  constructor
  · rintro ⟨dplan, hd, ts, hts, plan, hplan, scan, hscan, _, hend, h⟩
    exact ⟨dplan, ts, plan, scan, hd, hts, hplan, hscan, hend, h⟩
  · rintro ⟨dplan, ts, plan, scan, hd, hts, hplan, hscan, hend, h⟩
    exact ⟨dplan, hd, ts, hts, plan, hplan, scan, hscan, (), hend, h⟩

/-- An object is made of a scan of its parts when they and its concrete type are known. -/
theorem object_eq_scan {dplan : TypePlan} (hd : s.type? declared = some dplan)
    (hts : Tree.parts node = .ok ts) (hplan : concretePlan s dplan node = .ok plan) :
    object s inner declared node =
      (ts.foldlM (field inner plan) ⟨[], []⟩ >>= fun scan =>
        Tree.partsEnd node >>= fun _ => scan.make plan) := by
  rw [object, Decode.typePlan, hd]
  show (Tree.parts node >>= _) = _
  rw [hts]
  show (concretePlan s dplan node >>= _) = _
  rw [hplan]
  rfl

/-- An object with no fault behind its parts is what a scan of them makes. -/
theorem object_eq_bind {dplan : TypePlan} (hd : s.type? declared = some dplan)
    (hts : Tree.parts node = .ok ts) (hend : Tree.partsEnd node = .ok ())
    (hplan : concretePlan s dplan node = .ok plan) :
    object s inner declared node =
      (ts.foldlM (field inner plan) ⟨[], []⟩ >>= fun scan => scan.make plan) := by
  rw [object_eq_scan hd hts hplan, hend]
  rfl

/-- **The type of the object that is read** is the one recognised for what was written. -/
theorem type_of_object (P : c.PlannedBy f s) (hw : Written c f s t fields o plan pss)
    (hi : c.Inherits t declared) (htext : ShowsTexts node pss.flatten) {u : Handle}
    (hu : c.Recognised declared t u) (h : object s inner declared node = .ok i) : i.type = u := by
  obtain ⟨dplan, ts, uplan, scan, hd, -, hplan, -, -, hmake⟩ := object_eq_ok_iff.1 h
  obtain ⟨dplan', uo, uplan', hd', -, -, hplans, hplan'⟩ := exists_concretePlan P hw hi htext hu
  obtain rfl := Option.some.inj (hd.symm.trans hd')
  obtain rfl := Except.ok.inj (hplan.symm.trans hplan')
  rw [type_of_make hmake, hplans.type]

/-- **A property of the object that is read** holds what was read of its one part. -/
theorem exists_field_of_object (P : c.PlannedBy f s) (hw : Written c f s t fields o plan pss)
    (htext : ShowsTexts node pss.flatten) {p : Property} (hp : p ∈ c.plannedProperties t)
    (hc : p.carrier = false) {shape : Shape} (hshape : c.Forms (layoutIn f p) p.type shape)
    (hflat : shape.isFlattened = false) (hts : Tree.parts node = .ok ts)
    (hone : under (wireName f p) (placementIn f p) ts = [(wireName f p, placementIn f p, t')])
    (h : object s inner t node = .ok i) :
    ∃ v, inner shape p.nullable (wireName f p) t' = .ok v ∧ Table.find? i.fields p.name = some v := by
  have W := P.wellFormed
  obtain ⟨u, hu⟩ := c.exists_recognised t t
  obtain rfl : u = t := by cases hu <;> rfl
  obtain ⟨dplan, ts', uplan, scan, hd, hts', hplan, hscan, -, hmake⟩ := object_eq_ok_iff.1 h
  obtain rfl := Except.ok.inj (hts.symm.trans hts')
  obtain ⟨dplan', uo, uplan', hd', huo, -, hplans, hplan'⟩ := exists_concretePlan P hw (.refl u) htext hu
  obtain rfl := Option.some.inj (hd.symm.trans hd')
  obtain rfl := Except.ok.inj (hplan.symm.trans hplan')
  obtain ⟨shape', hshape', hbound⟩ := boundAction_of_mem hplans hp hc
  obtain rfl := hshape.unique hshape'
  have hother : ∀ k pl b, boundAction uplan k pl = some b →
      b.property = (Catalogue.fieldAction f p shape).property →
        k = wireName f p ∧ pl = placementIn f p := by
    intro k pl b hb hbp
    obtain ⟨hb, hpl⟩ := Option.filter_eq_some_iff.1 hb
    obtain ⟨q, hq, -, rfl, _, -, -, rfl⟩ := (hplans.actions k b).1 hb
    obtain rfl := W.eq_of_name huo hq hp hbp
    exact ⟨rfl, (of_decide_eq_true hpl).symm⟩
  obtain ⟨v, hv, hfound⟩ := exists_of_fields hbound hflat hother hone hscan
  refine ⟨v, hv, ?_⟩
  rw [find?_of_make hplans hmake hp, find?_gathered W huo hplans hp hc]
  exact hfound

/-- A tree that is no null is read as an object where one is expected. -/
theorem exists_object_of_value {room : Nat} {h : Handle} {allowed : Bool} {name : String}
    {v : Value} (hn : Tree.isNull node = false)
    (hv : value s room (.object h) allowed name node = .ok v) :
    ∃ inner i, object s inner h node = .ok i ∧ v = i.toValue := by
  cases room with
  | zero =>
    rw [value, nullable, hn, if_neg Bool.false_ne_true] at hv
    cases hv
  | succ room =>
    rw [value, nullable, hn, if_neg Bool.false_ne_true] at hv
    obtain ⟨i, hi, hv⟩ := Outcome.bind_eq_ok_iff.1 hv
    exact ⟨_, i, hi, (Outcome.pure_eq_ok_iff.1 hv).symm⟩

end Tree

end Marshal
