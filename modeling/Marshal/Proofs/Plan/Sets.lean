import Marshal.Proofs.Catalogue.Sealing
import Marshal.Proofs.Plan.Objects

/-!
# Plan sets

A plan set of a sealed catalogue has a plan for each object type and for each enumeration, and for
nothing else (`PlannedBy`, `PlannedBy.enum?_eq_some_iff`). What the plans say of types agrees with the
catalogue.
-/

namespace Marshal.Catalogue

variable {c : Catalogue}

theorem requireSealed_eq_ok_iff {u : Unit} : c.requireSealed = .ok u ↔ c.isSealed = true := by
  rw [requireSealed]
  split <;> simp_all

/-- A table made of the results for distinct handles, each under its own handle. -/
theorem find?_ofList_results {α ε : Type} {F : Handle → Except ε α} {key : α → Handle}
    (hkey : ∀ h a, F h = .ok a → key a = h) {hs : List Handle} (hn : hs.Nodup) {as : List α}
    (H : List.Forall₂ (fun h a => F h = .ok a) hs as) {h : Handle} {a : α} :
    Table.find? (Table.ofList (as.map fun a => (key a, a))) h = some a ↔
      h ∈ hs ∧ F h = .ok a := by
  have hkeys : Table.keys (as.map fun a => (key a, a)) = hs := by
    clear hn
    induction H with
    | nil => rfl
    | cons ha _ ih => exact congrArg₂ List.cons (hkey _ _ ha) ih
  have hn' : (Table.keys (as.map fun a => (key a, a))).Nodup := by rwa [hkeys]
  rw [Table.find?_ofList hn']
  constructor
  · intro hf
    obtain ⟨b, hb, e⟩ := List.mem_map.1 (Table.mem_of_find? hf)
    obtain ⟨rfl, rfl⟩ := Prod.mk.inj e
    obtain ⟨k, hk, hr⟩ := Outcome.forall₂_exists_right H hb
    rw [hkey k b hr]
    exact ⟨hk, hr⟩
  · rintro ⟨hh, ha⟩
    obtain ⟨b, hb, hr⟩ := Outcome.forall₂_exists_left H hh
    obtain rfl := Except.ok.inj (ha.symm.trans hr)
    exact Table.find?_of_mem hn' (List.mem_map.2 ⟨a, hb, by rw [hkey h a ha]⟩)

/-- **A plan set of a sealed catalogue.** -/
structure PlannedBy (c : Catalogue) (f : Format) (s : PlanSet) : Prop where
  wellFormed : c.WellFormed
  carried : c.Carried
  grown : Grown c c.topDown.reverse c.forest
  format : s.format = f
  /-- The planned types are the object types. -/
  type : ∀ h p, s.type? h = some p ↔ h ∈ c.objects ∧ c.planObject f h = .ok p
  /-- The planned enumerations are the enumerations. -/
  enum : ∀ h p, s.enum? h = some p ↔ h ∈ c.enumerations ∧ c.planEnumeration h = .ok p
  planned : ∀ h o, c.object? h = some o → ∃ p, s.type? h = some p

/-- **Planning a reachable catalogue** gives a plan set of it. -/
theorem planAll_spec (hc : c.Reachable) {f : Format} {cancelled : Bool} {s : PlanSet}
    (hs : c.planAll f cancelled = .ok s) : c.PlannedBy f s := by
  obtain ⟨_, hseal, hs⟩ := Outcome.bind_eq_ok_iff.1 hs
  obtain ⟨types, htypes, hs⟩ := Outcome.bind_eq_ok_iff.1 hs
  obtain ⟨enums, henums, hs⟩ := Outcome.bind_eq_ok_iff.1 hs
  obtain rfl := Outcome.pure_eq_ok_iff.1 hs
  have hsealed := requireSealed_eq_ok_iff.1 hseal
  have W := hc.wellFormed hsealed
  have htypes' : List.Forall₂ (fun h p => c.planObject f h = .ok p) c.objects types := by
    refine (Outcome.mapM_eq_ok_iff.1 htypes).imp fun h p hp => ?_
    cases cancelled
    · exact hp
    · exact absurd hp Outcome.throw_ne_ok
  have hkey : ∀ h p, c.planObject f h = .ok p → p.type = h := fun h p hp => by
    obtain ⟨_, _, P⟩ := planObject_spec W hp
    exact P.type
  have hkey' : ∀ h p, c.planEnumeration h = .ok p → p.type = h := fun h p hp => by
    obtain ⟨e, -, rfl⟩ := (planEnumeration_eq_ok_iff hc.carried).1 hp
    rfl
  have htype : ∀ h p, PlanSet.type? ⟨f, _, Table.ofList (enums.map fun p => (p.type, p))⟩ h = some p ↔
      h ∈ c.objects ∧ c.planObject f h = .ok p := fun h p =>
    find?_ofList_results hkey (nodup_objects c) htypes'
  refine ⟨W, hc.carried, hc.grown hsealed, rfl, htype, fun h p => ?_, fun h o ho => ?_⟩
  · exact find?_ofList_results hkey' (nodup_enumerations c) (Outcome.mapM_eq_ok_iff.1 henums)
  · have hh := mem_objects.2 ⟨o, ho⟩
    obtain ⟨p, -, hp⟩ := Outcome.forall₂_exists_left htypes' hh
    exact ⟨p, (htype h p).2 ⟨hh, hp⟩⟩

namespace PlannedBy

variable {f : Format} {s : PlanSet} {h : Handle}

/-- The plan of a planned type. -/
theorem plans (P : c.PlannedBy f s) {p : TypePlan} (hp : s.type? h = some p) :
    ∃ o, c.object? h = some o ∧ c.Plans f h o p :=
  planObject_spec P.wellFormed ((P.type h p).1 hp).2

/-- A plan bears the name of its type. -/
theorem name_eq (P : c.PlannedBy f s) {p : TypePlan} (hp : s.type? h = some p) :
    p.name = c.nameOf h :=
  name_of_planObject P.carried ((P.type h p).1 hp).2

/-- The plan of an object type. -/
theorem exists_plans (P : c.PlannedBy f s) {o : ObjectType} (ho : c.object? h = some o) :
    ∃ p, s.type? h = some p ∧ c.Plans f h o p := by
  obtain ⟨p, hp⟩ := P.planned h o ho
  obtain ⟨o', ho', hplans⟩ := P.plans hp
  obtain rfl := Option.some.inj (ho.symm.trans ho')
  exact ⟨p, hp, hplans⟩

theorem enum?_eq_some_iff (P : c.PlannedBy f s) {p : EnumPlan} :
    s.enum? h = some p ↔ ∃ e, c.kind? h = some (.enumeration e) ∧
      p = ⟨h, c.nameOf h, e.members, e.caseSensitive, e.isOpen⟩ := by
  rw [P.enum, planEnumeration_eq_ok_iff P.carried, and_iff_right_iff_imp]
  rintro ⟨e, he, -⟩
  exact mem_enumerations.2 ⟨e, he⟩

/-- **What the plans say of inheritance** agrees with the catalogue. -/
theorem isSubtype_iff (P : c.PlannedBy f s) {a : Handle} {o : ObjectType}
    (ho : c.object? h = some o) : s.isSubtype h a = true ↔ c.Inherits h a := by
  obtain ⟨p, hp, hplans⟩ := P.exists_plans ho
  rw [PlanSet.isSubtype, hp, ← mem_lineage_iff P.wellFormed.acyclic, ← hplans.lineage]
  exact decide_eq_true_iff

end PlannedBy

/-- The plans of the shapes for a format. -/
def shapePlans (f : Format) : PlanSet := (sealedShapes.planAll f).toOption.getD ⟨f, [], []⟩

theorem planAll_sealedShapes (f : Format) : sealedShapes.planAll f = .ok (shapePlans f) := by
  cases f <;> decide

end Marshal.Catalogue
