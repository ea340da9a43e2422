import Marshal.Proofs.Catalogue.Hierarchies
import Marshal.Proofs.Plan.Sets

/-!
# Ancestors, by lineages and by plans

A catalogue may have types whose bases run in a circle, types that are not defined yet, and bases
that are no types of it, and every handle has a lineage all the same, which is the one way up from it
(`Ascent`). Sealing rules the circles out, and inheritance becomes a partial order on which lineages,
children and plans agree (`lineage_exact`).
-/

namespace Marshal.Catalogue

variable {c : Catalogue} {h : Handle}

/-- Without circles inheritance is a partial order. -/
theorem isPartialOrder_isSubtype (hc : c.Acyclic) :
    IsPartialOrder Handle fun a b => c.isSubtype a b = true where
  refl a := (isSubtype_iff hc).2 (.refl a)
  trans a b x hab hbx :=
    (isSubtype_iff hc).2 (((isSubtype_iff hc).1 hab).trans ((isSubtype_iff hc).1 hbx))
  antisymm a b hab hba := by
    rw [isSubtype_iff hc] at hab hba
    rcases inherits_iff_below.1 hab with rfl | hbelow
    · rfl
    · exact absurd (Relation.TransGen.trans_left hbelow hba) (hc a)

/-- Without circles the second type of a lineage is the base. -/
theorem getElem?_one_lineage (hc : c.Acyclic) : (c.lineage h)[1]? = c.base? h := by
  rcases hb : c.base? h with _ | b
  · rw [lineage_of_base?_eq_none hb]
    rfl
  · rw [lineage_of_base hc hb, List.getElem?_cons_succ, ← List.head?_eq_getElem?]
    exact (ascent_lineage c b).start

theorem children_eq_filter (hc : c.Acyclic) (h : Handle) :
    c.children h = c.objects.filter fun k => (c.lineage k)[1]? = some h := by
  rw [children, objects, handlesWhere, List.filter_filter]
  refine List.filter_congr fun k _ => ?_
  rw [getElem?_one_lineage hc, Bool.eq_iff_iff]
  simp only [decide_eq_true_iff, Bool.and_eq_true, iff_self_and]
  intro hb
  obtain ⟨o, ho, -⟩ := base?_eq_some_iff.1 hb
  rw [object?_eq_some_iff.1 ho]
  rfl

/-- The plans of a catalogue say the same of inheritance as the catalogue. -/
theorem PlannedBy.isSubtype_eq {f : Format} {s : PlanSet} (P : c.PlannedBy f s) {sub : Handle}
    (hsub : sub ∈ c.objects) (sup : Handle) : s.isSubtype sub sup = c.isSubtype sub sup := by
  obtain ⟨o, ho⟩ := mem_objects.1 hsub
  rw [Bool.eq_iff_iff, P.isSubtype_iff ho, Catalogue.isSubtype_iff P.wellFormed.acyclic]

/-- **Lineages are exact.** In any catalogue the lineage of a handle is the whole way up from it, and
no other chain is; a walk that is allowed more comes to the same. In a sealed catalogue inheritance is a
partial order, the children of a type are the object types whose lineage has it in the second place,
and the plans for any format agree with the catalogue on what inherits from what. -/
theorem lineage_exact (c : Catalogue) :
    (∀ h, c.Ascent [] h (c.lineage h) ∧ (∀ chain, c.Ascent [] h chain → chain = c.lineage h) ∧
      ∀ fuel, c.size ≤ fuel → c.ascend fuel [] h = c.lineage h) ∧
    (c.Reachable → c.isSealed = true →
      IsPartialOrder Handle (fun a b => c.isSubtype a b = true) ∧
      (∀ h, c.children h = c.objects.filter fun k => (c.lineage k)[1]? = some h) ∧
      ∀ f cancelled s, c.planAll f cancelled = .ok s →
        ∀ sub ∈ c.objects, ∀ sup, s.isSubtype sub sup = c.isSubtype sub sup) := by
  refine ⟨fun h => ⟨ascent_lineage c h, fun chain ha => ha.unique (ascent_lineage c h),
    fun fuel => ascend_eq_lineage⟩, fun hc hs => ?_⟩
  have hacyclic := (hc.wellFormed hs).acyclic
  exact ⟨isPartialOrder_isSubtype hacyclic, children_eq_filter hacyclic,
    fun f cancelled s hplan sub hsub => (planAll_spec hc hplan).isSubtype_eq hsub⟩

/-- In the tangle a strand leads into a circle of two, and its lineage stops before it comes round. Among
the shapes a circle is the one child of a shape, and the plans know that it is one. -/
theorem lineage_exact_shapes : tangle.Ascent [] ⟨12⟩ [⟨12⟩, ⟨10⟩, ⟨11⟩] ∧
    sealedShapes.Reachable ∧ sealedShapes.isSealed = true ∧
    sealedShapes.planAll .xml = .ok (shapePlans .xml) ∧
    sealedShapes.Ascent [] ⟨9⟩ [⟨9⟩, ⟨8⟩] ∧ sealedShapes.children ⟨8⟩ = [⟨9⟩] ∧
    (shapePlans .xml).isSubtype ⟨9⟩ ⟨8⟩ = true ∧ (shapePlans .xml).isSubtype ⟨8⟩ ⟨9⟩ = false := by
  obtain ⟨htangle, -⟩ := lineage_exact tangle
  obtain ⟨hshapes, hsealed⟩ := lineage_exact sealedShapes
  obtain ⟨-, hchildren, hplans⟩ := hsealed reachable_sealedShapes rfl
  have hstrand : tangle.lineage ⟨12⟩ = [⟨12⟩, ⟨10⟩, ⟨11⟩] := by decide
  have hcircle : sealedShapes.lineage ⟨9⟩ = [⟨9⟩, ⟨8⟩] := by decide
  have hagree := hplans .xml false _ (planAll_sealedShapes .xml)
  refine ⟨hstrand ▸ (htangle ⟨12⟩).1, reachable_sealedShapes, rfl, planAll_sealedShapes .xml,
    hcircle ▸ (hshapes ⟨9⟩).1, ?_, ?_, ?_⟩
  · rw [hchildren]
    decide
  · rw [hagree ⟨9⟩ (by decide)]
    decide
  · rw [hagree ⟨8⟩ (by decide)]
    decide

end Marshal.Catalogue
