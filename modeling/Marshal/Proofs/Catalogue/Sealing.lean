import Marshal.Proofs.Catalogue.Forest
import Marshal.Proofs.Catalogue.Reachable

/-!
# Sealing is sound and complete

The checks pass exactly on the well-formed catalogues (`exists_check_iff`), and so sealing succeeds
exactly on them (`exists_trySeal_iff`). In a sealed catalogue every object type is in the forest
(`Reachable.grown`).
-/

namespace Marshal.Catalogue

variable {c : Catalogue}

/-- The rules on one type by itself, for all types. -/
theorem forall_checkSlot_iff :
    (∀ s ∈ c.slots.toList, c.checkSlot s = .ok ()) ↔
      (∀ h e, c.kind? h = some (.enumeration e) → (e.members.map e.key).Nodup) ∧
      c.BasesAreObjects ∧
      ∀ h o, c.object? h = some o →
        ((o.properties.filter Property.carrier).length ≤ 1 ∧
          ∀ p ∈ o.properties, p.carrier = true → p.type.isMapping = true) ∧
        ∀ p ∈ o.properties, ∀ k ∈ p.type.handles, k.index < c.size := by
  rw [forall_slots]
  constructor
  · intro H
    have hchecked : ∀ {h k}, c.kind? h = some k →
        ∃ n name, c.checkSlot ⟨n, some ⟨name, k⟩⟩ = .ok () := by
      intro h k hk
      obtain ⟨⟨name, _⟩, he, rfl⟩ := Option.map_eq_some_iff.1 ((kind?_eq c h).symm.trans hk)
      obtain ⟨n, hs⟩ := get?_eq_some_iff.1 he
      exact ⟨n, name, H h _ hs⟩
    refine ⟨fun h e he => ?_, fun h b hb => ?_, fun h o ho => ?_⟩
    · obtain ⟨_, _, hcheck⟩ := hchecked he
      exact checkEnumeration_eq_ok_iff.1 hcheck
    · obtain ⟨o, ho, hob⟩ := base?_eq_some_iff.1 hb
      obtain ⟨_, _, hcheck⟩ := hchecked (object?_eq_some_iff.1 ho)
      exact (checkObject_eq_ok_iff.1 hcheck).1 b hob
    · obtain ⟨_, _, hcheck⟩ := hchecked (object?_eq_some_iff.1 ho)
      exact (checkObject_eq_ok_iff.1 hcheck).2
  · rintro ⟨hw, hb, ho⟩ h ⟨n, e⟩ hs
    rcases e with _ | ⟨name, p | e | o⟩
    · rfl
    · rfl
    · exact checkEnumeration_eq_ok_iff.2 (hw h e (Option.bind_eq_some_iff.2 ⟨_, hs, rfl⟩))
    · have hobj : c.object? h = some o :=
        object?_eq_some_iff.2 (Option.bind_eq_some_iff.2 ⟨_, hs, rfl⟩)
      exact checkObject_eq_ok_iff.2
        ⟨fun b hob => hb h b (base?_eq_some_iff.2 ⟨o, hobj, hob⟩), ho h o hobj⟩

/-- The rules on hierarchies, given the rules on inheritance. -/
theorem fits_iff (hc : c.Acyclic) (hb : c.BasesAreObjects) :
    (∀ h ∈ c.topDown, c.Fits h) ↔
      (∀ h a d e, c.Below h a → c.Names a d → c.Names h e → e = d) ∧
      (∀ h d, c.Names h d → (∀ a e, c.Below h a → ¬ c.Names a e) →
        ∃ p ∈ c.effectiveProperties h, p.name = d ∧ c.Discriminates p) ∧
      (∀ h w, c.word? h = some w → ∃ a d, c.Inherits h a ∧ c.Names a d) ∧
      (∀ r h o, c.Governs r h → c.object? h = some o → o.isAbstract = false →
        (∀ k, c.base? k ≠ some h) → ∃ w, c.word? h = some w) := by
  have hwalk : ∀ {h o}, c.object? h = some o → h ∈ c.topDown := fun ho =>
    (mem_topDown_iff hc hb).2 ⟨_, ho⟩
  constructor
  · intro F
    refine ⟨fun h a d e ha hd he => ?_, fun h d hd htop => ?_, fun h w hw => ?_,
      fun r h o gr ho => (F h (hwalk ho)).covered r o gr ho⟩
    · -- both names are that of the type that governs
      obtain ⟨o, ho, hoe⟩ := he
      obtain ⟨r, gr⟩ := exists_governs hc ⟨a, d, inherits_iff_below.2 (.inr ha), hd⟩
      obtain ⟨n, hn⟩ := gr.2.1
      have ga := gr.of_names (inherits_iff_below.2 (.inr ha)) hd
      obtain ⟨o', ho', -⟩ := id hd
      rw [(F h (hwalk ho)).agree r n e gr hn ⟨o, ho, hoe⟩,
        (F a (hwalk ho')).agree r n d ga hn hd]
    · obtain ⟨o, ho, hod⟩ := hd
      exact (F h (hwalk ho)).discriminable d ⟨.refl h, ⟨d, o, ho, hod⟩, htop⟩ ⟨o, ho, hod⟩
    · obtain ⟨o, ho, -⟩ := Option.bind_eq_some_iff.1 hw
      obtain ⟨r, gr⟩ := (F h (hwalk ho)).inside w hw
      obtain ⟨d, hd⟩ := gr.2.1
      exact ⟨r, d, gr.1, hd⟩
  · rintro ⟨ha, hd, hi, hcov⟩ h -
    refine ⟨fun r d e gr hrd he => ?_, fun d gs hnd => hd h d hnd gs.2.2,
      fun w hw => exists_governs hc (hi h w hw), fun r o gr ho => hcov r h o gr ho⟩
    rcases inherits_iff_below.1 gr.1 with rfl | hb
    · exact he.unique hrd
    · exact ha h r d e hb hrd he

/-- **The checks pass exactly on the well-formed catalogues.** -/
theorem exists_check_iff : (∃ f, c.check = .ok f) ↔ c.WellFormed := by
  simp only [check_eq_ok_iff, exists_and_left, forall_objects, forall_checkSlot_iff,
    forall_slots, checkEffective_eq_ok_iff]
  constructor
  · rintro ⟨hdef, ⟨hw, hb, ho⟩, hcyc, heff, hres⟩
    have hc : c.Acyclic := acyclic_iff.1 (forall_objects.2 hcyc)
    obtain ⟨hfits, hapart⟩ :=
      (exists_resolveForest_iff hc hb fun h o ho => (heff h o ho).1).2 hres
    obtain ⟨hag, hdisc, hin, hcov⟩ := (fits_iff hc hb).1 hfits
    exact
      { defined := hdef
        words := hw
        base := hb
        oneCarrier := fun h o ho' => (ho h o ho').1.1
        carrierMapping := fun h o ho' => (ho h o ho').1.2
        declared := fun h o ho' => (ho h o ho').2
        acyclic := hc
        names := fun h o ho' => (heff h o ho').1
        wires := fun h o ho' => (heff h o ho').2.1
        xmlWires := fun h o ho' => (heff h o ho').2.2
        agree := hag
        discriminable := hdisc
        inside := hin
        distinct := fun r h k w gh gk hw hw' => by
          by_contra hne
          exact hapart h k hne r w gh gk hw hw'
        covered := hcov }
  · intro W
    refine ⟨W.defined, ⟨W.words, W.base, fun h o ho =>
        ⟨⟨W.oneCarrier h o ho, W.carrierMapping h o ho⟩, W.declared h o ho⟩⟩,
      forall_objects.1 (acyclic_iff.2 W.acyclic), fun h o ho => ⟨W.names h o ho, W.wires h o ho, W.xmlWires h o ho⟩, ?_⟩
    refine (exists_resolveForest_iff W.acyclic W.base W.names).1 ⟨?_, fun h k hne r w gh gk hw hw' => ?_⟩
    · exact (fits_iff W.acyclic W.base).2 ⟨W.agree, W.discriminable, W.inside, W.covered⟩
    · exact hne (W.distinct r h k w gh gk hw hw')

namespace Reachable

/-- A sealed catalogue is well formed. -/
theorem wellFormed (hc : c.Reachable) (hs : c.isSealed = true) : c.WellFormed :=
  exists_check_iff.1 ⟨_, hc.check_eq_ok hs⟩

/-- **The forest of a sealed catalogue holds every object type.** -/
theorem grown (hc : c.Reachable) (hs : c.isSealed = true) :
    Grown c c.topDown.reverse c.forest :=
  grown_of_resolveForest (check_eq_ok_iff.1 (hc.check_eq_ok hs)).2.2.2.2

end Reachable

/-- **Sealing succeeds exactly on the well-formed catalogues.** -/
theorem exists_trySeal_iff (hc : c.Reachable) : (∃ c', c.trySeal = .ok c') ↔ c.WellFormed := by
  rcases Bool.eq_false_or_eq_true c.isSealed with hs | ho
  · exact iff_of_true ⟨c, trySeal_of_isSealed hs⟩ (hc.wellFormed hs)
  · rw [← exists_check_iff]
    simp only [trySeal_eq_ok_iff_check ho]
    exact ⟨fun ⟨_, f, hf, _⟩ => ⟨f, hf⟩, fun ⟨f, hf⟩ => ⟨_, f, hf, rfl⟩⟩

/-- A small hierarchy: shapes told apart by their kind, of which one can be made. A circle has a
radius, labels, and whatever else is said of it. -/
def shapes : Catalogue :=
  .ofEntities [
    ⟨"Shape", .object
      { properties := [{ name := "kind", wire := "kind", type := .named ⟨0⟩, required := true }]
        discriminator := some "kind"
        isAbstract := true }⟩,
    ⟨"Circle", .object
      { base := some ⟨8⟩
        properties := [
          { name := "radius", wire := "r", type := .named ⟨2⟩, placement := .attribute },
          { name := "labels", wire := "labels", type := .collection .sequence (.named ⟨0⟩) false },
          { name := "others", wire := "others", carrier := true
            type := .collection .mapping (.named ⟨1⟩) true }]
        discriminatorValue := some "circle" }⟩]

theorem reachable_shapes : shapes.Reachable :=
  .ofEntities (by decide)

theorem wellFormed_shapes : shapes.WellFormed :=
  (exists_trySeal_iff reachable_shapes).1 ⟨_, rfl⟩

/-- The shapes, sealed. -/
def sealedShapes : Catalogue :=
  shapes.withForest ⟨[⟨⟨8⟩, "kind", [("circle", ⟨9⟩)]⟩], [(⟨8⟩, ⟨8⟩), (⟨9⟩, ⟨8⟩)]⟩

theorem reachable_sealedShapes : sealedShapes.Reachable :=
  .trySeal reachable_shapes (by decide)

/-- Circles are told apart by their kind. -/
theorem governs_circle : sealedShapes.Governs ⟨8⟩ ⟨9⟩ := by
  have hbase : sealedShapes.base? ⟨9⟩ = some ⟨8⟩ := by decide
  exact governs_of_base?_eq_none (by decide) ⟨_, rfl, rfl⟩ (.of_base hbase (.refl _))

end Marshal.Catalogue
