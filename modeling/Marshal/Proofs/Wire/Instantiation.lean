import Marshal.Proofs.Wire.Conduct
import Marshal.Proofs.Wire.Origins
import Marshal.Proofs.Wire.Soundness
import Marshal.Proofs.Wire.Walk

/-!
# Types that objects are made of

Where a type at or below the declared one has a word, an object that is read has a type that its word
selects: the discriminator is required, and it is read of a text, so the look ahead finds one or there
is no object (`Tree.instantiates_of_object`). Where none has a word nothing is looked for, and the object
is of the declared type, abstract or not. The encoder looks at the type itself
(`Catalogue.PlannedBy.uninstantiable_of_refuses`).
-/

namespace Marshal

open Decode Outcome

namespace Catalogue

variable {c : Catalogue} {f : Format} {s : PlanSet} {h t : Handle}

/-- A word is looked for where the type is declared: it is in a hierarchy, and a type at or below it
has a word. -/
def Dispatches (c : Catalogue) (h : Handle) : Prop :=
  (∃ r, c.Governs r h) ∧ ∃ k w, c.Inherits k h ∧ c.word? k = some w

/-- **The type of an object in a slot**: one that a word selects where a word is looked for, and the
declared one anywhere else. -/
inductive Instantiates (c : Catalogue) (h : Handle) : Handle → Table String Value → Prop where
  | selected {t : Handle} {fields : Table String Value} {w : String} (dispatches : c.Dispatches h)
      (below : c.Inherits t h) (word : c.word? t = some w) : Instantiates c h t fields
  | declared {fields : Table String Value} (direct : ¬ c.Dispatches h) : Instantiates c h h fields

/-- **No object of the type is written**: it is abstract, or it has no word for its hierarchy. -/
def Uninstantiable (c : Catalogue) (t : Handle) : Prop :=
  (∃ o, c.object? t = some o ∧ o.isAbstract = true) ∨ ((∃ r, c.Governs r t) ∧ c.word? t = none)

/-- **Dispatch guards against every type that no object is written of**: it has no word, and in its
hierarchy a type below it has one. -/
def Guarded (c : Catalogue) : Prop := ∀ t, c.Uninstantiable t → c.Dispatches t ∧ c.word? t = none

/-- An object is never made of a type without a word that has one below it. -/
theorem Instantiates.exists_word {fields : Table String Value} (hi : c.Instantiates h t fields)
    (hd : c.Dispatches t) : ∃ w, c.word? t = some w := by
  cases hi with
  | selected _ _ word => exact ⟨_, word⟩
  | declared direct => exact absurd hd direct

/-- Every object in a typed value stands in a slot. -/
theorem Conforms.exists_slot {R : SlotRule} {n : Bool} {r : Reference} {v : Value}
    (hv : c.Conforms R n r v) (hm : v.Mentions t) : ∃ h fields, R h t fields := by
  induction hm generalizing n r with
  | self =>
    cases hv with
    | primitive _ hp => exact absurd hp Primitive.not_holds_object
    | object _ slot => exact ⟨_, _, slot⟩
  | field hk _ ih =>
    cases hv with
    | primitive _ hp => exact absurd hp Primitive.not_holds_object
    | object _ _ ascending declared _ _ typed =>
      obtain ⟨p, hp, rfl⟩ := declared _ _ hk
      exact ih (typed p hp _ ((Table.find?_eq_some_iff ascending).2 hk))
  | item hw _ ih =>
    cases hv with
    | primitive _ hp => exact absurd hp Primitive.not_holds_list
    | list hvs => exact ih (hvs _ hw)
  | entry hk _ ih =>
    cases hv with
    | primitive _ hp => exact absurd hp Primitive.not_holds_map
    | map _ hes => exact ih (hes _ _ hk)

/-! ## Plans -/

namespace PlannedBy

variable {o : ObjectType} {plan : TypePlan}

/-- **A plan looks for a word** just where there is one to find. -/
theorem exists_discriminator_iff (P : c.PlannedBy f s) (hplan : c.Plans f h o plan) :
    (∃ d, plan.read.discriminator = some d) ↔ c.Dispatches h := by
  constructor
  · rintro ⟨d, hd⟩
    obtain ⟨y, hy, hne, -, -, -, rfl⟩ :=
      dispatchOf_eq_some_iff.1 (hplan.discriminator.symm.trans hd)
    obtain ⟨r, g, -⟩ := P.of_hierarchyOf? hy
    obtain ⟨⟨w, k⟩, hk⟩ := List.exists_mem_of_ne_nil _ hne
    obtain ⟨-, hw, hi⟩ := P.find?_variantsFor.1
      ((Table.find?_eq_some_iff (P.ascending_variantsFor h)).2 hk)
    exact ⟨⟨r, g⟩, k, w, hi, hw⟩
  · rintro ⟨⟨r, g⟩, k, w, hi, hw⟩
    obtain ⟨d, hd, -⟩ := P.exists_dispatch g (g.of_inherits hi) hi hw hplan
    exact ⟨d, hd⟩

/-- **A type that the encoder refuses** is abstract, or its hierarchy asks for a word that it does not
have. -/
theorem uninstantiable_of_refuses (P : c.PlannedBy f s) (hplan : s.type? t = some plan)
    (hr : Encode.Refuses plan) : c.Uninstantiable t := by
  obtain ⟨o, ho, hplans⟩ := P.plans hplan
  rcases hr with habs | ⟨st, hst, he⟩
  · exact .inl ⟨o, ho, hplans.isAbstract.symm.trans habs⟩
  · have hsteps : ∀ st ∈ plan.write.steps, st.emission = .discriminator none →
        (∃ r, c.Governs r t) ∧ c.word? t = none := by
      refine hplans.forall_steps.2 fun p _ x hx hnone => ?_
      cases hx with
      | @field shape =>
        rcases P.emissionOf_eq ho p shape with ⟨⟨r, g, -⟩, hword⟩ | ⟨-, hvalue⟩
        · exact ⟨⟨r, g⟩, Emission.discriminator.inj (hword.symm.trans hnone)⟩
        · cases hvalue.symm.trans hnone
      | carrier => cases hnone
    exact .inr (hsteps st hst he)

end PlannedBy

end Catalogue

/-! ## Objects in a tree -/

namespace Tree

open Catalogue

variable {τ : Type} [Tree τ] {c : Catalogue} {f : Format} {s : PlanSet}

/-- The look ahead does not miss a text: where a part of an object is one, something is found under its
name. -/
def FindsTexts (τ : Type) [Tree τ] : Prop :=
  ∀ (node : τ) ts x word, Tree.parts node = .ok ts → x ∈ ts → Tree.scalar x.2.2 = .ok (.text word) →
    Tree.text? node x.1 x.2.1 ≠ .ok none

/-- **The type of an object that is read** is selected by a word where one is looked for. -/
theorem instantiates_of_object (P : c.PlannedBy f s) (hτ : FindsTexts τ) {room : Nat}
    {declared : Handle} {node : τ} {i : Instance}
    (h : object s (value s room) declared node = .ok i) :
    c.Instantiates declared i.type i.fields := by
  obtain ⟨dplan, ts, plan, scan, hd, hts, hconcrete, hscan, -, hmake⟩ := object_eq_ok_iff.1 h
  obtain ⟨o, ho, hdplan⟩ := P.plans hd
  have htype := type_of_make hmake
  rw [concretePlan] at hconcrete
  rcases hdisp : dplan.read.discriminator with _ | d <;> rw [hdisp] at hconcrete
  · obtain rfl := Except.ok.inj hconcrete
    rw [htype.trans hdplan.type]
    refine .declared fun hdis => ?_
    obtain ⟨d, hd'⟩ := (P.exists_discriminator_iff hdplan).2 hdis
    cases hdisp.symm.trans hd'
  · have hdis := (P.exists_discriminator_iff hdplan).1 ⟨d, hdisp⟩
    obtain ⟨found, hfound, hconcrete⟩ := bind_eq_ok_iff.1 hconcrete
    rcases found with _ | word
    · -- the scan along the declared plan filled the discriminator, of a text that is not missed
      obtain rfl := pure_eq_ok_iff.1 hconcrete
      obtain ⟨p, -, hc, hdis, hwire, hplace, hp⟩ := P.exists_dispatched hdplan hdisp
      have hp := hp declared (.refl declared)
      obtain ⟨v, hv⟩ := exists_of_required hdplan hmake hp hc hdis.1
      obtain ⟨x, hx, shape, u, hxwire, hxplace, hshape, hread, -⟩ :=
        (scanned_of_fields hscan).exists_field P.wellFormed ho hdplan hmake hp hc hv
      obtain ⟨word, hscalar, -⟩ := readsAs_of_value P hdis hshape hread
      refine absurd ?_ (hτ node ts x word hts hx hscalar)
      rw [hxwire, hxplace, hwire, hplace]
      exact hfound
    · dsimp only at hconcrete
      rcases hk : Table.find? d.variants word with _ | k <;> rw [hk] at hconcrete
      · cases hconcrete
      · obtain ⟨hi, hw⟩ := (P.find?_variants hdplan hdisp).1 hk
        obtain ⟨_, -, hplan⟩ := P.plans (typePlan_eq_ok_iff.1 hconcrete)
        obtain rfl : i.type = k := htype.trans hplan.type
        exact .selected hdis hi hw

end Tree

/-- **A source that walks such trees** makes objects of those types, if what it makes an object of
stands in front of it as a tree. -/
theorem Walks.slotSound {τ σ : Type} [Tree τ] [Source σ] [Walks τ σ] {c : Catalogue} {f : Format}
    {s : PlanSet} (P : c.PlannedBy f s) (hτ : Tree.FindsTexts τ) {room : Nat}
    (hat : ∀ {declared r i r'}, object s (value s room : Inner σ) declared r = .ok i r' →
      ∃ (t : τ) (r₁ : σ), Walks.At t r r₁) :
    SlotSound s c.Instantiates (value s room : Inner σ) := by
  intro declared r i r' h
  obtain ⟨t, r₁, hat⟩ := hat h
  have hfollows : Follows (object s (value s room) declared)
      (Tree.object s (Tree.value s room) declared t) r r₁ :=
    Walks.object_follows (Walks.value_follows room) declared hat
  exact Tree.instantiates_of_object P hτ (hfollows.eq_ok h)

end Marshal
