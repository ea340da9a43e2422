import Marshal.Proofs.Plan.Mirror
import Marshal.Proofs.Wire.Acceptance
import Marshal.Proofs.Wire.Tree

/-!
# The parts of an object

`Draft.Part` says what is written of one property, and `Draft.Written` that the draft of an object
is made of such parts in the order of emission (`written_of_ofObject?`). No other property has parts
under the name of one (`Written.exists_filter_eq`). So where a tree shows the word of a type under
the name of the discriminator, the concrete type is found: the type itself where the declared one is
in a hierarchy, and the declared one elsewhere (`Tree.exists_concretePlan`).
-/

namespace Marshal

/-- A list of lists, each related to an element that no other is equal to, has only those of one
element under what marks it. -/
theorem Outcome.exists_filter_flatten {α β : Type} {R : α → List β → Prop} {as : List α}
    {bss : List (List β)} (H : List.Forall₂ R as bss) (hn : as.Nodup) {a : α} (ha : a ∈ as)
    {mark : β → Bool} (hself : ∀ bs, R a bs → ∀ b ∈ bs, mark b = true)
    (hother : ∀ a' ∈ as, a' ≠ a → ∀ bs, R a' bs → ∀ b ∈ bs, mark b = false) :
    ∃ bs, R a bs ∧ bss.flatten.filter mark = bs := by
  induction H with
  | nil => cases ha
  | @cons a' bs as bss hR H ih =>
    obtain ⟨hnot, hn⟩ := List.nodup_cons.1 hn
    obtain ⟨hother', hothers⟩ := List.forall_mem_cons.1 hother
    rw [List.flatten_cons, List.filter_append]
    rcases List.mem_cons.1 ha with rfl | ha
    · have hrest : bss.flatten.filter mark = [] := by
        rw [List.filter_eq_nil_iff]
        intro b hb
        obtain ⟨bs', hbs', hb⟩ := List.mem_flatten.1 hb
        obtain ⟨a', ha', hR'⟩ := forall₂_exists_right H hbs'
        have hne : a' ≠ a := by
          rintro rfl
          exact hnot ha'
        simp [hothers a' ha' hne bs' hR' b hb]
      rw [hrest, List.append_nil, List.filter_eq_self.2 (hself bs hR)]
      exact ⟨bs, hR, rfl⟩
    · have hne : a' ≠ a := by
        rintro rfl
        exact hnot ha
      have hnone : bs.filter mark = [] := by
        rw [List.filter_eq_nil_iff]
        intro b hb
        simp [hother' hne bs hR b hb]
      rw [hnone, List.nil_append]
      exact ih hn ha hothers

namespace Draft

open Catalogue

variable {c : Catalogue} {f : Format} {s : PlanSet} {declared : Option Handle} {t : Handle}
  {o : ObjectType} {plan : TypePlan} {fields : List (String × Value)} {p q : Property}
  {ps : List (String × Placement × Draft)} {pss : List (List (String × Placement × Draft))}

/-- **What is written of a property** of an object. -/
inductive Part (c : Catalogue) (f : Format) (s : PlanSet) (t : Handle) (plan : TypePlan)
    (fields : List (String × Value)) (p : Property) : List (String × Placement × Draft) → Prop where
  | word {w : String} (plain : p.carrier = false) (distinguishes : c.Distinguishes t p)
    (word : c.word? t = some w) : Part c f s t plan fields p [(wireName f p, placementIn f p, text w)]
  | absent (plain : p.carrier = false) (ordinary : ¬ c.Distinguishes t p)
    (absent : Table.find? fields p.name = none) (optional : p.required = false) :
    Part c f s t plan fields p []
  | value {shape : Shape} {v : Value} {d : Draft} (plain : p.carrier = false)
    (ordinary : ¬ c.Distinguishes t p) (found : Table.find? fields p.name = some v)
    (forms : c.Forms (layoutIn f p) p.type shape) (fault : layoutFault? f p shape = none)
    (draft : ofValue? s shape p.nullable v = some d) :
    Part c f s t plan fields p [(wireName f p, placementIn f p, d)]
  | uncaptured (carrier : p.carrier = true)
    (found : Table.find? fields p.name = none ∨ Table.find? fields p.name = some .null) :
    Part c f s t plan fields p []
  | captured {r : Reference} {n : Bool} {shape : Shape} {es : List (String × Value)}
    {ps : List (String × Placement × Draft)} (carrier : p.carrier = true)
    (type : p.type = .collection .mapping r n) (forms : c.Forms .standard r shape)
    (found : Table.find? fields p.name = some (.map es))
    (drafts : List.Forall₂ (fun e x => x.1 = e.1 ∧ x.2.1 = .element ∧
      ofValue? s shape n e.2 = some x.2.2) (kept plan es) ps) : Part c f s t plan fields p ps

/-- **The draft of an object** is made of the parts of its properties. -/
structure Written (c : Catalogue) (f : Format) (s : PlanSet) (t : Handle)
    (fields : List (String × Value)) (o : ObjectType) (plan : TypePlan)
    (pss : List (List (String × Placement × Draft))) : Prop where
  type : c.object? t = some o
  planned : s.type? t = some plan
  plans : c.Plans f t o plan
  concrete : o.isAbstract = false
  parts : List.Forall₂ (Part c f s t plan fields) (emissionOrder f (c.plannedProperties t)) pss

theorem part_of_ofStep? (P : c.PlannedBy f s) (ho : c.object? t = some o) {x : Planned}
    (hx : c.Contributes f t o p x) (h : ofStep? s plan fields x.step = some ps) :
    Part c f s t plan fields p ps := by
  cases hx with
  | @field shape hc hshape hfault =>
    rcases P.emissionOf_eq ho p shape with ⟨hd, he⟩ | ⟨hd, he⟩
    · rw [@Encode.ofStep?_discriminator s _ _ _ (c.word? t) he] at h
      obtain ⟨w, hw, rfl⟩ := Option.map_eq_some_iff.1 h
      exact .word hc hd hw
    · have hordinary : ¬ c.Distinguishes t p := by
        rintro ⟨r, g, hr⟩
        exact hd r g hr
      rw [@Encode.ofStep?_value s shape _ _ _ he] at h
      dsimp only [Planned.step, fieldStep] at h
      rcases hf : Table.find? fields p.name with _ | v
      · cases hr : p.required with
        | true => simp [hf, hr] at h
        | false =>
          obtain rfl : [] = ps := by simpa [hf, hr] using h
          exact .absent hc hordinary hf hr
      · rw [hf] at h
        obtain ⟨d, hd, rfl⟩ := Option.map_eq_some_iff.1 h
        exact .value hc hordinary hf hshape hfault hd
  | @carrier r shape n hc ht hs =>
    rw [@Encode.ofStep?_entries s shape _ _ _ n rfl] at h
    dsimp only [Planned.step, carrierStep] at h
    rcases hf : Table.find? fields p.name with _ | v
    · obtain rfl : [] = ps := by simpa [hf] using h
      exact .uncaptured hc (.inl hf)
    · cases v
      case null =>
        obtain rfl : [] = ps := by simpa [hf] using h
        exact .uncaptured hc (.inr hf)
      case map es =>
        rw [hf] at h
        exact .captured hc ht hs hf (ofExtras?_eq_some_iff.1 h)
      all_goals simp [hf] at h

/-- **An object that has a draft** is written along the plan of its type. -/
theorem written_of_ofObject? (P : c.PlannedBy f s) {d : Draft}
    (h : ofObject? s declared t fields = some d) :
    ∃ o plan pss, Written c f s t fields o plan pss ∧ d = .object pss.flatten ∧
      ∀ k, declared = some k → c.Inherits t k := by
  simp only [ofObject?, Option.bind_eq_bind, Option.bind_eq_some_iff, Option.pure_def,
    Option.some.injEq, Outcome.mapM_eq_some_iff] at h
  obtain ⟨plan, hplan, pss, hpss, rfl⟩ := h
  obtain ⟨htype, hsub, habs⟩ := plan?_eq_some_iff.1 hplan
  obtain ⟨o, ho, hplans⟩ := P.plans htype
  refine ⟨o, plan, pss, ⟨ho, htype, hplans, by rw [← hplans.isAbstract, habs], ?_⟩, rfl,
    fun k hk => (P.isSubtype_iff ho).1 (hsub k hk)⟩
  obtain ⟨xs, H, hsteps⟩ := hplans.steps
  have hperm := steps_perm H
  rw [← hsteps] at hperm
  refine Outcome.forall₂_trans (fun p st ps hx hps => ?_) hperm hpss
  obtain ⟨x, hx, rfl⟩ := hx
  exact part_of_ofStep? P ho hx hps

/-- A property that is no carrier is written under its own name, and a carrier under others. -/
theorem Part.name (h : Part c f s t plan fields p ps) :
    ∀ x ∈ ps, if p.carrier then Table.contains plan.read.actions x.1 = false else x.1 = wireName f p := by
  cases h with
  | word plain | value plain =>
    simp [plain]
  | absent | uncaptured => simp
  | captured carrier _ _ _ drafts =>
    intro x hx
    obtain ⟨e, he, hxe, -⟩ := Outcome.forall₂_exists_right drafts hx
    rw [if_pos carrier, hxe]
    simpa [kept] using (List.mem_filter.1 he).2

theorem Written.nodup (W : c.WellFormed) (h : Written c f s t fields o plan pss) :
    ((emissionOrder f (c.plannedProperties t)).map Property.name).Nodup := by
  refine (List.Perm.nodup_iff ?_).2 (W.nodup_plannedProperties h.type)
  refine List.Perm.map _ ?_
  cases f with
  | json => exact .refl _
  | xml => exact List.filter_append_perm _ _

/-- **Under the name of a property** that is no carrier stands its own part only. -/
theorem Written.exists_filter_eq (W : c.WellFormed) (h : Written c f s t fields o plan pss)
    (hp : p ∈ c.plannedProperties t) (hc : p.carrier = false) :
    ∃ ps, Part c f s t plan fields p ps ∧
      pss.flatten.filter (fun x => x.1 = wireName f p) = ps := by
  refine Outcome.exists_filter_flatten h.parts (List.Nodup.of_map _ (h.nodup W))
    (mem_emissionOrder.2 hp) (fun ps hps x hx => ?_) fun q hq hne ps hps x hx => ?_
  · have hname := hps.name x hx
    rw [if_neg (by simp [hc])] at hname
    simp [hname]
  · have hname := hps.name x hx
    have hq := mem_emissionOrder.1 hq
    rw [decide_eq_false_iff_not]
    intro hx
    cases hqc : q.carrier with
    | false =>
      rw [if_neg (by simp [hqc])] at hname
      exact hne (W.eq_of_wireName h.type hq hqc hp hc (hname.symm.trans hx))
    | true =>
      rw [if_pos hqc, hx, contains_actions_eq_false_iff h.plans] at hname
      exact hname p hp hc rfl

/-- The word of a type in a hierarchy stands under the name of its discriminator. -/
theorem Written.exists_word (P : c.PlannedBy f s) (h : Written c f s t fields o plan pss) {r : Handle}
    (g : c.Governs r t) : ∃ p w, p ∈ c.plannedProperties t ∧ c.Names r p.name ∧ c.word? t = some w ∧
      pss.flatten.filter (fun x => x.1 = wireName f p) = [(wireName f p, placementIn f p, text w)] := by
  obtain ⟨d, hd⟩ := g.2.1
  obtain ⟨p, hp, rfl, hc, -⟩ := P.exists_discriminator g hd
  obtain ⟨ps, hpart, hfilter⟩ := h.exists_filter_eq P.wellFormed hp hc
  cases hpart with
  | word _ _ hw => exact ⟨p, _, hp, hd, hw, hfilter⟩
  | absent _ ordinary | value _ ordinary => exact absurd ⟨r, g, hd⟩ ordinary
  | uncaptured carrier | captured carrier => simp [hc] at carrier

end Draft

namespace Catalogue

variable {c : Catalogue} {f : Format} {s : PlanSet} {declared t : Handle}

/-- **As what an object is read** of type `t` where `declared` is expected: as what it is if the
declared type is in a hierarchy, and else as one of the declared type. -/
inductive Recognised (c : Catalogue) (declared t : Handle) : Handle → Prop where
  | selected {r : Handle} : c.Governs r declared → Recognised c declared t t
  | declared : (∀ r, ¬ c.Governs r declared) → Recognised c declared t declared

/-- A type inherits from what its objects are read as, and that from what is declared. -/
theorem Recognised.inherits {u : Handle} (h : c.Recognised declared t u) (hi : c.Inherits t declared) :
    c.Inherits t u ∧ c.Inherits u declared := by
  cases h with
  | selected => exact ⟨.refl t, hi⟩
  | declared => exact ⟨hi, .refl declared⟩

/-- Every object is read as something. -/
theorem exists_recognised (c : Catalogue) (declared t : Handle) : ∃ u, c.Recognised declared t u := by
  by_cases g : ∃ r, c.Governs r declared
  · obtain ⟨r, g⟩ := g
    exact ⟨t, .selected g⟩
  · exact ⟨declared, .declared fun r hr => g ⟨r, hr⟩⟩

end Catalogue

namespace Tree

open Draft

variable {τ : Type} [Tree τ] {c : Catalogue} {f : Format} {s : PlanSet} {declared t : Handle}
  {o : ObjectType} {plan : TypePlan} {fields : List (String × Value)}
  {pss : List (List (String × Placement × Draft))} {node : τ}

/-- The tree of an object shows a text that stands alone under its name. -/
def ShowsTexts (node : τ) (parts : List (String × Placement × Draft)) : Prop :=
  ∀ key placement w, parts.filter (fun x => x.1 = key) = [(key, placement, text w)] →
    Tree.text? node key placement = .ok (some w)

/-- **The concrete type of a written object is found**, wherever it is expected. -/
theorem exists_concretePlan (P : c.PlannedBy f s) (h : Written c f s t fields o plan pss)
    (hi : c.Inherits t declared) (htext : ShowsTexts node pss.flatten) {u : Handle}
    (hu : c.Recognised declared t u) :
    ∃ dplan uo uplan, s.type? declared = some dplan ∧ c.object? u = some uo ∧
      s.type? u = some uplan ∧ c.Plans f u uo uplan ∧ concretePlan s dplan node = .ok uplan := by
  obtain ⟨od, hod⟩ := Catalogue.object?_of_inherits P.wellFormed.base h.type hi
  obtain ⟨dplan, hdp, hdplan⟩ := P.exists_plans hod
  cases hu with
  | @selected r gd =>
    have g : c.Governs r t := gd.of_inherits hi
    obtain ⟨p, w, hp, hd, hw, hfilter⟩ := h.exists_word P g
    obtain ⟨disp, hdisp, hvariant, hwire⟩ := P.exists_dispatch gd g hi hw hdplan
    obtain ⟨hw1, hw2⟩ := hwire p hp hd
    refine ⟨dplan, o, plan, hdp, h.type, h.planned, h.plans, ?_⟩
    rw [concretePlan, hdisp]
    dsimp only
    rw [hw1, hw2, htext _ _ _ hfilter]
    refine (Outcome.bind_eq_ok_iff.2 ⟨some w, rfl, ?_⟩)
    dsimp only
    rw [hvariant]
    dsimp only
    rw [Decode.typePlan, h.planned]
  | declared g =>
    refine ⟨dplan, od, dplan, hdp, hod, hdp, hdplan, ?_⟩
    rw [concretePlan, P.discriminator_eq_none g hdplan]

end Tree

end Marshal
