import Marshal.Proofs.Wire.Scalars
import Marshal.Proofs.Wire.Subtypes

/-!
# Where the fields of an object come from

Whatever a scan has gathered was read of the parts of the object (`scanned_of_fields`), and the type
of the object is one that is told from what was declared (`exists_selected`). A word is read of a text
(`readsAs_of_value`).
-/

namespace Marshal

namespace Tree

open Catalogue Decode

variable {τ : Type} {c : Catalogue} {f : Format} {s : PlanSet} {declared : Handle}
  {plan dplan : TypePlan} {inner : Inner τ} {scan scan' : Scan} {ts all : List (String × Placement × τ)}
  {node : τ}

/-- **What a scan holds comes from parts of the object**: a value of a property from a part that is
bound to the property, or from several if it is the list of a flattened sequence, and a captured value
from a part that is bound to none. -/
structure Scanned (inner : Inner τ) (plan : TypePlan) (ts : List (String × Placement × τ))
    (scan : Scan) : Prop where
  fields : ∀ name v, Table.find? scan.fields name = some v → ∃ x ∈ ts, ∃ a u,
    boundAction plan x.1 x.2.1 = some a ∧ a.property = name ∧
      inner a.shape a.nullable x.1 x.2.2 = .ok u ∧ (a.shape.isFlattened = false → u = v)
  extra : ∀ key v, (key, v) ∈ scan.extra → ∃ x ∈ ts, x.1 = key ∧
    boundAction plan x.1 x.2.1 = none ∧ ∃ target, plan.read.carrier = some target ∧
      inner target.value target.nullable key x.2.2 = .ok v

/-- A step of the scan. -/
theorem Scanned.field (h : Scanned inner plan all scan) {x : String × Placement × τ} (hx : x ∈ all)
    (hs : field inner plan scan x = .ok scan') :
    Scanned inner plan all scan' := by
  obtain ⟨a, v, ha, hv, rfl⟩ | ⟨ha, target, v, htarget, hv, rfl⟩ | ⟨-, -, rfl⟩ := field_eq_ok hs
  · refine ⟨fun name u hu => ?_, h.extra⟩
    by_cases hname : name = a.property
    · refine ⟨x, hx, a, v, ha, hname.symm, hv, fun hflat => ?_⟩
      rw [Scan.assign_of_not_flattened _ hflat, Table.find?_insert, if_pos hname] at hu
      exact Option.some.inj hu
    · exact h.fields name u (scan.find?_assign_of_ne hname v ▸ hu)
  · refine ⟨h.fields, fun key u hu => ?_⟩
    rcases Table.mem_insert hu with he | hu
    · cases he
      exact ⟨x, hx, rfl, ha, target, htarget, hv⟩
    · exact h.extra key u hu
  · exact h

/-- **A scan holds nothing but what was read of the parts.** -/
theorem scanned_of_fields (h : ts.foldlM (field inner plan) ⟨[], []⟩ = .ok scan) : Scanned inner plan ts scan := by
  have hrun : ∀ (us : List (String × Placement × τ)) (scan₀ : Scan), (∀ x ∈ us, x ∈ ts) →
      Scanned inner plan ts scan₀ → us.foldlM (Tree.field inner plan) scan₀ = .ok scan →
        Scanned inner plan ts scan := by
    intro us
    induction us with
    | nil =>
      intro scan₀ _ h₀ h
      obtain rfl := Outcome.pure_eq_ok_iff.1 h
      exact h₀
    | cons x us ih =>
      intro scan₀ hus h₀ h
      obtain ⟨hx, hus⟩ := List.forall_mem_cons.1 hus
      obtain ⟨scan₁, hs, h⟩ := Outcome.bind_eq_ok_iff.1 h
      exact ih scan₁ hus (h₀.field hx hs) h
  exact hrun ts ⟨[], []⟩ (fun _ hx => hx) ⟨by simp [Table.find?_nil], by simp⟩ h

section Object

variable {t : Handle} {o : ObjectType} {i : Instance} {p : Property} {v : Value}

/-- **The value of a property** of an object was read of a part under its name, or is the list of a
flattened sequence. -/
theorem Scanned.exists_field (h : Scanned inner plan ts scan) (W : c.WellFormed)
    (ho : c.object? t = some o) (hplan : c.Plans f t o plan) (hmake : scan.make plan = .ok i)
    (hp : p ∈ c.plannedProperties t) (hc : p.carrier = false)
    (hv : Table.find? i.fields p.name = some v) : ∃ x ∈ ts, ∃ shape u,
      x.1 = wireName f p ∧ x.2.1 = placementIn f p ∧ c.Forms (layoutIn f p) p.type shape ∧
        inner shape p.nullable x.1 x.2.2 = .ok u ∧ (shape.isFlattened = false → u = v) := by
  rw [find?_of_make hplan hmake hp, find?_gathered W ho hplan hp hc] at hv
  obtain ⟨x, hx, a, u, ha, han, hread, hflat⟩ := h.fields _ _ hv
  obtain ⟨hfind, hplace⟩ := Option.filter_eq_some_iff.1 ha
  obtain ⟨q, hq, -, hwire, shape, hshape, -, rfl⟩ := (hplan.actions x.1 a).1 hfind
  obtain rfl := W.eq_of_name ho hq hp han
  exact ⟨x, hx, shape, u, hwire.symm, (of_decide_eq_true hplace).symm, hshape, hread, hflat⟩

/-- **What an object captured** was read of parts that are bound to no property. -/
theorem Scanned.exists_captured (h : Scanned inner plan ts scan) (W : c.WellFormed)
    (ho : c.object? t = some o) (hplan : c.Plans f t o plan) (hmake : scan.make plan = .ok i)
    (hp : p ∈ c.plannedProperties t) (hc : p.carrier = true)
    (hv : Table.find? i.fields p.name = some v) : ∃ es r shape m,
      v = .map es ∧ p.type = .collection .mapping r m ∧ c.Forms .standard r shape ∧
        ∀ key u, (key, u) ∈ es → ∃ x ∈ ts, x.1 = key ∧ boundAction plan x.1 x.2.1 = none ∧
          inner shape m key x.2.2 = .ok u := by
  obtain ⟨r, shape, m, htype, hshape, hcarrier⟩ := hplan.carrier_of_mem hp hc
  have hnone : Table.find? scan.fields p.name = none := by
    refine Option.eq_none_iff_forall_ne_some.2 fun u hu => ?_
    obtain ⟨x, hx, a, _, ha, han, -⟩ := h.fields _ _ hu
    exact property_ne_of_carrier W ho hplan hp hc ha han
  rw [eq_map_of_make hplan hmake hp hc hnone] at hv
  split at hv
  · cases hv
  · refine ⟨scan.extra, r, shape, m, (Option.some.inj hv).symm, htype, hshape, fun key u hu => ?_⟩
    obtain ⟨x, hx, hkey, hnone, target, htarget, hread⟩ := h.extra key u hu
    obtain rfl := Option.some.inj (hcarrier.symm.trans htarget)
    exact ⟨x, hx, hkey, hnone, hread⟩

end Object

variable [Tree τ]

/-- The plan of the concrete type of an object is that of a type that is told from the declared one,
and if it is not the declared plan itself it was selected by the word of the object. -/
theorem exists_selected (P : c.PlannedBy f s) (hd : s.type? declared = some dplan)
    (h : concretePlan s dplan node = .ok plan) : ∃ t, s.type? t = some plan ∧ c.Selects declared t ∧
      ∀ d word, dplan.read.discriminator = some d → Tree.text? node d.wire d.placement = .ok (some word) →
        c.word? t = some word := by
  obtain ⟨o, ho, hplans⟩ := P.plans hd
  unfold concretePlan at h
  split at h
  · rename_i hnone
    cases h
    exact ⟨declared, hd, .inl rfl, fun d word hd => by simp [hnone] at hd⟩
  · rename_i d hdisp
    obtain ⟨found, hfound, h⟩ := Outcome.bind_eq_ok_iff.1 h
    rcases found with _ | word
    · obtain rfl := Outcome.pure_eq_ok_iff.1 h
      refine ⟨declared, hd, .inl rfl, fun d' word hd' htext => ?_⟩
      obtain rfl := Option.some.inj (hdisp.symm.trans hd')
      simp [hfound] at htext
    · dsimp only at h
      split at h
      · cases h
      · rename_i t ht
        have hsel := P.selects_of_dispatchOf (hplans.discriminator.symm.trans hdisp) ht
        obtain ⟨-, hw⟩ := (P.find?_variants hplans hdisp).1 ht
        rw [Decode.typePlan] at h
        split at h
        · rename_i hplan
          cases h
          refine ⟨t, hplan, hsel, fun d' word' hd' htext => ?_⟩
          obtain rfl := Option.some.inj (hdisp.symm.trans hd')
          obtain rfl := Option.some.inj (Except.ok.inj (hfound.symm.trans htext))
          exact hw
        · cases h

/-- A value is read by its shape, a null where it is allowed apart. -/
theorem shaped_of_nullable {inner : Option (Inner τ)} {shape : Shape} {allowed : Bool} {name : String}
    {v : Value} (h : nullable s inner shape allowed name node = .ok v) :
    shaped s inner shape name node = .ok v ∨ allowed = true ∧ v = .null := by
  rw [nullable] at h
  split at h
  · split at h
    · rename_i hallowed
      cases h
      exact .inr ⟨hallowed, rfl⟩
    · cases h
  · exact .inl h

/-- A value that may not be null is read by its shape. -/
theorem exists_shaped {room : Nat} {shape : Shape} {name : String} {v : Value}
    (h : value s room shape false name node = .ok v) :
    ∃ inner, shaped s inner shape name node = .ok v := by
  have hnull : ∀ inner : Option (Inner τ), nullable s inner shape false name node = .ok v →
      shaped s inner shape name node = .ok v := fun _ h =>
    (shaped_of_nullable h).resolve_right (by simp)
  cases room with
  | zero => exact ⟨none, hnull _ h⟩
  | succ room => exact ⟨_, hnull _ h⟩

/-- **A discriminator is read of a text**, as what the text stands for. -/
theorem readsAs_of_value (P : c.PlannedBy f s) {l : Layout} {p : Property} {shape : Shape}
    (hp : c.Discriminates p) (hshape : c.Forms l p.type shape) {room : Nat} {name : String} {v : Value}
    (h : value s room shape p.nullable name node = .ok v) :
    ∃ word, Tree.scalar node = .ok (.text word) ∧ c.ReadsAs p.type word v := by
  obtain ⟨-, hnullable, k, hk, hkind⟩ := hp
  rw [hnullable] at h
  obtain ⟨inner, h⟩ := exists_shaped h
  rw [hk] at hshape ⊢
  rcases hkind with hkind | ⟨e, he⟩
  · obtain rfl := hshape.unique (.primitive hkind)
    obtain ⟨token, htoken, h⟩ := Outcome.bind_eq_ok_iff.1 h
    cases token with
    | text word =>
      cases h
      exact ⟨word, htoken, k, rfl, .inl ⟨hkind, rfl⟩⟩
    | _ => cases h
  · obtain rfl := hshape.unique (.enumeration he)
    have hplan := P.enum?_eq_some_iff.2 ⟨e, he, rfl⟩
    rw [shaped, enumeration, hplan] at h
    obtain ⟨token, htoken, h⟩ := Outcome.bind_eq_ok_iff.1 h
    cases token with
    | text word =>
      obtain ⟨x, hx, rfl⟩ := exists_read?_of_enumValue h
      exact ⟨word, htoken, k, rfl, .inr ⟨e, x, he, hx, rfl⟩⟩
    | _ => cases h

/-- **The discriminator of an object agrees with the type that was selected**, where the text of the
part that it was read of is the one that was found ahead. -/
theorem agrees_of_scanned (P : c.PlannedBy f s) {t : Handle} {o : ObjectType} {i : Instance}
    {room : Nat} (hd : s.type? declared = some dplan) (hsel : c.Selects declared t)
    (ho : c.object? t = some o) (hplan : c.Plans f t o plan)
    (hword : ∀ d word, dplan.read.discriminator = some d →
      Tree.text? node d.wire d.placement = .ok (some word) → c.word? t = some word)
    (h : Scanned (value s room) plan ts scan) (hmake : scan.make plan = .ok i)
    (hrequired : ∀ p ∈ c.plannedProperties t, p.carrier = false → p.required = true →
      ∃ v, Table.find? i.fields p.name = some v)
    (hpeek : ∀ x ∈ ts, ∀ word, Tree.scalar x.2.2 = .ok (.text word) →
      Tree.text? node x.1 x.2.1 = .ok (some word)) : c.Agrees t i.fields := by
  intro r d w g hnames hw p hp hpd
  obtain ⟨q, hq, hqn, hqc, hdis⟩ := P.exists_discriminator g hnames
  obtain rfl := P.wellFormed.eq_of_name ho hp hq (hpd.trans hqn.symm)
  obtain ⟨v, hv⟩ := hrequired p hp hqc hdis.1
  obtain ⟨x, hx, shape, u, hwire, hplace, hshape, hread, hflat⟩ :=
    h.exists_field P.wellFormed ho hplan hmake hp hqc hv
  obtain ⟨k, hk⟩ : ∃ k, p.type = .named k := hdis.2.2.imp fun _ hk => hk.1
  obtain rfl := hflat (hk ▸ hshape).not_flattened_of_named
  obtain ⟨word, hscalar, hreads⟩ := readsAs_of_value P hdis hshape hread
  -- the plan of the declared type looks for the word where the part stands
  have gd : c.Governs r declared := by
    rcases hsel with rfl | ⟨r', gd, gt, -⟩
    · exact g
    · rwa [g.unique gt]
  obtain ⟨od, -, hdplan⟩ := P.plans hd
  obtain ⟨disp, hdisp, -, hat⟩ := P.exists_dispatch gd g hsel.inherits hw hdplan
  obtain ⟨hdwire, hdplace⟩ := hat p hp (hpd ▸ hnames)
  have htext := hpeek x hx word hscalar
  rw [hwire, hplace, ← hdwire, ← hdplace] at htext
  obtain rfl := Option.some.inj (hw.symm.trans (hword disp word hdisp htext))
  exact ⟨u, hpd ▸ hv, hreads⟩

end Tree

end Marshal
