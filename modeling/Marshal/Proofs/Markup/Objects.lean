import Marshal.Proofs.Markup.Properties

/-!
# Objects in markup

Whatever is written of a property comes back (`Draft.Part.returns`), and what comes back of all of
them is what one table holds (`exists_gained`), so a scan of the parts of an object makes an object
again (`Draft.Written.exists_object`). With that every value comes back from its nodes (`returns`), by
induction on its size.
-/

namespace Marshal

open Catalogue Markup Draft Decode

variable {c : Catalogue} {s : PlanSet} {room : Nat} {n : Bool} {h t u : Handle} {o uo : ObjectType}
  {plan uplan : TypePlan} {fields : Table String Value} {p : Property}

namespace Catalogue

theorem not_carrier_of_carrier? (hn : c.carrier? u = none) (hp : p ∈ c.plannedProperties u) :
    p.carrier = false := by
  rcases (mem_plannedProperties.1 hp).2 with hc | hc
  · exact hc
  · simp [hn] at hc

theorem ReadsAs.unique {r : Reference} {w : String} {v v' : Value} (hv : c.ReadsAs r w v)
    (hv' : c.ReadsAs r w v') : v = v' := by
  obtain ⟨k, rfl, ⟨hk, rfl⟩ | ⟨e, x, he, hx, rfl⟩⟩ := hv
  · obtain ⟨k', hkk, ⟨-, rfl⟩ | ⟨e, x, he, -⟩⟩ := hv'
    · rfl
    · obtain rfl := Reference.named.inj hkk
      simp [hk] at he
  · obtain ⟨k', hkk, ⟨hk, -⟩ | ⟨e', x', he', hx', rfl⟩⟩ := hv'
    · obtain rfl := Reference.named.inj hkk
      simp [he] at hk
    · obtain rfl := Reference.named.inj hkk
      obtain rfl := Kind.enumeration.inj (Option.some.inj (he.symm.trans he'))
      rw [Option.some.inj (hx.symm.trans hx')]

theorem ReadsAs.nesting_eq_zero {r : Reference} {w : String} {v : Value} (hv : c.ReadsAs r w v) :
    c.nesting false v = 0 := by
  obtain ⟨k, -, ⟨-, rfl⟩ | ⟨e, x, -, -, rfl⟩⟩ := hv <;> rfl

/-- What an object is read as is its type, or there is nothing in it that would take what the type
read does not have. -/
theorem Retrievable.slot_of_recognised (R : c.Retrievable h t fields) (hu : c.Recognised h t u) :
    u = t ∨ c.carrier? u = none := by
  cases hu with
  | selected => exact .inl rfl
  | declared g =>
    rcases R.slot with rfl | ⟨r, gr⟩ | hn
    · exact .inl rfl
    · exact absurd gr (g r)
    · exact .inr hn

theorem Legible.eq_of_recognised (T : c.Legible n (.named h) (.object t fields)) (hu : c.Recognised h t u) :
    u = t := by
  cases hu with
  | selected => rfl
  | declared g =>
    rcases T.canonical.selects with rfl | ⟨r, gr, -⟩
    · rfl
    · exact absurd gr (g r)

end Catalogue

/-! ## What is written of a property -/

/-- The names of what is read of a part are those it was written under. -/
theorem Markup.Node.name_of_ofPart {x : String × Placement × Draft} (hk : ':' ∉ x.1.toList) :
    ∀ y ∈ Node.ofPart x, y.1 = x.1 := by
  intro y hy
  rcases List.mem_append.1 hy with hy | hy
  · obtain ⟨a, ha, rfl⟩ := List.mem_map.1 hy
    exact name_of_attributeOf? (Option.mem_toList.1 ha)
  · obtain ⟨e, he, rfl⟩ := List.mem_map.1 hy
    show localName e.1 = x.1
    rw [name_of_elementsAt he, localName_eq_self hk]

theorem Markup.Node.placement_of_ofPart {x : String × Placement × Draft} :
    ∀ y ∈ Node.ofPart x, y.2.1 = x.2.1 := by
  obtain ⟨name, placement, d⟩ := x
  intro y hy
  cases placement with
  | element =>
    obtain ⟨e, -, rfl⟩ := List.mem_map.1 hy
    rfl
  | «attribute» =>
    rw [Node.ofPart, elementsAt, Node.ofChildren, List.map_nil, List.append_nil] at hy
    obtain ⟨a, -, rfl⟩ := List.mem_map.1 hy
    rfl

namespace Draft

variable {ps : List (String × Placement × Draft)} {pss : List (List (String × Placement × Draft))}

/-- The value of a property comes back. -/
theorem Part.returns_value (hp : p ∈ c.plannedProperties t) (hu : p ∈ c.plannedProperties u)
    (hc : p.carrier = false) (hd : ¬ c.Distinguishes t p) {shape : Shape} {v : Value} {d : Draft}
    (hfound : Table.find? fields p.name = some v) (hs : c.Forms (layoutIn .xml p) p.type shape)
    (hfault : layoutFault? .xml p shape = none) (hdraft : ofValue? s shape p.nullable v = some d)
    (hb : boundAction uplan (wireName .xml p) (placementIn .xml p) = some (fieldAction .xml p shape))
    (hk : ':' ∉ (wireName .xml p).toList) (H : ∀ v, sizeOf v < sizeOf (Value.object t fields) → Returns c s v) :
    PartReturns c s room n h t u uplan fields p
      (Node.ofPart (wireName .xml p, placementIn .xml p, d)) := by
  cases hn : d.isNull with
  | true =>
    obtain rfl := (isNull_of_ofValue? hdraft).1 hn
    obtain rfl : d = .null := by cases d <;> first | rfl | cases hn
    rw [Node.ofPart_null]
    refine partReturns_nil (fun R _ => Bool.eq_false_iff.2 fun hr => ?_) fun T => ?_
    · exact (R.objects h t fields .refl).required p hp hc hr hd hfound
    · exact absurd (Table.mem_of_find? hfound) ((T.objects h t fields .refl).2.present p.name)
  | false =>
    have hattribute : placementIn .xml p = .attribute → shape.isScalar = true := by
      intro ha
      have ha : p.placement = .attribute := ha
      cases hsc : shape.isScalar with
      | true => rfl
      | false => simp [layoutFault?, ha, hsc] at hfault
    cases hf : shape.isFlattened with
    | true =>
      obtain ⟨r, m, element, hl, htype, rfl, hsr⟩ := hs.exists_flattened hf
      have hplace : placementIn .xml p = .element := by
        cases hpl : placementIn .xml p with
        | element => rfl
        | «attribute» => cases hattribute hpl
      cases ofValue?_eq_some_iff.1 hdraft with
      | null => cases hn
      | sequence hds =>
        rw [hplace] at hb ⊢
        rw [Node.ofPart_flattened hk]
        exact partReturns_of_siblings hc hp hu hd hl hb htype hsr hfound (ofItems?_eq_some_iff.1 hds)
          fun w hw => H w ((Value.sizeOf_lt_of_mem_list hw).trans
            (Value.sizeOf_lt_of_mem_fields (Table.mem_of_find? hfound)))
    | false =>
      obtain ⟨node, hnode, hone⟩ := Node.ofPart_of_not_flattened hk (not_flattened_of_shape hf hdraft)
        (fun ha => scalar_of_isScalar (hattribute ha) hdraft) hn
      have hback := H v (Value.sizeOf_lt_of_mem_fields (Table.mem_of_find? hfound)) _ p.type shape p.nullable d hs hf hdraft
        room (wireName .xml p) node hnode
      rw [hone]
      refine partReturns_of_node hc hu hb hf (fun hfit R => ?_) fun T v' hv' hlt => ?_
      · obtain ⟨v', hv', hself⟩ := hback.read (hfit v hfound) (R.field hp hc hd hfound)
        exact ⟨v', hv', fun T => by rw [hself (T.field hp hc hd hfound), hfound]⟩
      · obtain rfl := Option.some.inj (hfound.symm.trans hv')
        exact hback.deep hlt (T.field hp hc hd hfound)

/-- The word of a type comes back as what its discriminator holds. -/
theorem Part.returns_word (P : c.PlannedBy .xml s) (hp : p ∈ c.plannedProperties t)
    (hu : p ∈ c.plannedProperties u) (hc : p.carrier = false) (hd : c.Distinguishes t p) {w : String}
    (hw : c.word? t = some w) {shape : Shape} (hs : c.Forms (layoutIn .xml p) p.type shape)
    (hb : boundAction uplan (wireName .xml p) (placementIn .xml p) = some (fieldAction .xml p shape))
    (hk : ':' ∉ (wireName .xml p).toList) :
    PartReturns c s room n h t u uplan fields p
      (Node.ofPart (wireName .xml p, placementIn .xml p, text w)) := by
  obtain ⟨node, hnode, hone⟩ := Node.ofPart_of_not_flattened hk (rfl : (text w).isFlattened = false)
    (fun _ => .inr ⟨_, _, rfl⟩) rfl
  have hheld : c.Legible n (.named h) (.object t fields) → ∃ v,
      Table.find? fields p.name = some v ∧ c.ReadsAs p.type w v := by
    intro T
    obtain ⟨r, g, hr⟩ := hd
    obtain ⟨w', hw', hdis⟩ := T.canonical.word r _ g hr
    obtain rfl := Option.some.inj (hw.symm.trans hw')
    exact hdis p hp rfl
  have hflat : ∀ v, c.ReadsAs p.type w v → shape.isFlattened = false := by
    rintro v ⟨k, hk, -⟩
    rw [hk] at hs
    cases hs <;> rfl
  rw [hone]
  by_cases hsome : ∃ v, c.ReadsAs p.type w v
  · obtain ⟨v, hv⟩ := hsome
    refine partReturns_of_node hc hu hb (hflat v hv) (fun _ _ => ⟨v, ?_, fun T => ?_⟩)
      fun T v' hv' hlt => ?_
    · exact Tree.value_of_readsAs P hs hv hnode.isNull hnode.scalar
    · obtain ⟨v', hfound, hv'⟩ := hheld T
      rw [hv.unique hv', hfound]
    · obtain ⟨v'', hfound, hv''⟩ := hheld T
      obtain rfl := Option.some.inj (hv'.symm.trans hfound)
      rw [hv''.nesting_eq_zero] at hlt
      exact absurd hlt (Nat.not_lt_zero _)
  · have hnot : c.Legible n (.named h) (.object t fields) → False := fun T => by
      obtain ⟨v, -, hv⟩ := hheld T
      exact hsome ⟨v, hv⟩
    exact ⟨fun _ R => absurd ((R.objects h t fields .refl).word p hp hd w hw) hsome,
      fun T => (hnot T).elim, fun T => (hnot T).elim⟩

/-- The parts of a property stand under legible names. -/
theorem Part.unprefixed (hun : c.Unprefixed t fields) (hp : p ∈ c.plannedProperties t)
    (hpart : Part c .xml s t plan fields p ps) : ∀ x ∈ ps, ':' ∉ x.1.toList := by
  intro x hx
  cases hpart with
  | word plain distinguishes =>
    obtain rfl := List.mem_singleton.1 hx
    exact hun.names p hp plain (.inl distinguishes)
  | value plain _ found =>
    obtain rfl := List.mem_singleton.1 hx
    exact hun.names p hp plain (.inr ⟨_, found⟩)
  | absent | uncaptured => cases hx
  | captured carrier _ _ found drafts =>
    obtain ⟨e, he, hxe, -⟩ := Outcome.forall₂_exists_right drafts hx
    rw [hxe]
    exact hun.keys p hp carrier _ found e.1 e.2 (List.mem_filter.1 he).1

/-- What the type that is read does not have is passed: a name of the type that is read is a name of
the type that was written. -/
theorem Part.returns_foreign (W : c.WellFormed) (hw : Written c .xml s t fields o plan pss)
    (hnone : c.carrier? u = none)
    (hsub : ∀ q ∈ c.plannedProperties u, q.carrier = false → q ∈ c.plannedProperties t)
    (huplan : c.Plans .xml u uo uplan) (hforeign : ¬ c.Legible n (.named h) (.object t fields))
    (hun : c.Unprefixed t fields) (hp : p ∈ c.plannedProperties t) (hu : p ∉ c.plannedProperties u)
    (hpart : Part c .xml s t plan fields p ps) :
    PartReturns c s room n h t u uplan fields p (ps.flatMap Node.ofPart) := by
  refine partReturns_of_foreign hu hforeign ?_ fun y hy => ?_
  · refine Option.eq_none_iff_forall_ne_some.2 fun target htarget => ?_
    obtain ⟨q, hq, hqc, -⟩ := (huplan.carrier target).1 htarget
    simp [not_carrier_of_carrier? hnone hq] at hqc
  · obtain ⟨x, hx, hy⟩ := List.mem_flatMap.1 hy
    refine Option.eq_none_iff_forall_ne_some.2 fun a ha => ?_
    obtain ⟨ha, -⟩ := Option.filter_eq_some_iff.1 ha
    obtain ⟨q, hq, hqc, hqn, -⟩ := (huplan.actions _ a).1 ha
    have hname := hpart.name x hx
    rw [Node.name_of_ofPart (hpart.unprefixed hun hp x hx) y hy] at hqn
    cases hc : p.carrier with
    | false =>
      rw [if_neg (by simp [hc])] at hname
      obtain rfl := W.eq_of_wireName hw.type (hsub q hq hqc) hqc hp hc (hqn.trans hname)
      exact hu hq
    | true =>
      rw [if_pos hc, contains_actions_eq_false_iff hw.plans] at hname
      exact hname q (hsub q hq hqc) hqc hqn

/-- **What is written of a property comes back.** -/
theorem Part.returns (P : c.PlannedBy .xml s) (hw : Written c .xml s t fields o plan pss)
    (hi : c.Inherits t h) (hrec : c.Recognised h t u)
    (hutype : s.type? u = some uplan) (huplan : c.Plans .xml u uo uplan)
    (hslot : u = t ∨ c.carrier? u = none) (hun : c.Unprefixed t fields)
    (H : ∀ v, sizeOf v < sizeOf (Value.object t fields) → Returns c s v) (hp : p ∈ c.plannedProperties t)
    (hpart : Part c .xml s t plan fields p ps) :
    PartReturns c s room n h t u uplan fields p (ps.flatMap Node.ofPart) := by
  have W := P.wellFormed
  have hsub : ∀ q ∈ c.plannedProperties u, q.carrier = false → q ∈ c.plannedProperties t :=
    fun q hq hqc => mem_plannedProperties_of_inherits W.acyclic (hrec.inherits hi).1 hq hqc
  by_cases hu : p ∈ c.plannedProperties u
  · cases hc : p.carrier with
    | false =>
      obtain ⟨shape', hs', hb⟩ := boundAction_of_mem huplan hu hc
      cases hpart with
      | word _ distinguishes word =>
        rw [List.flatMap_singleton]
        exact Part.returns_word P hp hu hc distinguishes word hs' hb
          (hun.names p hp hc (.inl distinguishes))
      | absent _ _ absent optional => exact partReturns_nil (fun _ _ => optional) fun _ => absent
      | value _ ordinary found forms fault draft =>
        obtain rfl := forms.unique hs'
        rw [List.flatMap_singleton]
        exact Part.returns_value hp hu hc ordinary found forms fault draft hb
          (hun.names p hp hc (.inr ⟨_, found⟩)) H
      | uncaptured carrier | captured carrier => simp [hc] at carrier
    | true =>
      obtain rfl : u = t := hslot.resolve_right fun hn => by
        simp [not_carrier_of_carrier? hn hu] at hc
      obtain rfl := Option.some.inj (hutype.symm.trans hw.planned)
      cases hpart with
      | word plain | absent plain | value plain => simp [hc] at plain
      | uncaptured _ found =>
        refine partReturns_nil (fun _ hf => by simp [hc] at hf) fun T => ?_
        rcases found with hnone | hnull
        · exact hnone
        · exact absurd (Table.mem_of_find? hnull) ((T.objects h u fields .refl).2.present p.name)
      | captured _ type forms found drafts =>
        exact partReturns_of_captured W huplan hc hp type forms found drafts
          (fun e he => hun.keys p hp hc _ found e.1 e.2 he)
          fun e he => H e.2 ((Value.sizeOf_lt_of_mem_map he).trans
            (Value.sizeOf_lt_of_mem_fields (Table.mem_of_find? found)))
  · have hne : u ≠ t := by
      rintro rfl
      exact hu hp
    exact Part.returns_foreign W hw (hslot.resolve_left hne) hsub huplan
      (fun T => hne (T.eq_of_recognised hrec)) hun hp hu hpart

/-! ## Objects -/

/-- What comes back of every property is held by one table. -/
theorem exists_gained {step : Scan → String × Placement × Node → Except DecodeError Scan}
    {legible : Prop} {qs : List Property} {xss : List (List (String × Placement × Node))}
    (H : List.Forall₂ (fun q xs => ∃ back, Gained c u step legible fields back q xs) qs xss)
    (hn : (qs.map Property.name).Nodup) :
    ∃ back, Table.Ascending back ∧ (∀ k v, (k, v) ∈ back → ∃ q ∈ qs, q.name = k) ∧
      List.Forall₂ (Gained c u step legible fields back) qs xss := by
  induction H with
  | nil => exact ⟨[], Table.ascending_nil, by simp, .nil⟩
  | @cons q xs qs xss hq _ ih =>
    rw [List.map_cons, List.nodup_cons] at hn
    obtain ⟨back, hasc, hkeys, hback⟩ := ih hn.2
    obtain ⟨one, hone⟩ := hq
    have hnone : Table.find? back q.name = none := by
      refine Option.eq_none_iff_forall_ne_some.2 fun v hv => ?_
      obtain ⟨q', hq', he⟩ := hkeys _ v (Table.mem_of_find? hv)
      exact hn.1 (List.mem_map.2 ⟨q', hq', he⟩)
    rcases hv : Table.find? one q.name with _ | v
    · refine ⟨back, hasc, fun k v hm => ?_, .cons (hone.congr (by rw [hv, hnone])) hback⟩
      obtain ⟨q', hq', he⟩ := hkeys k v hm
      exact ⟨q', List.mem_cons_of_mem _ hq', he⟩
    · refine ⟨Table.insert back q.name v, Table.ascending_insert hasc _ _, fun k w hm => ?_,
        .cons (hone.congr ?_) ?_⟩
      · rcases Table.mem_insert hm with he | hm
        · exact ⟨q, List.mem_cons_self, (congrArg Prod.fst he).symm⟩
        · obtain ⟨q', hq', he⟩ := hkeys k w hm
          exact ⟨q', List.mem_cons_of_mem _ hq', he⟩
      · rw [hv, Table.find?_insert_self]
      · refine ((List.forall₂_and_left (p := (· ∈ qs)) _ _).2 ⟨fun _ hq' => hq', hback⟩).imp ?_
        rintro q' xs ⟨hq', hgain⟩
        refine hgain.congr (Table.find?_insert_of_ne _ _ fun he => ?_).symm
        exact hn.1 (List.mem_map.2 ⟨q', hq', he⟩)

/-- A scan of all parts gains what the properties give one after the other. -/
theorem foldlM_gained {step : Scan → String × Placement × Node → Except DecodeError Scan}
    {legible : Prop} {back : Table String Value} {qs : List Property}
    {xss : List (List (String × Placement × Node))}
    (H : List.Forall₂ (Gained c u step legible fields back) qs xss)
    (hn : (qs.map Property.name).Nodup)
    (hone : ∀ p ∈ qs, p.carrier = true → ∀ q ∈ qs, q.carrier = true → p = q) (scan : Scan)
    (hlacks : ∀ q ∈ qs, scan.Lacks q) :
    xss.flatten.foldlM step scan = .ok (qs.foldl (Scan.absorb back) scan) := by
  induction H generalizing scan with
  | nil => rfl
  | @cons q xs qs xss hq _ ih =>
    rw [List.map_cons, List.nodup_cons] at hn
    obtain ⟨hlack, hlacks⟩ := List.forall_mem_cons.1 hlacks
    rw [List.flatten_cons, List.foldlM_append, hq.run scan hlack, List.foldl_cons]
    refine ih hn.2 (fun p hp hpc q hq hqc => hone p (List.mem_cons_of_mem _ hp) hpc q
      (List.mem_cons_of_mem _ hq) hqc) _ fun q' hq' => ?_
    have hne : q'.name ≠ q.name := fun he => hn.1 (List.mem_map.2 ⟨q', hq', he⟩)
    refine (hlacks q' hq').absorb hne fun ⟨hqc', hqc⟩ => hne ?_
    rw [hone q' (List.mem_cons_of_mem _ hq') hqc' q List.mem_cons_self hqc]

/-- What no type property holds does not count. -/
theorem foldl_absorb_filter {back : Table String Value} {P : Property → Bool} {qs : List Property}
    (h : ∀ q ∈ qs, P q = false → Table.find? back q.name = none) (scan : Scan) :
    qs.foldl (Scan.absorb back) scan = (qs.filter P).foldl (Scan.absorb back) scan := by
  induction qs generalizing scan with
  | nil => rfl
  | cons q qs ih =>
    obtain ⟨hq, hqs⟩ := List.forall_mem_cons.1 h
    rw [List.foldl_cons, List.filter_cons]
    cases hP : P q with
    | true => rw [if_pos rfl, List.foldl_cons, ih hqs]
    | false => rw [if_neg Bool.false_ne_true, Scan.absorb_none (hq hP), ih hqs]

/-- **The parts of an object come back** property by property, whichever type it is read as. -/
theorem Written.exists_partReturns (P : c.PlannedBy .xml s) (hw : Written c .xml s t fields o plan pss)
    (hi : c.Inherits t h) (H : ∀ v, sizeOf v < sizeOf (Value.object t fields) → Returns c s v)
    (R : c.Readable (.named h) (.object t fields)) (room : Nat) (n : Bool) (tag : String) :
    ∃ u uo uplan, c.Recognised h t u ∧ c.object? u = some uo ∧ c.Plans .xml u uo uplan ∧
      (∀ q ∈ c.plannedProperties u, q ∈ c.plannedProperties t) ∧
      List.Forall₂ (PartReturns c s room n h t u uplan fields)
        (emissionOrder .xml (c.plannedProperties t)) (pss.map fun ps => ps.flatMap Node.ofPart) ∧
      Tree.object s (Tree.value s room) h (Node.element tag (ofDraft (.object pss.flatten))) =
        ((pss.map fun ps => ps.flatMap Node.ofPart).flatten.foldlM
          (Tree.field (Tree.value s room) uplan) ⟨[], []⟩ >>= fun scan => scan.make uplan) := by
  have W := P.wellFormed
  have hret := R.objects h t fields .refl
  obtain ⟨u, hrec⟩ := c.exists_recognised h t
  have hslot := hret.slot_of_recognised hrec
  have htexts : Tree.ShowsTexts (Node.element tag (ofDraft (.object pss.flatten))) pss.flatten :=
    Node.showsTexts (hw.unprefixed hret.unprefixed)
  obtain ⟨dplan, uo, uplan, hd, huo, hutype, huplan, hconcrete⟩ :=
    Tree.exists_concretePlan P hw hi htexts hrec
  refine ⟨u, uo, uplan, hrec, huo, huplan, fun q hq => ?_, ?_, ?_⟩
  · rcases hslot with rfl | hnone
    · exact hq
    · exact mem_plannedProperties_of_inherits W.acyclic (hrec.inherits hi).1 hq
        (not_carrier_of_carrier? hnone hq)
  · rw [List.forall₂_map_right_iff]
    refine ((List.forall₂_and_left (p := (· ∈ c.plannedProperties t)) _ _).2
      ⟨fun _ hp => mem_emissionOrder.1 hp, hw.parts⟩).imp ?_
    rintro q ps ⟨hq, hpart⟩
    exact hpart.returns P hw hi hrec hutype huplan hslot hret.unprefixed H hq
  · have hparts : pss.flatten.flatMap Node.ofPart =
        (pss.map fun ps => ps.flatMap Node.ofPart).flatten := by
      simp only [List.flatMap_def, List.map_flatten, List.flatten_flatten, List.map_map,
        Function.comp_def]
    rw [Tree.object_eq_bind hd (hw.parts_ofDraft hret.unprefixed tag) rfl hconcrete, hparts]

/-- What comes back of the properties fills an object of the type that is read. -/
theorem filled_of_gained {step : Scan → String × Placement × Node → Except DecodeError Scan}
    {legible : Prop} {back : Table String Value}
    (hsub : ∀ q ∈ c.plannedProperties u, q ∈ c.plannedProperties t) (hasc : Table.Ascending back)
    (hkeys : ∀ k v, (k, v) ∈ back → ∃ q ∈ c.plannedProperties t, q.name = k)
    (hgain : ∀ q ∈ c.plannedProperties t, ∃ xs, Gained c u step legible fields back q xs) :
    c.Filled u back := by
  refine ⟨hasc, fun k v hm => ?_, fun q hq hqc hqr => ?_, fun q hq hqc => ?_⟩
  · obtain ⟨q, hq, rfl⟩ := hkeys k v hm
    refine ⟨q, by_contra fun hnot => ?_, rfl⟩
    obtain ⟨xs, hgain⟩ := hgain q hq
    have hnone := hgain.foreign hnot
    rw [(Table.find?_eq_some_iff hasc).2 hm] at hnone
    cases hnone
  · obtain ⟨xs, hgain⟩ := hgain q (hsub q hq)
    exact hgain.required hq hqc hqr
  · obtain ⟨xs, hgain⟩ := hgain q (hsub q hq)
    exact hgain.carried hqc

/-- Where everything is legible, what comes back is what there was. -/
theorem eq_of_gained {step : Scan → String × Placement × Node → Except DecodeError Scan}
    {legible : Prop} {back : Table String Value} (hback : c.Filled t back) (hf : c.Filled t fields)
    (hgain : ∀ q ∈ c.plannedProperties t, ∃ xs, Gained c u step legible fields back q xs)
    (T : legible) : back = fields := by
  refine Table.ext hback.ascending hf.ascending fun k => ?_
  by_cases hk : ∃ q ∈ c.plannedProperties t, q.name = k
  · obtain ⟨q, hq, rfl⟩ := hk
    obtain ⟨xs, hgain⟩ := hgain q hq
    exact hgain.legible T
  · have hnone : ∀ {fields : Table String Value}, c.Filled t fields → Table.find? fields k = none :=
      fun hf => Option.eq_none_iff_forall_ne_some.2 fun v hv =>
        hk (hf.declared k v (Table.mem_of_find? hv))
    rw [hnone hback, hnone hf]

/-- An object that fits and can be read as something is read, as itself if it is legible. -/
theorem Written.exists_object (P : c.PlannedBy .xml s) (hw : Written c .xml s t fields o plan pss)
    (hi : c.Inherits t h) (H : ∀ v, sizeOf v < sizeOf (Value.object t fields) → Returns c s v)
    (room : Nat) (n : Bool) (tag : String)
    (hle : c.nestingFields (c.carrierName? t) fields ≤ room)
    (R : c.Readable (.named h) (.object t fields)) :
    ∃ i, Tree.object s (Tree.value s room) h (Node.element tag (ofDraft (.object pss.flatten))) = .ok i ∧
      (c.Legible n (.named h) (.object t fields) → i = ⟨t, fields⟩) := by
  have W := P.wellFormed
  have hnames := hw.nodup W
  obtain ⟨u, uo, uplan, hrec, huo, huplan, hsub, hparts, hobject⟩ :=
    hw.exists_partReturns P hi H R room n tag
  have hgained : List.Forall₂ (fun q xs => ∃ back,
      Gained c u (Tree.field (Tree.value s room) uplan) (c.Legible n (.named h) (.object t fields))
        fields back q xs) (emissionOrder .xml (c.plannedProperties t))
      (pss.map fun ps => ps.flatMap Node.ofPart) := by
    refine ((List.forall₂_and_left (p := (· ∈ c.plannedProperties t)) _ _).2
      ⟨fun _ hp => mem_emissionOrder.1 hp, hparts⟩).imp ?_
    rintro q xs ⟨hq, hpart⟩
    exact hpart.read (fun v hv => (W.nesting_le_nestingFields hw.type hq hv).trans hle) R
  obtain ⟨back, hasc, hkeys, hback⟩ := exists_gained hgained hnames
  have hgain : ∀ q ∈ c.plannedProperties t, ∃ xs, Gained c u (Tree.field (Tree.value s room) uplan)
      (c.Legible n (.named h) (.object t fields)) fields back q xs := fun q hq => by
    obtain ⟨xs, -, hgain⟩ := Outcome.forall₂_exists_left hback (mem_emissionOrder.2 hq)
    exact ⟨xs, hgain⟩
  have hfilled : c.Filled u back := filled_of_gained hsub hasc
    (fun k v hm => by simpa only [mem_emissionOrder] using hkeys k v hm) hgain
  have hscan := foldlM_gained hback hnames (fun p hp hpc q hq hqc => W.eq_of_carrier hw.type
    (mem_emissionOrder.1 hp) hpc (mem_emissionOrder.1 hq) hqc) ⟨[], []⟩ fun q _ => by
      rw [Scan.Lacks]
      split <;> rfl
  -- the properties that are read are some of those that are written
  have hread : ∀ q, q ∈ (emissionOrder .xml (c.plannedProperties t)).filter
      (fun q => q ∈ c.plannedProperties u) ↔ q ∈ c.plannedProperties u := by
    intro q
    rw [List.mem_filter, mem_emissionOrder, decide_eq_true_iff]
    exact ⟨And.right, fun hq => ⟨hsub q hq, hq⟩⟩
  refine ⟨⟨u, back⟩, ?_, fun T => ?_⟩
  · rw [hobject, hscan, foldl_absorb_filter (P := fun q => decide (q ∈ c.plannedProperties u))
      fun q hq hnot => ?_]
    · exact make_foldl_absorb W huo huplan hfilled hread
        (hnames.sublist (List.Sublist.map _ List.filter_sublist))
    · obtain ⟨xs, hgain⟩ := hgain q (mem_emissionOrder.1 hq)
      exact hgain.foreign (of_decide_eq_false hnot)
  · obtain rfl := T.eq_of_recognised hrec
    exact congrArg (Instance.mk u) (eq_of_gained hfilled (T.filled W) hgain T)

/-- Reading an object that is legible and does not fit is refused for that. -/
theorem Written.object_tooDeep (P : c.PlannedBy .xml s) (hw : Written c .xml s t fields o plan pss)
    (hi : c.Inherits t h) (H : ∀ v, sizeOf v < sizeOf (Value.object t fields) → Returns c s v)
    (room : Nat) (n : Bool) (tag : String)
    (hlt : room < c.nestingFields (c.carrierName? t) fields)
    (T : c.Legible n (.named h) (.object t fields)) :
    TooDeep
      (Tree.object s (Tree.value s room) h (Node.element tag (ofDraft (.object pss.flatten)))) := by
  have W := P.wellFormed
  obtain ⟨u, uo, uplan, hrec, huo, huplan, hsub, hparts, hobject⟩ :=
    hw.exists_partReturns P hi H T.readable room n tag
  have hlegible := T.filled W
  rw [hobject]
  refine (tooDeep_foldlM (fun x hx scan => ?_) ?_ _).bind _
  · obtain ⟨xs, hxs, hx⟩ := List.mem_flatten.1 hx
    obtain ⟨q, -, hpart⟩ := Outcome.forall₂_exists_right hparts hxs
    exact hpart.sound T x hx scan
  · obtain ⟨k, v, hm, hlt⟩ : ∃ k v, (k, v) ∈ fields ∧
        room < c.nesting (c.carrierName? t == some k) v := by
      by_contra hall
      push Not at hall
      exact absurd (nestingFields_le_iff.2 hall) (Nat.not_le_of_lt hlt)
    obtain ⟨q, hq, rfl⟩ := hlegible.declared k v hm
    rw [W.carrierName?_beq hw.type hq] at hlt
    obtain ⟨xs, hxs, hpart⟩ := Outcome.forall₂_exists_left hparts (mem_emissionOrder.2 hq)
    obtain ⟨x, hx, hdeep⟩ := hpart.deep T v ((Table.find?_eq_some_iff hlegible.ascending).2 hm) hlt
    exact ⟨x, List.mem_flatten.2 ⟨xs, hxs, hx⟩, hdeep⟩

end Draft

/-! ## Values -/

theorem ComesBack.object {pss : List (List (String × Placement × Draft))} {name : String} {node : Node}
    (P : c.PlannedBy .xml s) (hw : Written c .xml s t fields o plan pss) (hi : c.Inherits t h)
    (H : ∀ v, sizeOf v < sizeOf (Value.object t fields) → Returns c s v)
    (hnode : Presents node (.object pss.flatten)) :
    ComesBack c room n (.named h) (.object t fields)
      (Tree.value s room (.object h) n name node) := by
  obtain ⟨tag, rfl⟩ := hnode.exists_element rfl (by simp)
  have hnesting : c.nesting false (.object t fields) =
      c.nestingFields (c.carrierName? t) fields + 1 := by
    rw [nesting]
  rcases room with _ | room
  · refine ⟨fun hle => absurd hle (by omega), fun _ _ => ?_⟩
    rw [Tree.value_of_not_null rfl]
    exact ⟨name, rfl⟩
  · have hvalue : Tree.value s (room + 1) (.object h) n name
        (Node.element tag (ofDraft (.object pss.flatten))) =
          (Tree.object s (Tree.value s room) h (Node.element tag (ofDraft (.object pss.flatten))) >>=
            fun i => pure i.toValue) := by
      rw [Tree.value_of_not_null rfl]
      rfl
    rw [hvalue]
    refine ⟨fun hle R => ?_, fun hlt T => (hw.object_tooDeep P hi H room n tag (by omega) T).bind _⟩
    obtain ⟨i, hi, hself⟩ := hw.exists_object P hi H room n tag (by omega) R
    exact ⟨i.toValue, by rw [hi]; rfl, fun T => by rw [hself T]; rfl⟩

/-- **Every value comes back** from the nodes that present its draft. -/
theorem returns (P : c.PlannedBy .xml s) (v : Value) : Returns c s v := by
  induction hn : sizeOf v using Nat.strongRecOn generalizing v with
  | ind size ih =>
    subst hn
    intro l r shape n d hs hflat hd room name node hnode
    cases ofValue?_eq_some_iff.1 hd with
    | null hn =>
      subst hn
      exact .null hnode r shape
    | primitive _ hd =>
      cases hs with
      | primitive => exact .primitive hd hnode
    | enumeration hw =>
      cases hs with
      | enumeration he => exact .enumeration P he hw hnode
    | @object h t _ fields _ hd =>
      cases hs with
      | object =>
        obtain ⟨o, plan, pss, hw, rfl, hi⟩ := written_of_ofObject? P hd
        exact .object P hw (hi h rfl) (fun w hw => ih _ hw w rfl) hnode
    | sequence =>
      cases hs with
      | sequence hs =>
        cases l with
        | flattened => cases hflat
        | wrapped item =>
          exact .list hs (fun w hw => ih _ (Value.sizeOf_lt_of_mem_list hw) w rfl) hd hnode
    | mapping =>
      cases hs with
      | mapping hs =>
        exact .map hs (fun k w hw => ih _ (Value.sizeOf_lt_of_mem_map hw) w rfl) hd hnode

end Marshal
