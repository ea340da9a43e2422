import Marshal.Proofs.Wire.Order
import Marshal.Proofs.Wire.Verdict

/-!
# Parts that are bound to nothing

A part of an object whose name is bound to no property in its placement does no more than be captured,
and not even that if the type has no carrier. So the fields of a scan come from the parts that are
bound (`Tree.fields_of_bound`); an object without a carrier is the same with such a part and without
it, and so is the error if it cannot be read (`Tree.object_of_bound_eq`); and an object with a carrier
differs in that one entry of it (`Tree.object_of_captured`).
-/

namespace Marshal

open Decode Outcome Catalogue

/-! ## What is captured -/

/-- What an object holds in its carrier. -/
def Instance.captured (i : Instance) (carrier : String) : List (String × Value) :=
  match Table.find? i.fields carrier with
  | some (.map entries) => entries
  | _ => []

/-- **The object that has captured one value more.** -/
def Instance.capture (i : Instance) (carrier key : String) (v : Value) : Instance :=
  { i with fields := Table.insert i.fields carrier (.map (Table.insert (i.captured carrier) key v)) }

namespace Decode

variable {c : Catalogue} {f : Format} {s : PlanSet} {t : Handle} {plan : TypePlan} {scan : Scan}
  {target : CarrierTarget} {i : Instance} {key : String} {v : Value}

/-- The scan that has captured one value more. -/
def Scan.capture (scan : Scan) (key : String) (v : Value) : Scan :=
  { scan with extra := Table.insert scan.extra key v }

/-- What an object captured stands in its carrier. -/
theorem captured_of_make {o : ObjectType} (hplan : c.Plans f t o plan)
    (htarget : plan.read.carrier = some target)
    (hnone : Table.find? scan.fields target.property = none) (h : scan.make plan = .ok i) :
    i.captured target.property = scan.extra := by
  obtain ⟨p, hp, hc, _, _, _, -, -, rfl⟩ := (hplan.carrier target).1 htarget
  rw [Instance.captured, eq_map_of_make hplan h hp hc hnone]
  by_cases he : scan.extra = []
  · rw [if_pos he, he]
  · rw [if_neg he]

/-- What is gathered with one value more differs in the carrier. -/
theorem gathered_capture (htarget : plan.read.carrier = some target) :
    (scan.capture key v).gathered plan =
      Table.insert scan.fields target.property (.map (Table.insert scan.extra key v)) := by
  rw [Scan.gathered, htarget]
  exact if_neg (mt List.isEmpty_iff.1 (Table.insert_ne_nil _ _ _))

theorem find?_gathered_of_ne (htarget : plan.read.carrier = some target) {name : String}
    (hn : name ≠ target.property) :
    Table.find? (scan.gathered plan) name = Table.find? scan.fields name := by
  rw [Scan.gathered, htarget]
  dsimp only
  split
  · rfl
  · rw [Table.find?_insert, if_neg hn]

theorem find?_gathered_capture (htarget : plan.read.carrier = some target) {name : String}
    (hn : name ≠ target.property) :
    Table.find? ((scan.capture key v).gathered plan) name = Table.find? (scan.gathered plan) name := by
  rw [find?_gathered_of_ne htarget hn, find?_gathered_of_ne htarget hn]
  rfl

/-- **Nothing else is missing** with one captured value more: no carrier is required. -/
theorem missing_capture (P : c.PlannedBy f s) (ht : s.type? t = some plan)
    (htarget : plan.read.carrier = some target) :
    plan.read.required.find? (fun r =>
      !Table.contains ((scan.capture key v).gathered plan) r.property) =
        plan.read.required.find? fun r => !Table.contains (scan.gathered plan) r.property := by
  obtain ⟨o, ho, hplans⟩ := P.plans ht
  obtain ⟨p, hp, hc, _, _, _, -, -, he⟩ := (hplans.carrier target).1 htarget
  have hrequired : ∀ r ∈ plan.read.required,
      (!Table.contains ((scan.capture key v).gathered plan) r.property) =
        !Table.contains (scan.gathered plan) r.property := by
    intro r hr
    rw [P.required_eq ht] at hr
    obtain ⟨q, hq, rfl⟩ := List.mem_map.1 hr
    obtain ⟨hq, hqc⟩ := List.mem_filter.1 hq
    have hqc : q.carrier = false := by simpa using (Bool.and_eq_true_iff.1 hqc).2
    rw [Table.contains, Table.contains, find?_gathered_capture htarget]
    intro hqn
    rw [he] at hqn
    rw [P.wellFormed.eq_of_name ho (mem_plannedProperties.2 ⟨hq, .inl hqc⟩) hp hqn, hc] at hqc
    cases hqc
  rw [← List.head?_filter, List.filter_congr hrequired, List.head?_filter]

/-- **A scan that has captured one value more makes the object that has**, or fails as it would have
without. -/
theorem make_capture (P : c.PlannedBy f s) (ht : s.type? t = some plan)
    (htarget : plan.read.carrier = some target)
    (hnone : Table.find? scan.fields target.property = none) :
    (scan.capture key v).make plan =
      (scan.make plan).map fun i => i.capture target.property key v := by
  obtain ⟨o, ho, hplans⟩ := P.plans ht
  rw [Scan.make, missing_capture P ht htarget]
  rcases hi : scan.make plan with e | i
  · rw [Scan.make] at hi
    split at hi
    · exact hi
    · cases hi
  · have hcaptured := captured_of_make hplans htarget hnone hi
    rw [Scan.make] at hi
    split at hi
    · cases hi
    · cases hi
      refine congrArg Except.ok (congrArg (Instance.mk plan.type) ?_)
      refine Table.ext (Table.ascending_ofList _) (Table.ascending_insert (Table.ascending_ofList _) _ _)
        fun name => ?_
      rw [hcaptured, Table.find?_insert, Table.find?_ofList_filterMap hplans.nodup_order,
        Table.find?_ofList_filterMap hplans.nodup_order]
      by_cases hn : name = target.property
      · obtain ⟨p, hp, -, _, _, _, -, -, he⟩ := (hplans.carrier target).1 htarget
        have horder := (hplans.order name).2 ⟨p, hp, by rw [hn, he]⟩
        rw [if_pos horder, if_pos hn, hn, gathered_capture htarget, Table.find?_insert_self]
      · rw [if_neg hn, find?_gathered_capture htarget hn]

end Decode

namespace Tree

variable {τ : Type} {c : Catalogue} {f : Format} {s : PlanSet} {declared : Handle}
  {inner : Inner τ} {dplan plan : TypePlan} {scan scan' : Scan} {target : CarrierTarget}
  {ps qs before after : List (String × Placement × τ)} {x : String × Placement × τ} {key : String}
  {v : Value}

/-! ## Scans -/

/-- The parts that are bound to properties. -/
def bound (plan : TypePlan) (ts : List (String × Placement × τ)) : List (String × Placement × τ) :=
  ts.filter fun x => (boundAction plan x.1 x.2.1).isSome

theorem bound_insert (hx : boundAction plan x.1 x.2.1 = none)
    (before after : List (String × Placement × τ)) :
    bound plan (before ++ x :: after) = bound plan (before ++ after) := by
  rw [bound, bound, List.filter_append, List.filter_cons_of_neg (by simp [hx]), ← List.filter_append]

/-- **The fields of a scan come from the parts that are bound**, whatever is captured. -/
theorem fields_of_bound {ts : List (String × Placement × τ)}
    (h : ts.foldlM (field inner plan) scan = .ok scan') (extra : Table String Value) :
    (bound plan ts).foldlM (field inner plan) ⟨scan.fields, extra⟩ = .ok ⟨scan'.fields, extra⟩ := by
  induction ts generalizing scan with
  | nil =>
    obtain rfl := pure_eq_ok_iff.1 h
    rfl
  | cons x ts ih =>
    obtain ⟨scan₁, hx, hts⟩ := bind_eq_ok_iff.1 h
    have hrest := ih hts
    obtain ⟨a, v, ha, hv, rfl⟩ | ⟨ha, _, _, -, -, rfl⟩ | ⟨ha, -, rfl⟩ := field_eq_ok hx
    · rw [bound, List.filter_cons_of_pos (by rw [ha]; rfl), List.foldlM_cons, field_bound ha]
      refine bind_eq_ok_iff.2 ⟨⟨(scan.assign a v).fields, extra⟩, ?_, hrest⟩
      exact bind_eq_ok_iff.2 ⟨v, hv, rfl⟩
    · rw [bound, List.filter_cons_of_neg (by rw [ha]; simp)]
      exact hrest
    · rw [bound, List.filter_cons_of_neg (by rw [ha]; simp)]
      exact hrest

/-- **Where there is no carrier a scan passes** the parts that are bound to nothing. -/
theorem fields_bound (hnone : plan.read.carrier = none) (ps : List (String × Placement × τ))
    (scan : Scan) :
    (bound plan ps).foldlM (field inner plan) scan = ps.foldlM (field inner plan) scan := by
  induction ps generalizing scan with
  | nil => rfl
  | cons x ps ih =>
    rcases hx : boundAction plan x.1 x.2.1 with _ | a
    · rw [bound, List.filter_cons_of_neg (by simp [hx]), List.foldlM_cons, field_skipped hx hnone]
      exact ih scan
    · rw [bound, List.filter_cons_of_pos (by simp [hx]), List.foldlM_cons, List.foldlM_cons]
      exact bind_congr fun scan => ih scan

/-- What has been captured under another key, or beside what is bound, stays as a part is scanned. -/
theorem field_capture (hx : x.1 = key → (boundAction plan x.1 x.2.1).isSome = true) (scan : Scan) :
    field inner plan (scan.capture key v) x =
      (field inner plan scan x).map fun scan => scan.capture key v := by
  rw [field, field]
  rcases hb : boundAction plan x.1 x.2.1 with _ | a
  · rcases plan.read.carrier with _ | target
    · rfl
    · have hne : key ≠ x.1 := by
        rintro rfl
        simp [hb] at hx
      dsimp only
      rcases inner target.value target.nullable x.1 x.2.2 with e | w
      · rfl
      · exact congrArg (fun extra => Except.ok (Scan.mk scan.fields extra))
          (Table.insert_comm scan.extra hne v w)
  · dsimp only
    rcases inner a.shape a.nullable x.1 x.2.2 with e | w <;> rfl

theorem fields_capture (hps : ∀ x ∈ ps, x.1 = key → (boundAction plan x.1 x.2.1).isSome = true)
    (scan : Scan) :
    ps.foldlM (field inner plan) (scan.capture key v) =
      (ps.foldlM (field inner plan) scan).map fun scan => scan.capture key v := by
  induction ps generalizing scan with
  | nil => rfl
  | cons x ps ih =>
    obtain ⟨hx, hps⟩ := List.forall_mem_cons.1 hps
    rw [List.foldlM_cons, List.foldlM_cons, field_capture hx]
    rcases field inner plan scan x with e | scan₁
    · rfl
    · exact ih hps scan₁

/-- **One part more that is captured** adds its entry to the scan, wherever it stands. -/
theorem fields_of_captured (htarget : plan.read.carrier = some target)
    (hx : boundAction plan x.1 x.2.1 = none)
    (hv : inner target.value target.nullable x.1 x.2.2 = .ok v)
    (hafter : ∀ y ∈ after, y.1 = x.1 → (boundAction plan y.1 y.2.1).isSome = true) (scan : Scan) :
    (before ++ x :: after).foldlM (field inner plan) scan =
      ((before ++ after).foldlM (field inner plan) scan).map fun scan => scan.capture x.1 v := by
  have hfield : ∀ scan, field inner plan scan x = .ok (scan.capture x.1 v) := by
    intro scan
    rw [field_captured hx htarget, hv]
    rfl
  rw [List.foldlM_append, List.foldlM_append]
  rcases before.foldlM (field inner plan) scan with e | scan₁
  · rfl
  · show (x :: after).foldlM (field inner plan) scan₁ = (after.foldlM (field inner plan) scan₁).map _
    rw [List.foldlM_cons, hfield]
    exact fields_capture hafter scan₁

/-! ## Objects -/

variable [Tree τ] {node node' : τ}

/-- The word of a discriminator is never found in a part that is bound to nothing, so the concrete
type is the same without it. -/
theorem concretePlan_of_unbound (P : c.PlannedBy f s) (hd : s.type? declared = some dplan)
    (hplan : concretePlan s dplan node = .ok plan) (hkey : boundAction plan key .element = none)
    (htext : ∀ p : Property, ¬ (wireName f p = key ∧ placementIn f p = .element) →
      Tree.text? node' (wireName f p) (placementIn f p) =
        Tree.text? node (wireName f p) (placementIn f p)) :
    concretePlan s dplan node' = .ok plan := by
  obtain ⟨t, ht, hsel, -⟩ := exists_selected P hd hplan
  obtain ⟨od, hod, hdplans⟩ := P.plans hd
  obtain ⟨o, ho, hplans⟩ := P.plans ht
  rw [concretePlan] at hplan ⊢
  rcases hdisp : dplan.read.discriminator with _ | d
  · rw [hdisp] at hplan
    exact hplan
  · obtain ⟨p, -, hc, -, hwire, hplace, hmem⟩ := P.exists_dispatched hdplans hdisp
    obtain ⟨shape, -, hbound⟩ := boundAction_of_mem hplans (hmem t hsel.inherits) hc
    have hne : ¬ (wireName f p = key ∧ placementIn f p = .element) := by
      rintro ⟨rfl, helem⟩
      rw [helem, hkey] at hbound
      cases hbound
    rw [hdisp] at hplan
    dsimp only at hplan ⊢
    rw [← hwire, ← hplace] at hplan ⊢
    rw [htext p hne]
    exact hplan

/-- **What one part more does** that is bound to nothing, to what comes of an object: nothing if its type
has no carrier. If it has one and no other such part has its name, the object has captured the value of
the part more, where there is an object. -/
def Tolerates (inner : Inner τ) (plan : TypePlan) (ps : List (String × Placement × τ)) (key : String)
    (t : τ) (r r' : Except DecodeError Instance) : Prop :=
  (plan.read.carrier = none → r' = r) ∧
  ∀ target v, plan.read.carrier = some target →
    (∀ x ∈ ps, x.1 = key → (boundAction plan x.1 x.2.1).isSome = true) →
    inner target.value target.nullable key t = .ok v →
    r' = r.map fun i => i.capture target.property key v

/-- **An object without a carrier** is made of the parts that are bound alone, and so is the error of
one that cannot be read. -/
theorem object_of_bound_eq (hd : s.type? declared = some dplan) (hps : Tree.parts node = .ok ps)
    (hqs : Tree.parts node' = .ok qs) (hend : Tree.partsEnd node' = Tree.partsEnd node)
    (hplan : concretePlan s dplan node = .ok plan) (hplan' : concretePlan s dplan node' = .ok plan)
    (hnone : plan.read.carrier = none) (hbound : bound plan qs = bound plan ps) :
    object s inner declared node' = object s inner declared node := by
  rw [object_eq_scan hd hps hplan, object_eq_scan hd hqs hplan', ← fields_bound hnone qs, hbound,
    fields_bound hnone ps, hend]

/-- **An object with one part more that is captured** has captured its value more, and is refused as
it would be without the part. -/
theorem object_of_captured (P : c.PlannedBy f s) (hd : s.type? declared = some dplan)
    (hps : Tree.parts node = .ok (before ++ after))
    (hqs : Tree.parts node' = .ok (before ++ x :: after))
    (hend : Tree.partsEnd node' = Tree.partsEnd node)
    (hplan : concretePlan s dplan node = .ok plan) (hplan' : concretePlan s dplan node' = .ok plan)
    (htarget : plan.read.carrier = some target) (hx : boundAction plan x.1 x.2.1 = none)
    (hv : inner target.value target.nullable x.1 x.2.2 = .ok v)
    (hafter : ∀ y ∈ after, y.1 = x.1 → (boundAction plan y.1 y.2.1).isSome = true) :
    object s inner declared node' =
      (object s inner declared node).map fun i => i.capture target.property x.1 v := by
  obtain ⟨t, ht, -⟩ := exists_selected P hd hplan
  obtain ⟨o, ho, hplans⟩ := P.plans ht
  rw [object_eq_scan hd hps hplan, object_eq_scan hd hqs hplan',
    fields_of_captured htarget hx hv hafter, hend]
  rcases hscan : (before ++ after).foldlM (field inner plan) ⟨[], []⟩ with e | scan
  · rfl
  · have hnone : Table.find? scan.fields target.property = none := by
      obtain ⟨p, hp, hc, _, _, _, -, -, rfl⟩ := (hplans.carrier target).1 htarget
      exact find?_of_fields
        (fun y _ a ha => property_ne_of_carrier P.wellFormed ho hplans hp hc ha) hscan
    show (Tree.partsEnd node >>= fun _ => (scan.capture x.1 v).make plan) =
      (Tree.partsEnd node >>= fun _ => scan.make plan).map _
    rw [make_capture P ht htarget hnone]
    rcases Tree.partsEnd node with e | _ <;> rfl

/-- Where something behind the parts cannot be reached there is no object. -/
theorem object_map_of_fault (hd : s.type? declared = some dplan) (hps : Tree.parts node = .ok ps)
    (hplan : concretePlan s dplan node = .ok plan) {e : DecodeError}
    (hend : Tree.partsEnd node = .error e) (g : Instance → Instance) :
    (object s inner declared node).map g = object s inner declared node := by
  rw [object_eq_scan hd hps hplan, hend]
  rcases ps.foldlM (field inner plan) ⟨[], []⟩ with e' | scan <;> rfl

end Tree

end Marshal
