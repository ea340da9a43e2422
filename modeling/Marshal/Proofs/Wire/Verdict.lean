import Marshal.Proofs.Plan.Mirror
import Marshal.Proofs.Wire.Order

/-!
# Which error is reported

An object is made only when every part of it has been read, so of the faults in it the first part
that cannot be read counts, and what is missing is asked for only behind the last part.
`Tree.readPart?` is what is read of one part, apart from all others, `Tree.firstFault?` the first fault
of a list of parts, and `Catalogue.verdict` says what comes of an object whose parts and concrete type
are known: the first fault, or the first property in effect that is required and has no part, or an
object (`Tree.object_verdict`).
-/

namespace Marshal

/-- The error of an outcome that is one. -/
def Outcome.fault? {ε α : Type} : Except ε α → Option ε
  | .ok _ => none
  | .error e => some e

theorem Outcome.fault?_eq_some_iff {ε α : Type} {r : Except ε α} {e : ε} :
    fault? r = some e ↔ r = .error e := by
  cases r <;> simp [fault?]

namespace Tree

open Decode Outcome

variable {τ : Type} {inner : Inner τ} {plan : TypePlan} {scan scan' : Scan}
  {x : String × Placement × τ} {ps : List (String × Placement × τ)}

/-- **What is read of a part**, by itself: the value of the property that it is bound to, or a captured
value; nothing if the part is passed. -/
def readPart? (inner : Inner τ) (plan : TypePlan) (x : String × Placement × τ) :
    Option (Except DecodeError Value) :=
  match boundAction plan x.1 x.2.1 with
  | some a => some (inner a.shape a.nullable x.1 x.2.2)
  | none => plan.read.carrier.map fun c => inner c.value c.nullable x.1 x.2.2

/-- **The first fault** of some parts. -/
def firstFault? (inner : Inner τ) (plan : TypePlan) (ps : List (String × Placement × τ)) :
    Option DecodeError :=
  ps.findSome? fun x => (readPart? inner plan x).bind fault?

/-! ## One part -/

/-- A part is scanned by what is read of it. -/
theorem field_eq_readPart (scan : Scan) : field inner plan scan x =
    match readPart? inner plan x with
    | none => .ok scan
    | some r => r.map fun v =>
      match boundAction plan x.1 x.2.1 with
      | some a => scan.assign a v
      | none => { scan with extra := Table.insert scan.extra x.1 v } := by
  rw [field, readPart?]
  rcases boundAction plan x.1 x.2.1 with _ | a
  · rcases plan.read.carrier with _ | c
    · rfl
    · rfl
  · rfl

/-- A part whose value cannot be read ends the scan. -/
theorem field_eq_error {e : DecodeError} (h : (readPart? inner plan x).bind fault? = some e)
    (scan : Scan) : field inner plan scan x = .error e := by
  rw [field_eq_readPart]
  generalize readPart? inner plan x = r at h
  rcases r with _ | e' | v
  · cases h
  · obtain rfl := Option.some.inj h
    rfl
  · cases h

theorem contains_assign (scan : Scan) (a : Action) (v : Value) (name : String) :
    Table.contains (scan.assign a v).fields name = true ↔
      Table.contains scan.fields name = true ∨ a.property = name := by
  show Table.contains (Table.insert scan.fields a.property _) name = true ↔ _
  rw [Table.contains, Table.find?_insert]
  by_cases hn : name = a.property
  · simp [hn]
  · simp [hn, Ne.symm hn, Table.contains]

/-- A part whose value can be read, or that is passed, is scanned. It fills the property that it is
bound to and no other. -/
theorem exists_field (h : (readPart? inner plan x).bind fault? = none) (scan : Scan) :
    ∃ scan', field inner plan scan x = .ok scan' ∧ ∀ name,
      Table.contains scan'.fields name = true ↔ Table.contains scan.fields name = true ∨
        ∃ a, boundAction plan x.1 x.2.1 = some a ∧ a.property = name := by
  have hbound : readPart? inner plan x = none → boundAction plan x.1 x.2.1 = none := by
    rw [readPart?]
    cases boundAction plan x.1 x.2.1 <;> simp
  rw [field_eq_readPart]
  generalize readPart? inner plan x = r at h hbound
  rcases r with _ | e | v
  · exact ⟨scan, rfl, by simp [hbound rfl]⟩
  · cases h
  · refine ⟨_, rfl, fun name => ?_⟩
    rcases boundAction plan x.1 x.2.1 with _ | a
    · simp
    · simpa using contains_assign scan a v name

/-! ## All parts -/

/-- Where some part is at one fault, and none at another, that fault is the first. -/
theorem firstFault?_eq_some {e : DecodeError}
    (hall : ∀ x ∈ ps, ∀ e', (readPart? inner plan x).bind fault? = some e' → e' = e)
    (hx : ∃ x ∈ ps, (readPart? inner plan x).bind fault? = some e) :
    firstFault? inner plan ps = some e := by
  rcases hfirst : firstFault? inner plan ps with _ | e'
  · obtain ⟨x, hmem, hx⟩ := hx
    have hnone := List.findSome?_eq_none_iff.1 hfirst x hmem
    cases hnone.symm.trans hx
  · obtain ⟨x, hmem, hx⟩ := List.exists_of_findSome?_eq_some hfirst
    rw [hall x hmem e' hx]

/-- **The first fault ends the scan**, whatever stands behind it. -/
theorem fields_eq_error {e : DecodeError} (h : firstFault? inner plan ps = some e) (scan : Scan) :
    ps.foldlM (field inner plan) scan = .error e := by
  induction ps generalizing scan with
  | nil => cases h
  | cons x ps ih =>
    rw [firstFault?, List.findSome?_cons] at h
    rw [List.foldlM_cons]
    rcases hx : (readPart? inner plan x).bind fault? with _ | e'
    · rw [hx] at h
      obtain ⟨scan', hs, -⟩ := exists_field hx scan
      exact bind_eq_error_iff.2 (.inr ⟨scan', hs, ih h scan'⟩)
    · rw [hx] at h
      obtain rfl := Option.some.inj h
      exact bind_eq_error_iff.2 (.inl (field_eq_error hx scan))

/-- **Parts without a fault are all scanned**, and fill the properties that they are bound to. -/
theorem exists_fields (h : firstFault? inner plan ps = none) (scan : Scan) :
    ∃ scan', ps.foldlM (field inner plan) scan = .ok scan' ∧ ∀ name,
      Table.contains scan'.fields name = true ↔ Table.contains scan.fields name = true ∨
        ∃ x ∈ ps, ∃ a, boundAction plan x.1 x.2.1 = some a ∧ a.property = name := by
  induction ps generalizing scan with
  | nil => exact ⟨scan, rfl, by simp⟩
  | cons x ps ih =>
    rw [firstFault?, List.findSome?_cons] at h
    rcases hx : (readPart? inner plan x).bind fault? with _ | e
    · rw [hx] at h
      obtain ⟨scan₁, hs, hname⟩ := exists_field hx scan
      obtain ⟨scan₂, hrest, hnames⟩ := ih h scan₁
      refine ⟨scan₂, bind_eq_ok_iff.2 ⟨scan₁, hs, hrest⟩, fun name => ?_⟩
      rw [hnames, hname, List.exists_mem_cons_iff, or_assoc]
    · rw [hx] at h
      cases h

end Tree

/-! ## What is missing -/

namespace Catalogue

open Decode Outcome

variable {τ : Type} {c : Catalogue} {f : Format} {s : PlanSet} {h : Handle} {plan : TypePlan}

/-- Whether a property stands among some parts: under its name in documents and in its place. -/
def Stands (f : Format) (p : Property) (ps : List (String × Placement × τ)) : Bool :=
  ps.any fun x => decide (x.1 = wireName f p) && decide (x.2.1 = placementIn f p)

/-- **What comes of an object** of a planned type that has these parts: the error of the first part
that cannot be read; else, the first property in effect that is required and missing, as an error; else
an object. -/
def verdict (c : Catalogue) (f : Format) (inner : Tree.Inner τ) (plan : TypePlan)
    (ps : List (String × Placement × τ)) : Except DecodeError Unit :=
  match Tree.firstFault? inner plan ps with
  | some e => .error e
  | none =>
    match (c.effectiveProperties plan.type).find? fun p =>
      p.required && !p.carrier && !Stands f p ps with
    | some p => .error (.missingRequired (c.nameOf plan.type) (wireName f p))
    | none => .ok ()

/-- What a plan requires are the required properties in effect that are no carriers, in their order. -/
theorem PlannedBy.required_eq (P : c.PlannedBy f s) (hplan : s.type? h = some plan) :
    plan.read.required = ((c.effectiveProperties h).filter fun p => p.required && !p.carrier).map
      fun p => ⟨p.name, wireName f p⟩ := by
  obtain ⟨name, o, ps, -, H, rfl⟩ := exists_assemble ((P.type h plan).1 hplan).2
  rw [← List.filter_filter]
  show requiredOf ps = ((Property.plain (c.effectiveProperties h)).filter Property.required).map _
  rw [← plain_plannedProperties]
  exact requiredOf_eq H

/-- **A property that is no carrier is filled** just when a part of the object is bound to it. -/
theorem PlannedBy.stands_iff (P : c.PlannedBy f s) (hplan : s.type? h = some plan) {p : Property}
    (hp : p ∈ c.effectiveProperties h) (hc : p.carrier = false)
    {ps : List (String × Placement × τ)} : Stands f p ps = true ↔
      ∃ x ∈ ps, ∃ a, boundAction plan x.1 x.2.1 = some a ∧ a.property = p.name := by
  obtain ⟨o, ho, hplans⟩ := P.plans hplan
  have hp := mem_plannedProperties.2 ⟨hp, .inl hc⟩
  simp only [Stands, List.any_eq_true, Bool.and_eq_true, decide_eq_true_iff]
  refine exists_congr fun x => and_congr_right fun _ => ?_
  constructor
  · rintro ⟨hname, hplace⟩
    obtain ⟨shape, -, hbound⟩ := boundAction_of_mem hplans hp hc
    exact ⟨_, by rw [hname, hplace, hbound], rfl⟩
  · rintro ⟨a, ha, hname⟩
    obtain ⟨hfind, hplace⟩ := Option.filter_eq_some_iff.1 ha
    obtain ⟨q, hq, -, hwire, shape, -, -, rfl⟩ := (hplans.actions x.1 a).1 hfind
    obtain rfl := P.wellFormed.eq_of_name ho hq hp hname
    exact ⟨hwire.symm, (of_decide_eq_true hplace).symm⟩

/-- A finished scan makes an object, unless a required property is missing. -/
theorem PlannedBy.make_verdict (P : c.PlannedBy f s) (hplan : s.type? h = some plan)
    {ps : List (String × Placement × τ)} {scan : Scan}
    (hscan : ∀ name, Table.contains scan.fields name = true ↔
      ∃ x ∈ ps, ∃ a, boundAction plan x.1 x.2.1 = some a ∧ a.property = name) :
    (scan.make plan).map (fun _ => ()) =
      match (c.effectiveProperties h).find? fun p => p.required && !p.carrier && !Stands f p ps with
      | some p => .error (.missingRequired (c.nameOf h) (wireName f p))
      | none => .ok () := by
  obtain ⟨o, ho, hplans⟩ := P.plans hplan
  have hmissing : ∀ p ∈ (c.effectiveProperties h).filter fun p => p.required && !p.carrier,
      (!Table.contains (scan.gathered plan) p.name) = !Stands f p ps := by
    intro p hp
    obtain ⟨hp, hreq⟩ := List.mem_filter.1 hp
    have hc : p.carrier = false := by simpa using (Bool.and_eq_true_iff.1 hreq).2
    rw [Table.contains, find?_gathered P.wellFormed ho hplans (mem_plannedProperties.2 ⟨hp, .inl hc⟩) hc,
      Bool.not_inj_iff, Bool.eq_iff_iff, P.stands_iff hplan hp hc]
    exact hscan p.name
  have hfirst : plan.read.required.find? (fun r => !Table.contains (scan.gathered plan) r.property) =
      ((c.effectiveProperties h).find? fun p => p.required && !p.carrier && !Stands f p ps).map
        fun p => ⟨p.name, wireName f p⟩ := by
    rw [P.required_eq hplan, List.find?_map, ← List.head?_filter, Function.comp_def,
      List.filter_congr hmissing, List.head?_filter, List.find?_filter]
    simp only [Bool.decide_and, Bool.decide_eq_true]
  rw [Scan.make, hfirst, P.name_eq hplan]
  rcases List.find? _ _ with _ | p <;> rfl

end Catalogue

namespace Tree

open Decode Outcome

variable {τ : Type} [Tree τ] {c : Catalogue} {f : Format} {s : PlanSet} {declared : Handle}
  {dplan plan : TypePlan} {node : τ} {inner : Inner τ} {ps : List (String × Placement × τ)}

/-- **What is missing is reported only when all parts have been read.** -/
theorem object_verdict (P : c.PlannedBy f s) (hd : s.type? declared = some dplan)
    (hps : Tree.parts node = .ok ps) (hend : Tree.partsEnd node = .ok ())
    (hplan : concretePlan s dplan node = .ok plan) :
    (object s inner declared node).map (fun _ => ()) = c.verdict f inner plan ps := by
  obtain ⟨t, ht, -⟩ := exists_selected P hd hplan
  obtain ⟨o, ho, hplans⟩ := P.plans ht
  rw [object_eq_bind hd hps hend hplan, Catalogue.verdict, hplans.type]
  rcases hfault : firstFault? inner plan ps with _ | e
  · obtain ⟨scan, hscan, hnames⟩ := exists_fields hfault ⟨[], []⟩
    rw [hscan]
    exact P.make_verdict ht fun name => by simpa [Table.contains, Table.find?_nil] using hnames name
  · rw [fields_eq_error hfault]
    rfl

end Tree

end Marshal
