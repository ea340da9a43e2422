import Marshal.Proofs.Catalogue.Walk
import Marshal.Proofs.Plan.Dispatch

/-!
# Plan sets are closed

The encoder and the decoder look at the plans alone. Every handle they can come to in a plan, in a
shape at any depth, among the ancestors or among the variants, has a plan of its own in the set, and
of the kind that is asked for (`closed_of_planAll`).
-/

namespace Marshal

namespace PlanSet

/-- The types of a shape are planned, each as what the shape takes it for. -/
def Covers (s : PlanSet) : Shape → Prop
  | .primitive _ => True
  | .enumeration h => ∃ p, s.enum? h = some p
  | .object h => ∃ p, s.type? h = some p
  | .sequence element _ _ => s.Covers element
  | .mapping value _ => s.Covers value

/-- The types of an emission are planned. -/
def CoversEmission (s : PlanSet) : Emission → Prop
  | .value shape => s.Covers shape
  | .discriminator _ => True
  | .entries value _ => s.Covers value

/-- **The types that a plan mentions are planned**, its own by the plan itself. -/
structure CoversPlan (s : PlanSet) (p : TypePlan) : Prop where
  self : s.type? p.type = some p
  steps : ∀ st ∈ p.write.steps, s.CoversEmission st.emission
  actions : ∀ e ∈ p.read.actions, s.Covers e.2.shape
  carrier : ∀ t, p.read.carrier = some t → s.Covers t.value
  lineage : ∀ h ∈ p.lineage, ∃ q, s.type? h = some q
  variants : ∀ d, p.read.discriminator = some d → ∀ e ∈ d.variants, ∃ q, s.type? e.2 = some q

/-- **A plan set that mentions no type without a plan.** -/
structure Closed (s : PlanSet) : Prop where
  types : ∀ e ∈ s.types, s.CoversPlan e.2
  enums : ∀ e ∈ s.enums, s.enum? e.2.type = some e.2

theorem Closed.coversPlan {s : PlanSet} (hs : s.Closed) {h : Handle} {p : TypePlan}
    (hp : s.type? h = some p) : s.CoversPlan p :=
  hs.types (h, p) (Table.mem_of_find? hp)

end PlanSet

namespace Catalogue

variable {c : Catalogue} {f : Format} {s : PlanSet} {h : Handle}

/-- The variants of a type stand in the order of their words. -/
theorem PlannedBy.ascending_variantsFor (P : c.PlannedBy f s) (h : Handle) :
    Table.Ascending (c.variantsFor h) := by
  rw [variantsFor]
  rcases hy : c.forest.hierarchyOf? h with _ | y
  · exact Table.ascending_nil
  · obtain ⟨r, -, hdesc⟩ := P.of_hierarchyOf? hy
    exact hdesc.ascending.filter _

namespace PlannedBy

/-- A shape is covered when the catalogue has a type for each of its handles. -/
theorem covers (P : c.PlannedBy f s) {l : Layout} {r : Reference} {shape : Shape}
    (hf : c.Forms l r shape) : s.Covers shape := by
  induction hf with
  | primitive => trivial
  | enumeration he => exact ⟨_, P.enum?_eq_some_iff.2 ⟨_, he, rfl⟩⟩
  | object ho => exact P.planned _ _ ho
  | sequence _ ih => exact ih
  | mapping _ ih => exact ih

theorem coversPlan (P : c.PlannedBy f s) {p : TypePlan} (hp : s.type? h = some p) :
    s.CoversPlan p := by
  obtain ⟨o, ho, hplan⟩ := P.plans hp
  refine ⟨by rw [hplan.type, hp], ?_, fun e he => ?_, fun t ht => ?_, fun k hk => ?_, fun d hd e he => ?_⟩
  · refine hplan.forall_steps.2 fun q _ x hx => ?_
    cases hx with
    | field _ hs _ =>
      rw [Planned.step, fieldStep, emissionOf]
      split
      · trivial
      · exact P.covers hs
    | carrier _ _ hs => exact P.covers hs
  · obtain ⟨q, -, -, -, shape, hs, -, hact⟩ :=
      (hplan.actions e.1 e.2).1 ((Table.find?_eq_some_iff hplan.ascending).2 he)
    rw [hact]
    exact P.covers hs
  · obtain ⟨q, -, -, r, shape, n, -, hs, rfl⟩ := (hplan.carrier t).1 ht
    exact P.covers hs
  · rw [hplan.lineage, mem_lineage_iff P.wellFormed.acyclic] at hk
    obtain ⟨o', ho'⟩ := object?_of_inherits P.wellFormed.base ho hk
    exact P.planned k o' ho'
  · have hasc := P.ascending_variantsFor h
    obtain ⟨y, -, -, wire, a, -, rfl⟩ := dispatchOf_eq_some_iff.1 (hplan.discriminator.symm.trans hd)
    obtain ⟨-, hw⟩ := (P.find?_variants hplan hd).1 ((Table.find?_eq_some_iff hasc).2 he)
    obtain ⟨o', ho', -⟩ := Option.bind_eq_some_iff.1 hw
    exact P.planned e.2 o' ho'

end PlannedBy

/-- The plans of a plan set stand in the order of their types. -/
theorem ascending_of_planAll {cancelled : Bool} (hs : c.planAll f cancelled = .ok s) :
    Table.Ascending s.types ∧ Table.Ascending s.enums := by
  obtain ⟨_, -, hs⟩ := Outcome.bind_eq_ok_iff.1 hs
  obtain ⟨types, -, hs⟩ := Outcome.bind_eq_ok_iff.1 hs
  obtain ⟨enums, -, hs⟩ := Outcome.bind_eq_ok_iff.1 hs
  obtain rfl := Outcome.pure_eq_ok_iff.1 hs
  exact ⟨Table.ascending_ofList _, Table.ascending_ofList _⟩

/-- **The plans of a reachable catalogue are closed.** -/
theorem closed_of_planAll (hc : c.Reachable) {cancelled : Bool}
    (hs : c.planAll f cancelled = .ok s) : s.Closed := by
  have P := planAll_spec hc hs
  obtain ⟨htypes, henums⟩ := ascending_of_planAll hs
  constructor
  · rintro ⟨h, p⟩ he
    exact P.coversPlan ((Table.find?_eq_some_iff htypes).2 he)
  · rintro ⟨h, p⟩ he
    have hp : s.enum? h = some p := (Table.find?_eq_some_iff henums).2 he
    obtain ⟨e, -, rfl⟩ := P.enum?_eq_some_iff.1 hp
    exact hp

end Catalogue

end Marshal
