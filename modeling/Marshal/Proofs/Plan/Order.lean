import Marshal.Proofs.Plan.Closure

/-!
# The order of steps

What the encoder relies on when it drives a sink along a plan: attributes are written before
anything else and are scalars, and only the sequence of a property itself is ever laid out as
siblings, none inside it (`PlannedBy.ordered`).
-/

namespace Marshal

namespace Shape

/-- No sequence in a shape, at any depth, is laid out as siblings. -/
def isPlain : Shape → Bool
  | .sequence element _ layout => layout != .flattened && element.isPlain
  | .mapping value _ => value.isPlain
  | _ => true

/-- No sequence inside the outermost collection of a shape is laid out as siblings. -/
def hasPlainParts : Shape → Bool
  | .sequence element _ _ => element.isPlain
  | .mapping value _ => value.isPlain
  | _ => true

theorem hasPlainParts_of_isPlain {s : Shape} (h : s.isPlain = true) : s.hasPlainParts = true := by
  cases s <;> simp_all [isPlain, hasPlainParts]

/-- A field of a placement can hold the shape. -/
def FitsField (s : Shape) : Placement → Prop
  | .attribute => s.isScalar = true
  | .element => s.hasPlainParts = true

end Shape

/-- A field of a placement can hold what is emitted. -/
def Emission.FitsField : Emission → Placement → Prop
  | .value shape, placement => shape.FitsField placement
  | .discriminator _, _ => True
  | .entries inside _, placement => placement = .element ∧ inside.hasPlainParts = true

/-- **A write plan whose attributes come first**, and whose steps fit where they are placed. -/
structure WritePlan.Ordered (p : WritePlan) : Prop where
  fits : ∀ st ∈ p.steps, st.emission.FitsField st.placement
  attributesFirst : ∃ early late, p.steps = early ++ late ∧
    (∀ st ∈ early, st.placement = .attribute) ∧ ∀ st ∈ late, st.placement = .element

namespace Catalogue

variable {c : Catalogue} {f : Format} {s : PlanSet} {h : Handle}

theorem Forms.hasPlainParts {l : Layout} {r : Reference} {shape : Shape}
    (hf : c.Forms l r shape) : shape.hasPlainParts = true ∧ (l ≠ .flattened → shape.isPlain = true) := by
  induction hf with
  | primitive => exact ⟨rfl, fun _ => rfl⟩
  | enumeration => exact ⟨rfl, fun _ => rfl⟩
  | object => exact ⟨rfl, fun _ => rfl⟩
  | sequence _ ih =>
    have helement := ih.2 (by simp [Layout.standard])
    exact ⟨helement, fun hl => by simp [Shape.isPlain, helement, hl]⟩
  | mapping _ ih =>
    have hvalue := ih.2 (by simp [Layout.standard])
    exact ⟨hvalue, fun _ => hvalue⟩

theorem attributesFirst_orderSteps (steps : List Step)
    (hjson : f = .json → ∀ st ∈ steps, st.placement = .element) :
    ∃ early late, orderSteps f steps = early ++ late ∧
      (∀ st ∈ early, st.placement = .attribute) ∧ ∀ st ∈ late, st.placement = .element := by
  cases f with
  | json => exact ⟨[], steps, rfl, by simp, hjson rfl⟩
  | xml =>
    refine ⟨_, _, rfl, fun st hst => by simpa using (List.mem_filter.1 hst).2, fun st hst => ?_⟩
    have hne := (List.mem_filter.1 hst).2
    rcases hp : st.placement with _ | _
    · rfl
    · simp [hp] at hne

/-- What a property adds to a plan fits where it is placed. -/
theorem Contributes.fits {o : ObjectType} {p : Property} {x : Planned}
    (hx : c.Contributes f h o p x) : x.step.emission.FitsField x.step.placement := by
  cases hx with
  | @field shape _ hs hfault =>
    have hshape : shape.FitsField (placementIn f p) := by
      rcases hp : placementIn f p with _ | _
      · exact hs.hasPlainParts.1
      · cases f with
        | json => cases hp
        | xml =>
          by_contra hscalar
          simp [layoutFault?, show p.placement = .attribute from hp,
            show ¬ shape.isScalar = true from hscalar] at hfault
    rw [Planned.step, fieldStep, emissionOf]
    split
    · trivial
    · exact hshape
  | carrier _ _ hs => exact ⟨rfl, hs.hasPlainParts.1⟩

theorem Contributes.placement_json {o : ObjectType} {p : Property} {x : Planned}
    (hx : c.Contributes .json h o p x) : x.step.placement = .element := by
  cases hx <;> rfl

/-- **The steps of a plan are in order.** -/
theorem PlannedBy.ordered (P : c.PlannedBy f s) {p : TypePlan} (hp : s.type? h = some p) :
    p.write.Ordered := by
  obtain ⟨o, -, hplan⟩ := P.plans hp
  refine ⟨hplan.forall_steps.2 fun q _ x hx => hx.fits, ?_⟩
  obtain ⟨ps, H, hsteps⟩ := hplan.steps
  rw [hsteps]
  refine attributesFirst_orderSteps _ fun hf st hst => ?_
  obtain ⟨x, hx, rfl⟩ := List.mem_map.1 hst
  obtain ⟨q, -, hq⟩ := Outcome.forall₂_exists_right H hx
  subst hf
  exact hq.placement_json

end Catalogue

end Marshal
