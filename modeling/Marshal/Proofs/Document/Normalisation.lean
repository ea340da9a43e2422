import Marshal.Proofs.Json.Completion
import Marshal.Proofs.Json.Drafts
import Marshal.Proofs.Json.Normal
import Marshal.Proofs.Markup.Survival

/-!
# Reading normalises

What is read from a JSON document, however it orders members, spells words or adds keys, is settled
(`settled_of_read_json`). What is settled and can be written is canonical
(`Catalogue.canonical_of_accepted`), so it is read back from its own document: reading, writing and
reading again gives what reading gave (`read_write_of_read_json`).
-/

namespace Marshal

namespace Catalogue

variable {c : Catalogue} {f : Format}

/-- What is written inside of a settled value is settled. -/
theorem Inside.settled {n : Bool} {r r' : Reference} {v v' : Value} (hin : c.Inside f r' v' r v)
    (h : c.Conforms (c.Settled f) n r v) : ∃ m, c.Conforms (c.Settled f) m r' v' := by
  refine hin.of_closed (Q := fun r v => ∃ n, c.Conforms (c.Settled f) n r v) ?_ ?_ ?_ ⟨n, h⟩
  · rintro r m vs ⟨n, h⟩ v hv
    cases h with
    | list hvs => exact ⟨m, hvs v hv⟩
  · rintro r m es ⟨n, h⟩ k v hv
    cases h with
    | map _ hes => exact ⟨m, hes k v hv⟩
  · rintro h t fields ⟨n, h⟩ p hp v hv
    cases h with
    | primitive _ hh => exact absurd hh Primitive.not_holds_object
    | object _ _ _ _ _ _ typed => exact ⟨_, typed p hp v hv⟩

/-- **What is settled and can be written is canonical.** -/
theorem canonical_of_accepted (W : c.WellFormed) {n : Bool} {r : Reference} {v : Value}
    (h : c.Conforms (c.Settled f) n r v) (ha : c.Accepted f n r v) :
    c.Conforms (c.Canonical f) n r v := by
  refine canonical_of_inside W h ha fun h' t fields hin => ?_
  obtain ⟨m, hm⟩ := hin.settled h
  cases hm with
  | primitive _ hh => exact absurd hh Primitive.not_holds_object
  | object _ slot => exact slot

end Catalogue

namespace Document

open Catalogue

variable {c : Catalogue} {cancelled : Bool} {plans : PlanSet} {declared : Handle}
  {bytes : List UInt8} {i : Instance}

/-- **What is read from a JSON document is settled**, and nests no deeper than a document may. -/
theorem settled_of_read_json (hc : c.Reachable) (hp : c.planAll .json cancelled = .ok plans)
    (h : read .json plans declared bytes = .ok i) :
    c.Conforms (c.Settled .json) false (.named declared) i.toValue ∧
      c.nesting false i.toValue ≤ Json.depthLimit := by
  have P := planAll_spec hc hp
  obtain ⟨j, hj, hroot⟩ := root_of_read_json P.format h
  exact Json.object_settled P (Json.settles P _) (Json.bounded_of_ofBytes? hj) (admits_of_read P h).1
    hroot

/-- **Reading normalises.** An object without doubles that was read from any JSON document is written, or
refused for a type that has no instances; and reading the document that is written gives the object
again. Its discriminator agrees with its type. -/
theorem read_write_of_read_json (hc : c.Reachable) (hp : c.planAll .json cancelled = .ok plans)
    (h : read .json plans declared bytes = .ok i) (hx : i.toValue.isExact = true) :
    ((∃ name, write .json plans i = .error (.abstractInstance name)) ∨
      ∃ doc, write .json plans i = .ok doc ∧
        read .json plans i.type (Text.toBytes doc) = .ok i) ∧ c.Agrees i.type i.fields := by
  obtain ⟨hsettled, hn⟩ := settled_of_read_json hc hp h
  have hself : c.Conforms (c.Settled .json) false (.named i.type) i.toValue ∧
      c.Agrees i.type i.fields := by
    cases hsettled with
    | primitive _ hv => exact absurd hv Primitive.not_holds_object
    | object type slot ascending hdeclared required carried typed =>
      exact ⟨.object type ⟨.inl rfl, slot.agrees, slot.keys⟩ ascending hdeclared required carried
        typed, slot.agrees⟩
  refine ⟨?_, hself.2⟩
  have P := planAll_spec hc hp
  rcases write_json_of_admits hc hp (admits_of_read P h).1 hx with ⟨doc, hw⟩ | hrefused
  · refine .inr ?_
    have haccepted := (exists_json_iff_accepted P i).1 ⟨doc, hw⟩
    exact written_and_read_of_canonical P (canonical_of_accepted P.wellFormed hself.1 haccepted) hx hn
  · exact .inl hrefused

theorem read_write_of_read_json_circle : ∃ i,
    read .json (shapePlans .json) ⟨8⟩ circleBytes = .ok i ∧ i.toValue.isExact = true ∧
      ((∃ name, write .json (shapePlans .json) i = .error (.abstractInstance name)) ∨
        ∃ doc, write .json (shapePlans .json) i = .ok doc ∧
          read .json (shapePlans .json) i.type (Text.toBytes doc) = .ok i) ∧
      sealedShapes.Agrees i.type i.fields := by
  have hr : (read .json (shapePlans .json) ⟨8⟩ circleBytes).toOption.map
      (fun i => i.toValue.isExact) = some true := by decide +kernel
  obtain ⟨i, hi, hx⟩ := Option.map_eq_some_iff.1 hr
  have hread := Outcome.toOption_eq_some_iff.1 hi
  exact ⟨i, hread, hx,
    read_write_of_read_json reachable_sealedShapes (planAll_sealedShapes .json) hread hx⟩

end Document

end Marshal
