import Marshal.Proofs.Document.Conformance
import Marshal.Proofs.Json.Faults
import Marshal.Proofs.Markup.Faults

/-!
# No plan is missing

The plans of a sealed catalogue are closed, so a document is read without ever missing a plan, and
written without missing one but for an object in the value itself (`closed_of_sealed`).
-/

namespace Marshal.Document

variable {c : Catalogue} {f : Format} {s : PlanSet} {declared : Handle}

theorem grounded_of_decode {σ : Type} [Source σ] (hσ : Source.Grounded σ) (hs : s.Closed)
    (hd : ∃ p, s.type? declared = some p) {source : σ} {e : DecodeError}
    (h : decode s declared source = .error e) : e.Grounded := by
  unfold decode at h
  split at h
  · cases h
  · rename_i hroot
    cases h
    exact Decode.root_grounded hσ hs hd source e _ hroot

/-- **Reading never misses a plan**, whatever is read. -/
theorem grounded_of_read (hf : s.format = f) (hs : s.Closed)
    (hd : ∃ p, s.type? declared = some p) {bytes : List UInt8} {e : DecodeError}
    (h : read f s declared bytes = .error e) : e.Grounded := by
  unfold read at h
  rw [if_pos hf] at h
  cases f with
  | json =>
    dsimp only at h
    rcases hr : Json.Reader.ofBytes bytes with e' | r <;> rw [hr] at h
    · unfold Json.Reader.ofBytes at hr
      split at hr <;> cases hr
      cases h
      exact fun _ => nofun
    · exact grounded_of_decode Json.Reader.grounded hs hd h
  | xml =>
    dsimp only at h
    rcases hr : Markup.Reader.ofBytes bytes with e' | r <;> rw [hr] at h
    · cases h
      exact (Markup.Reader.ofBytes_syntaxOnly bytes e hr).grounded
    · exact grounded_of_decode Markup.Reader.grounded hs hd h

/-- **The plans of a sealed catalogue are closed.** So no input makes reading miss a plan, and
writing misses one only for an object in the value that is of no object type. -/
theorem closed_of_sealed (hc : c.Reachable) {cancelled : Bool}
    (hs : c.planAll f cancelled = .ok s) :
    s.Closed ∧
      (∀ declared o bytes n, c.object? declared = some o →
        read f s declared bytes ≠ .error (.missingPlan n)) ∧
      ∀ i n, write f s i = .error (.missingPlan n) →
        ∃ h, h.index = n ∧ c.object? h = none ∧ i.toValue.Mentions h := by
  have hclosed := Catalogue.closed_of_planAll hc hs
  have P := Catalogue.planAll_spec hc hs
  refine ⟨hclosed, fun declared o bytes n ho h => ?_, fun i n h => ?_⟩
  · exact grounded_of_read P.format hclosed (P.planned declared o ho) h n rfl
  · rcases ownError_of_write P.format (Catalogue.followable_of_planAll hc hs) h with
      ⟨k, hk, hnone, hm⟩ | ⟨name, hname⟩
    · refine ⟨k, hk, Option.eq_none_iff_forall_ne_some.2 fun o ho => ?_, hm⟩
      obtain ⟨p, hp⟩ := P.planned k o ho
      cases hnone.symm.trans hp
    · cases hname

theorem closed_of_sealed_shapes :
    (Catalogue.shapePlans .xml).Closed ∧
      (∀ declared o bytes n, Catalogue.sealedShapes.object? declared = some o →
        read .xml (Catalogue.shapePlans .xml) declared bytes ≠ .error (.missingPlan n)) ∧
      ∀ i n, write .xml (Catalogue.shapePlans .xml) i = .error (.missingPlan n) →
        ∃ h, h.index = n ∧ Catalogue.sealedShapes.object? h = none ∧ i.toValue.Mentions h :=
  closed_of_sealed Catalogue.reachable_sealedShapes (Catalogue.planAll_sealedShapes .xml)

end Marshal.Document
