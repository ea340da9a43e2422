import Marshal.Proofs.Outcome
import Marshal.Wire.Decode

/-!
# What a reading yields

`Yields` says what holds of the result of a reading whenever it has one, from whatever state it
starts. The loops of the decoder yield what their bodies preserve.
-/

namespace Marshal

namespace Reading

variable {σ α β : Type}

/-- A lifted result leaves the source where it is. -/
theorem lift_eq_ok_iff {x : Except DecodeError α} {s s' : σ} {a : α} :
    (Reading.lift x : Reading σ α) s = .ok a s' ↔ x = .ok a ∧ s' = s := by
  cases x with
  | ok b =>
    show EStateM.Result.ok b s = _ ↔ _
    simp [eq_comm]
  | error e =>
    show EStateM.Result.error e s = _ ↔ _
    simp

/-- Every result of a reading has the property. -/
def Yields (m : Reading σ α) (P : α → Prop) : Prop := ∀ s a s', m s = .ok a s' → P a

theorem yields_pure {a : α} {P : α → Prop} (h : P a) : Yields (pure a : Reading σ α) P := by
  intro s b s' hb
  cases hb
  exact h

theorem yields_throw {e : DecodeError} {P : α → Prop} : Yields (throw e : Reading σ α) P := by
  intro s b s' hb
  cases hb

theorem yields_bind {m : Reading σ α} {f : α → Reading σ β} {Q : α → Prop} {P : β → Prop}
    (hm : Yields m Q) (hf : ∀ a, Q a → Yields (f a) P) : Yields (m >>= f) P := by
  intro s b s' hb
  obtain ⟨a, s₁, ha, hb⟩ := Outcome.run_bind_eq_ok_iff.1 hb
  exact hf a (hm s a s₁ ha) s₁ b s' hb

theorem yields_true (m : Reading σ α) : Yields m fun _ => True := fun _ _ _ _ => trivial

/-- A step whose result does not matter. -/
theorem yields_then {m : Reading σ α} {f : α → Reading σ β} {P : β → Prop}
    (hf : ∀ a, Yields (f a) P) : Yields (m >>= f) P :=
  yields_bind (yields_true m) fun a _ => hf a

theorem yields_lift {x : Except DecodeError α} {P : α → Prop} (h : ∀ a, x = .ok a → P a) :
    Yields (Reading.lift x : Reading σ α) P := by
  cases x with
  | ok a => exact yields_pure (h a rfl)
  | error e => exact yields_throw

theorem yields_and {m : Reading σ α} {P Q : α → Prop} (hp : Yields m P) (hq : Yields m Q) :
    Yields m fun a => P a ∧ Q a :=
  fun s a s' ha => ⟨hp s a s' ha, hq s a s' ha⟩

theorem yields_mono {m : Reading σ α} {P Q : α → Prop} (hm : Yields m P) (h : ∀ a, P a → Q a) :
    Yields m Q :=
  fun s a s' ha => h a (hm s a s' ha)

end Reading

namespace Decode

open Reading

/-- A type has a plan if one was made for it. -/
theorem typePlan_eq_ok_iff {s : PlanSet} {h : Handle} {p : TypePlan} :
    typePlan s h = .ok p ↔ s.type? h = some p := by
  rw [typePlan]
  cases s.type? h <;> simp

variable {σ : Type} [Source σ]

theorem items_yields {inner : Reading σ Value} {P : Value → Prop} (hi : Yields inner P)
    (fuel : Nat) : Yields (items inner fuel) fun vs => ∀ v ∈ vs, P v := by
  induction fuel with
  | zero => exact yields_throw
  | succ fuel ih =>
    refine yields_then fun more => ?_
    cases more with
    | false => exact yields_pure (by simp)
    | true =>
      refine yields_bind hi fun v hv => yields_bind ih fun vs hvs => yields_pure ?_
      exact List.forall_mem_cons.2 ⟨hv, hvs⟩

/-- The loop over entries yields what storing an entry preserves. -/
theorem entries_yields {inner : String → Reading σ Value} {I : List (String × Value) → Prop}
    (hi : ∀ t key, I t → Yields (inner key) fun v => I (Table.insert t key v)) (fuel : Nat)
    {t : List (String × Value)} (ht : I t) : Yields (entries inner fuel t) I := by
  induction fuel generalizing t with
  | zero => exact yields_throw
  | succ fuel ih =>
    refine yields_then fun entry => ?_
    rcases entry with _ | key
    · exact yields_pure ht
    · exact yields_bind (hi t key ht) fun v hv => ih hv

/-- **What a scan does with a field that is read**: it is assigned, captured or skipped. -/
theorem field_eq_ok {inner : Inner σ} {plan : TypePlan} {scan scan' : Scan} {key : String}
    {placement : Placement} {r r' : σ} (h : field inner plan scan key placement r = .ok scan' r') :
    (∃ a v, boundAction plan key placement = some a ∧ inner a.shape a.nullable key r = .ok v r' ∧
      scan' = scan.assign a v) ∨
    (boundAction plan key placement = none ∧ ∃ target v, plan.read.carrier = some target ∧
      inner target.value target.nullable key r = .ok v r' ∧
      scan' = { scan with extra := Table.insert scan.extra key v }) ∨
    boundAction plan key placement = none ∧ plan.read.carrier = none ∧ scan' = scan := by
  rw [field] at h
  rcases ha : boundAction plan key placement with _ | a <;> rw [ha] at h
  · dsimp only at h
    rcases hc : plan.read.carrier with _ | target <;> rw [hc] at h
    · obtain ⟨_, _, -, h⟩ := Outcome.run_bind_eq_ok_iff.1 h
      cases h
      exact .inr (.inr ⟨rfl, rfl, rfl⟩)
    · obtain ⟨v, _, hv, h⟩ := Outcome.run_bind_eq_ok_iff.1 h
      cases h
      exact .inr (.inl ⟨rfl, target, v, rfl, hv, rfl⟩)
  · obtain ⟨v, _, hv, h⟩ := Outcome.run_bind_eq_ok_iff.1 h
    cases h
    exact .inl ⟨a, v, rfl, hv, rfl⟩

/-- The loop over fields yields what reading a field preserves. -/
theorem fields_yields {inner : Inner σ} {plan : TypePlan} {I : Scan → Prop}
    (hi : ∀ scan key placement, I scan → Yields (field inner plan scan key placement) I)
    (fuel : Nat) {scan : Scan} (hs : I scan) : Yields (fields inner plan fuel scan) I := by
  induction fuel generalizing scan with
  | zero => exact yields_throw
  | succ fuel ih =>
    refine yields_then fun next => ?_
    rcases next with _ | ⟨key, placement⟩
    · exact yields_pure hs
    · exact yields_bind (hi scan key placement hs) fun scan' hs' => ih hs'

end Decode

end Marshal
