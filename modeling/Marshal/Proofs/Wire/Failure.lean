import Marshal.Proofs.Plan.Closure
import Marshal.Proofs.Wire.Reading

/-!
# How reading fails

`FailsOnly` says what holds of the error of a reading whenever it has one, from whatever state it
starts. Along closed plans the decoder never misses a plan, if only its source does not pretend to
(`Decode.root_grounded`).
-/

namespace Marshal

namespace Reading

variable {σ α β : Type} {P : DecodeError → Prop}

/-- Every error of a reading has the property. -/
def FailsOnly (m : Reading σ α) (P : DecodeError → Prop) : Prop :=
  ∀ s e s', m s = .error e s' → P e

theorem failsOnly_pure (a : α) : FailsOnly (pure a : Reading σ α) P := fun _ _ _ => nofun

theorem failsOnly_throw {e : DecodeError} (h : P e) : FailsOnly (throw e : Reading σ α) P := by
  intro s e' s' he
  cases he
  exact h

theorem failsOnly_get : FailsOnly (get : Reading σ σ) P := fun _ _ _ => nofun

theorem failsOnly_set (s : σ) : FailsOnly (set s : Reading σ PUnit) P := fun _ _ _ => nofun

theorem failsOnly_modify (f : σ → σ) : FailsOnly (modify f : Reading σ PUnit) P :=
  fun _ _ _ => nofun

theorem failsOnly_lift {x : Except DecodeError α} (h : ∀ e, x = .error e → P e) :
    FailsOnly (Reading.lift x : Reading σ α) P := by
  cases x with
  | ok a => exact failsOnly_pure a
  | error e => exact failsOnly_throw (h e rfl)

/-- Two steps fail as either does. The second is only taken with what the first yields. -/
theorem failsOnly_bind {m : Reading σ α} {f : α → Reading σ β} {Q : α → Prop}
    (hm : FailsOnly m P) (hQ : Yields m Q) (hf : ∀ a, Q a → FailsOnly (f a) P) :
    FailsOnly (m >>= f) P := by
  intro s e s' he
  simp only [bind, EStateM.bind] at he
  rcases ha : m s with ⟨a, s₁⟩ | ⟨e₁, s₁⟩ <;> rw [ha] at he
  · exact hf a (hQ s a s₁ ha) s₁ e s' he
  · cases he
    exact hm s e s' ha

/-- Two steps fail as either does, whatever the first yields. -/
theorem failsOnly_then {m : Reading σ α} {f : α → Reading σ β} (hm : FailsOnly m P)
    (hf : ∀ a, FailsOnly (f a) P) : FailsOnly (m >>= f) P :=
  failsOnly_bind hm (yields_true m) fun a _ => hf a

/-- A change of the state does not fail, whatever is returned. -/
theorem failsOnly_modify_return (f : σ → σ) (a : α) :
    FailsOnly (do modify f; return a : Reading σ α) P :=
  failsOnly_then (failsOnly_modify f) fun _ => failsOnly_pure a

theorem failsOnly_set_return (s : σ) (a : α) : FailsOnly (do set s; return a : Reading σ α) P :=
  failsOnly_then (failsOnly_set s) fun _ => failsOnly_pure a

theorem failsOnly_map {m : Reading σ α} (f : α → β) (hm : FailsOnly m P) :
    FailsOnly (f <$> m) P := by
  rw [map_eq_pure_bind]
  exact failsOnly_then hm fun a => failsOnly_pure _

end Reading

open Reading

/-- The error is not that a plan is missing. -/
def DecodeError.Grounded (e : DecodeError) : Prop := ∀ n, e ≠ .missingPlan n

/-- A source that never says that a plan is missing. -/
structure Source.Grounded (σ : Type) [Source σ] : Prop where
  beginObject : FailsOnly (Source.beginObject : Reading σ Unit) DecodeError.Grounded
  nextKey : FailsOnly (Source.nextKey (σ := σ)) DecodeError.Grounded
  peekField : ∀ name placement,
    FailsOnly (Source.peekField (σ := σ) name placement) DecodeError.Grounded
  isNull : FailsOnly (Source.isNull (σ := σ)) DecodeError.Grounded
  scalar : FailsOnly (Source.scalar (σ := σ)) DecodeError.Grounded
  beginContainer : ∀ container,
    FailsOnly (Source.beginContainer (σ := σ) container) DecodeError.Grounded
  nextElement : FailsOnly (Source.nextElement (σ := σ)) DecodeError.Grounded
  nextEntry : FailsOnly (Source.nextEntry (σ := σ)) DecodeError.Grounded
  skip : FailsOnly (Source.skip : Reading σ Unit) DecodeError.Grounded

namespace Decode

variable {σ : Type} [Source σ] {s : PlanSet} {plan : TypePlan} {h : Handle}

/-! ## What has no part in plans -/

theorem grounded_of_toValue {kind : Primitive} {t : Token} {field : String} {e : DecodeError}
    (he : Token.toValue kind t field = .error e) : e.Grounded := by
  unfold Token.toValue at he
  split at he
  · split at he <;> cases he
    exact fun _ => nofun
  all_goals first
    | (cases he; done)
    | (cases he; exact fun _ => nofun)
    | (split at he <;> cases he; exact fun _ => nofun)

theorem grounded_of_enumOfToken {p : EnumPlan} {field : String} {t : Token} {e : DecodeError}
    (he : enumOfToken p field t = .error e) : e.Grounded := by
  cases t with
  | text raw =>
    rw [enumOfToken, enumValue] at he
    split at he
    · cases he
    · split at he <;> cases he
      exact fun _ => nofun
  | _ =>
    cases he
    exact fun _ => nofun

theorem grounded_of_make {scan : Scan} {e : DecodeError} (he : scan.make plan = .error e) :
    e.Grounded := by
  rw [Scan.make] at he
  split at he <;> cases he
  exact fun _ => nofun

omit [Source σ] in
/-- The plan of a type that is planned is found, and the set covers it. -/
theorem typePlan_grounded (hs : s.Closed) (hh : ∃ p, s.type? h = some p) :
    FailsOnly (Reading.lift (typePlan s h) : Reading σ TypePlan) DecodeError.Grounded ∧
      Yields (Reading.lift (typePlan s h) : Reading σ TypePlan) s.CoversPlan := by
  obtain ⟨p, hp⟩ := hh
  have hplan : typePlan s h = .ok p := by rw [typePlan, hp]
  rw [hplan]
  exact ⟨failsOnly_pure _, yields_pure (hs.coversPlan hp)⟩

/-! ## The loops -/

variable (hσ : Source.Grounded σ)

include hσ

theorem enumeration_grounded (hc : s.Covers (.enumeration h)) (field : String) :
    FailsOnly (enumeration (σ := σ) s h field) DecodeError.Grounded := by
  obtain ⟨p, hp⟩ := hc
  rw [enumeration, hp]
  exact failsOnly_then hσ.scalar fun t => failsOnly_lift fun e he => grounded_of_enumOfToken he

theorem items_grounded {inner : Reading σ Value} (hi : FailsOnly inner DecodeError.Grounded)
    (fuel : Nat) : FailsOnly (items inner fuel) DecodeError.Grounded := by
  induction fuel with
  | zero => exact failsOnly_throw fun _ => nofun
  | succ fuel ih =>
    refine failsOnly_then hσ.nextElement fun more => ?_
    cases more with
    | false => exact failsOnly_pure _
    | true => exact failsOnly_then hi fun v => failsOnly_then ih fun vs => failsOnly_pure _

theorem entries_grounded {inner : String → Reading σ Value}
    (hi : ∀ key, FailsOnly (inner key) DecodeError.Grounded) (fuel : Nat)
    (table : List (String × Value)) :
    FailsOnly (entries inner fuel table) DecodeError.Grounded := by
  induction fuel generalizing table with
  | zero => exact failsOnly_throw fun _ => nofun
  | succ fuel ih =>
    refine failsOnly_then hσ.nextEntry fun entry => ?_
    rcases entry with _ | key
    · exact failsOnly_pure _
    · exact failsOnly_then (hi key) fun v => ih _

/-! ## Objects and values -/

/-- An inner reader that misses no plan for the shapes that the set covers. -/
def InnerGrounded (s : PlanSet) (inner : Inner σ) : Prop :=
  ∀ shape allowed name, s.Covers shape →
    FailsOnly (inner shape allowed name) DecodeError.Grounded

theorem field_grounded {inner : Inner σ} (hi : InnerGrounded s inner) (hp : s.CoversPlan plan)
    (scan : Scan) (key : String) (placement : Placement) :
    FailsOnly (field inner plan scan key placement) DecodeError.Grounded := by
  rw [field]
  rcases ha : boundAction plan key placement with _ | a
  · rcases hcar : plan.read.carrier with _ | t
    · exact failsOnly_then hσ.skip fun _ => failsOnly_pure _
    · exact failsOnly_then (hi _ _ _ (hp.carrier t hcar)) fun v => failsOnly_pure _
  · have hmem : (key, a) ∈ plan.read.actions :=
      Table.mem_of_find? (Option.filter_eq_some_iff.1 ha).1
    exact failsOnly_then (hi _ _ _ (hp.actions _ hmem)) fun v => failsOnly_pure _

theorem fields_grounded {inner : Inner σ} (hi : InnerGrounded s inner) (hp : s.CoversPlan plan)
    (fuel : Nat) (scan : Scan) : FailsOnly (fields inner plan fuel scan) DecodeError.Grounded := by
  induction fuel generalizing scan with
  | zero => exact failsOnly_throw fun _ => nofun
  | succ fuel ih =>
    refine failsOnly_then hσ.nextKey fun next => ?_
    rcases next with _ | ⟨key, placement⟩
    · exact failsOnly_pure _
    · exact failsOnly_then (field_grounded hσ hi hp scan key placement) fun scan' => ih scan'

/-- The choice of the concrete type misses no plan, and gives one that the set covers. -/
theorem concretePlan_grounded (hs : s.Closed) (hp : s.CoversPlan plan) :
    FailsOnly (concretePlan (σ := σ) s plan) DecodeError.Grounded ∧
      Yields (concretePlan (σ := σ) s plan) s.CoversPlan := by
  rw [concretePlan]
  rcases hd : plan.read.discriminator with _ | d
  · exact ⟨failsOnly_pure _, yields_pure hp⟩
  · refine ⟨failsOnly_then (hσ.peekField _ _) ?_, yields_then ?_⟩ <;> rintro (_ | word)
    · exact failsOnly_pure _
    · dsimp only
      rcases hv : Table.find? d.variants word with _ | k
      · exact failsOnly_throw fun _ => nofun
      · exact (typePlan_grounded hs (hp.variants d hd (word, k) (Table.mem_of_find? hv))).1
    · exact yields_pure hp
    · dsimp only
      rcases hv : Table.find? d.variants word with _ | k
      · exact yields_throw
      · exact (typePlan_grounded hs (hp.variants d hd (word, k) (Table.mem_of_find? hv))).2

theorem object_grounded (hs : s.Closed) {inner : Inner σ} (hi : InnerGrounded s inner)
    (hh : ∃ p, s.type? h = some p) :
    FailsOnly (object s inner h) DecodeError.Grounded := by
  obtain ⟨hfails, hyields⟩ := typePlan_grounded (σ := σ) hs hh
  refine failsOnly_bind hfails hyields fun p hp => failsOnly_then hσ.beginObject fun _ => ?_
  obtain ⟨hfails, hyields⟩ := concretePlan_grounded hσ hs hp
  refine failsOnly_bind hfails hyields fun q hq => failsOnly_then failsOnly_get fun state => ?_
  refine failsOnly_then (fields_grounded hσ hi hq _ _) fun scan => ?_
  exact failsOnly_lift fun e he => grounded_of_make he

theorem shaped_grounded (hs : s.Closed) {inner : Option (Inner σ)}
    (hi : ∀ r, inner = some r → InnerGrounded s r) {shape : Shape} (hc : s.Covers shape)
    (name : String) : FailsOnly (shaped s inner shape name) DecodeError.Grounded := by
  cases shape with
  | primitive kind =>
    exact failsOnly_then hσ.scalar fun t => failsOnly_lift fun e he => grounded_of_toValue he
  | enumeration h => exact enumeration_grounded hσ hc name
  | object h =>
    rcases inner with _ | inner
    · exact failsOnly_throw fun _ => nofun
    · exact failsOnly_then (object_grounded hσ hs (hi _ rfl) hc) fun i => failsOnly_pure _
  | sequence element n layout =>
    rcases inner with _ | inner
    · exact failsOnly_throw fun _ => nofun
    · refine failsOnly_then (hσ.beginContainer _) fun _ => failsOnly_then failsOnly_get fun _ => ?_
      exact failsOnly_then (items_grounded hσ (hi _ rfl element n name hc) _) fun vs =>
        failsOnly_pure _
  | mapping element n =>
    rcases inner with _ | inner
    · exact failsOnly_throw fun _ => nofun
    · refine failsOnly_then (hσ.beginContainer _) fun _ => failsOnly_then failsOnly_get fun _ => ?_
      exact failsOnly_then (entries_grounded hσ (fun key => hi _ rfl element n key hc) _ _) fun es =>
        failsOnly_pure _

theorem nullable_grounded (hs : s.Closed) {inner : Option (Inner σ)}
    (hi : ∀ r, inner = some r → InnerGrounded s r) : InnerGrounded s (nullable s inner) := by
  intro shape allowed name hc
  refine failsOnly_then hσ.isNull fun isNull => ?_
  cases isNull with
  | false => exact shaped_grounded hσ hs hi hc name
  | true =>
    cases allowed with
    | false => exact failsOnly_throw fun _ => nofun
    | true => exact failsOnly_pure _

/-- **Reading a value misses no plan**, by induction on how deep values may stand in it. -/
theorem value_grounded (hs : s.Closed) (room : Nat) : InnerGrounded (σ := σ) s (value s room) := by
  induction room with
  | zero => exact nullable_grounded hσ hs nofun
  | succ room ih => exact nullable_grounded hσ hs fun r hr => Option.some.inj hr ▸ ih

theorem root_grounded (hs : s.Closed) (hh : ∃ p, s.type? h = some p) :
    FailsOnly (root (σ := σ) s h) DecodeError.Grounded :=
  object_grounded hσ hs (value_grounded hσ hs _) hh

end Decode

end Marshal
