import Marshal.Proofs.Outcome
import Marshal.Proofs.Plan.Closure
import Marshal.Proofs.Wire.Draft

/-!
# What the encoder asks of a sink

Whatever the sink, encoding is to make one fixed list of events in order, and then to end well or
with an error of the encoder's own (`Conducts`). The events follow a protocol, which is stated
without a sink: `Stage` says which structures are open and `Stage.Step` which events may come. An
attribute comes only while its object is bare, an item only in a sequence, and a flattened sequence
only as a field.
-/

namespace Marshal

/-! ## Events -/

/-- A call on a sink. -/
inductive Sink.Event where
  | beginObject (pos : Position)
  | endObject
  | beginContainer (pos : Position) (container : Container)
  | endContainer
  | scalar (pos : Position) (token : Token)
  | null (pos : Position)
deriving DecidableEq, Repr

namespace Sink

/-- Makes an event. -/
def Event.perform {σ : Type} [Sink σ] : Event → Writing σ Unit
  | .beginObject pos => Sink.beginObject pos
  | .endObject => Sink.endObject
  | .beginContainer pos container => Sink.beginContainer pos container
  | .endContainer => Sink.endContainer
  | .scalar pos token => Sink.scalar pos token
  | .null pos => Sink.null pos

/-- Makes events in order. -/
def performAll {σ : Type} [Sink σ] (es : List Event) : Writing σ Unit := es.forM Event.perform

theorem performAll_append {σ : Type} [Sink σ] (es es' : List Event) :
    (performAll (es ++ es') : Writing σ Unit) = (do performAll es; performAll es') :=
  List.forM_append

end Sink

/-! ## The protocol -/

/-- A structure that is open. An object is bare as long as it has nothing but attributes. -/
inductive Level where
  | object (bare : Bool)
  | sequence
  | mapping
deriving DecidableEq, Repr

/-- How far a document has come: nothing is written, or its root is begun and the structures that
are open are given, the innermost first. -/
inductive Stage where
  | fresh
  | within (levels : List Level)
deriving DecidableEq, Repr

/-- The position is of a kind that can hold a structure. -/
def Position.Structured (pos : Position) : Prop := ∀ name, pos ≠ .field name .attribute

namespace Stage

/-- A stage with one more open structure. -/
def enter (level : Level) : Stage → Stage
  | fresh => .within [level]
  | within levels => .within (level :: levels)

/-- A value may stand at a position, and the stage is then another. -/
inductive Admits : Stage → Position → Stage → Prop where
  | root {name : String} {ns : Option String} : Admits fresh (.root name ns) (within [])
  | held {levels : List Level} {name : String} :
    Admits (within (.object true :: levels)) (.field name .attribute)
      (within (.object true :: levels))
  | field {bare : Bool} {levels : List Level} {name : String} :
    Admits (within (.object bare :: levels)) (.field name .element)
      (within (.object false :: levels))
  | item {levels : List Level} :
    Admits (within (.sequence :: levels)) .item (within (.sequence :: levels))
  | entry {levels : List Level} {key : String} :
    Admits (within (.mapping :: levels)) (.entry key) (within (.mapping :: levels))

/-- **What an event does to the stage**, where it may come. -/
inductive Step : Stage → Sink.Event → Stage → Prop where
  | beginObject {st st' : Stage} {pos : Position} : st.Admits pos st' → pos.Structured →
    Step st (.beginObject pos) (st'.enter (.object true))
  | endObject {bare : Bool} {levels : List Level} :
    Step (within (.object bare :: levels)) .endObject (within levels)
  | beginSequence {st st' : Stage} {pos : Position} {item : String} {flattened : Bool} :
    st.Admits pos st' → pos.Structured →
    (flattened = true → ∃ name, pos = .field name .element) →
    Step st (.beginContainer pos (.sequence item flattened)) (st'.enter .sequence)
  | beginMapping {st st' : Stage} {pos : Position} : st.Admits pos st' → pos.Structured →
    Step st (.beginContainer pos .mapping) (st'.enter .mapping)
  | endSequence {levels : List Level} :
    Step (within (.sequence :: levels)) .endContainer (within levels)
  | endMapping {levels : List Level} :
    Step (within (.mapping :: levels)) .endContainer (within levels)
  | scalar {st st' : Stage} {pos : Position} {token : Token} : st.Admits pos st' →
    token.isFinite = true → Step st (.scalar pos token) st'
  | null {st st' : Stage} {pos : Position} : st.Admits pos st' → Step st (.null pos) st'

/-- What a list of events does to the stage. -/
inductive Steps : Stage → List Sink.Event → Stage → Prop where
  | nil {st : Stage} : Steps st [] st
  | cons {st₁ st₂ st₃ : Stage} {e : Sink.Event} {es : List Sink.Event} :
    st₁.Step e st₂ → Steps st₂ es st₃ → Steps st₁ (e :: es) st₃

theorem Steps.append {st₁ st₂ st₃ : Stage} {es es' : List Sink.Event} (h : st₁.Steps es st₂)
    (h' : st₂.Steps es' st₃) : st₁.Steps (es ++ es') st₃ := by
  induction h with
  | nil => exact h'
  | cons hstep _ ih => exact .cons hstep (ih h')

theorem Steps.of_append {st₁ st₃ : Stage} {es es' : List Sink.Event}
    (h : st₁.Steps (es ++ es') st₃) : ∃ st₂, st₁.Steps es st₂ ∧ st₂.Steps es' st₃ := by
  induction es generalizing st₁ with
  | nil => exact ⟨st₁, .nil, h⟩
  | cons e es ih =>
    cases h with
    | cons hstep h =>
      obtain ⟨st₂, h₁, h₂⟩ := ih h
      exact ⟨st₂, .cons hstep h₁, h₂⟩

/-- A value that stands somewhere leaves a stage in which the same structures are open. -/
theorem Admits.exists_within {st st' : Stage} {pos : Position} (h : st.Admits pos st') :
    ∃ levels, st' = within levels := by
  cases h <;> exact ⟨_, rfl⟩

end Stage

/-! ## Writing as a list of events -/

/-- Writing for every sink. -/
abbrev AnyWriting := (σ : Type) → [Sink σ] → Writing σ Unit

/-- **What writing comes to, whatever the sink**: it makes events that may come from a stage on, and
ends well, in a stage after which it may go on, or with an error of its own. -/
def Conducts (m : AnyWriting) (st : Stage) (Post : Stage → Prop) (Own : EncodeError → Prop) : Prop :=
  ∃ es out st', (∀ (σ : Type) [Sink σ], m σ = do Sink.performAll es; Writing.lift out) ∧
    st.Steps es st' ∧ (out = .ok () → Post st') ∧ ∀ e, out = .error e → Own e

namespace Conducts

variable {m m' : AnyWriting} {st : Stage} {Post Post' : Stage → Prop} {Own Own' : EncodeError → Prop}

theorem pure (h : Post st) : Conducts (fun _ _ => Pure.pure ()) st Post Own :=
  ⟨[], .ok (), st, fun _ _ => rfl, .nil, fun _ => h, nofun⟩

theorem throw {e : EncodeError} (h : Own e) :
    Conducts (fun _ _ => MonadExcept.throw e) st Post Own := by
  refine ⟨[], .error e, st, fun _ _ => rfl, .nil, nofun, fun e' he => ?_⟩
  cases he
  exact h

theorem event {e : Sink.Event} {st' : Stage} (h : st.Step e st') (hp : Post st') :
    Conducts (fun _ _ => e.perform) st Post Own := by
  refine ⟨[e], .ok (), st', fun σ _ => ?_, .cons h .nil, fun _ => hp, nofun⟩
  simp [Sink.performAll, Writing.lift]

theorem bind (h : Conducts m st Post Own) (h' : ∀ st', Post st' → Conducts m' st' Post' Own) :
    Conducts (fun σ _ => do m σ; m' σ) st Post' Own := by
  obtain ⟨es, out, st₁, hm, hsteps, hok, herr⟩ := h
  rcases out with e | ⟨⟩
  · refine ⟨es, .error e, st₁, fun σ _ => ?_, hsteps, nofun, herr⟩
    dsimp only
    rw [hm σ, bind_assoc]
    rfl
  · obtain ⟨es', out', st₂, hm', hsteps', hok', herr'⟩ := h' st₁ (hok rfl)
    refine ⟨es ++ es', out', st₂, fun σ _ => ?_, hsteps.append hsteps', hok', herr'⟩
    dsimp only
    rw [hm σ, hm' σ, Sink.performAll_append]
    simp [Writing.lift]

theorem mono (h : Conducts m st Post Own) (hp : ∀ st', Post st' → Post' st')
    (ho : ∀ e, Own e → Own' e) : Conducts m st Post' Own' := by
  obtain ⟨es, out, st', hm, hsteps, hok, herr⟩ := h
  exact ⟨es, out, st', hm, hsteps, fun h => hp _ (hok h), fun e he => ho e (herr e he)⟩

theorem congr (h : Conducts m st Post Own) (he : ∀ (σ : Type) [Sink σ], m' σ = m σ) :
    Conducts m' st Post Own := by
  obtain ⟨es, out, st', hm, rest⟩ := h
  exact ⟨es, out, st', fun σ _ => (he σ).trans (hm σ), rest⟩

/-- What comes after a computation without state. -/
theorem lift_bind {α : Type} {x : Except EncodeError α} {k : α → AnyWriting}
    (herr : ∀ e, x = .error e → Own e) (hok : ∀ a, x = .ok a → Conducts (k a) st Post Own) :
    Conducts (fun σ _ => do let a ← Writing.lift x; k a σ) st Post Own := by
  rcases x with e | a
  · exact throw (herr e rfl)
  · exact hok a rfl

end Conducts

end Marshal
