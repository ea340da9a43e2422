import Marshal.Json.Sink
import Marshal.Proofs.Wire.Events

/-!
# The JSON writer under the protocol

`Writer.Ready` says what the writer needs of its state when an event is made: that a value can be
placed, now or when its structure is closed, as a member with a key, as an item or as the only root.
An event that may come finds the writer ready and never fails (`Keeps.step`), and neither do all
events of a document (`Keeps.performAll`).
-/

namespace Marshal.Json.Writer

open Outcome

/-! ## What the writer needs -/

/-- A value can be placed under a key: in an object it has one, and there is only one root. -/
def CanPlace (w : Writer) (key : Option String) : Prop :=
  match w.stack with
  | .object _ _ :: _ => key.isSome = true
  | .array _ _ :: _ => True
  | [] => w.root = none

/-- **The writer can take an event.** What is closed is open, and can be placed around itself. -/
def Ready (w : Writer) : Sink.Event → Prop
  | .beginObject pos => w.CanPlace (keyOf pos)
  | .beginContainer pos _ => w.CanPlace (keyOf pos)
  | .null pos => w.CanPlace (keyOf pos)
  | .scalar pos token => w.CanPlace (keyOf pos) ∧ token.isFinite = true
  | .endObject => ∃ members key rest, w.stack = .object members key :: rest ∧
    CanPlace { w with stack := rest } key
  | .endContainer => ∃ top key rest, w.stack = top :: rest ∧
    ((∃ members, top = .object members key) ∨ ∃ items, top = .array items key) ∧
      CanPlace { w with stack := rest } key

/-! ## The state of the writer at a stage -/

/-- A structure that stands in an object has a key. -/
def Keyed (key : Option String) (stack : List OpenTree) : Prop :=
  ∀ members own rest, stack = .object members own :: rest → key.isSome = true

/-- The structures of a stage are those that the writer has open. Mappings are objects as well. -/
inductive Nested : List Level → List OpenTree → Prop where
  | nil : Nested [] []
  | object {level : Level} {levels : List Level} {stack : List OpenTree}
    {members : List (String × Json)} {key : Option String} :
    level ≠ .sequence → Nested levels stack → Keyed key stack →
    Nested (level :: levels) (.object members key :: stack)
  | array {levels : List Level} {stack : List OpenTree} {items : List Json} {key : Option String} :
    Nested levels stack → Keyed key stack →
    Nested (.sequence :: levels) (.array items key :: stack)

/-- **The state of the writer at a stage.** The root is there when nothing is open any more. -/
def Keeps : Stage → Writer → Prop
  | .fresh, w => w.stack = [] ∧ w.root = none
  | .within levels, w => Nested levels w.stack ∧ (w.root = none ↔ levels ≠ [])

variable {st st' : Stage} {levels : List Level} {stack : List OpenTree} {pos : Position}
  {w w' : Writer} {e : Sink.Event} {key : Option String}

theorem canPlace_of_keyed (hr : w.root = none) (hk : Keyed key w.stack) : w.CanPlace key := by
  rw [CanPlace]
  split
  · exact hk _ _ _ ‹_›
  · trivial
  · exact hr

/-- Where a value may stand there is no root yet, and the value has a key if it needs one. -/
theorem Keeps.keyed (h : Keeps st w) (hadm : st.Admits pos (.within levels)) :
    Nested levels w.stack ∧ w.root = none ∧ Keyed (keyOf pos) w.stack := by
  cases hadm with
  | root =>
    rw [h.1]
    exact ⟨.nil, h.2, nofun⟩
  | held => exact ⟨h.1, h.2.2 nofun, fun _ _ _ _ => rfl⟩
  | field =>
    refine ⟨?_, h.2.2 nofun, fun _ _ _ _ => rfl⟩
    have hn := h.1
    generalize w.stack = stack at hn
    cases hn with
    | object _ hn hk => exact .object nofun hn hk
  | item =>
    refine ⟨h.1, h.2.2 nofun, ?_⟩
    have hn := h.1
    generalize w.stack = stack at hn
    cases hn with
    | object hl => exact absurd rfl hl
    | array => exact fun _ _ _ => nofun
  | entry => exact ⟨h.1, h.2.2 nofun, fun _ _ _ _ => rfl⟩

/-- A value that has a key if it needs one is placed, and the same structures are open. -/
theorem exists_place (j : Json) (hn : Nested levels stack) (hk : Keyed key stack) :
    ∃ w', place ⟨stack, none⟩ key j = .ok w' ∧ Keeps (.within levels) w' := by
  cases hn with
  | nil => exact ⟨_, rfl, .nil, by simp⟩
  | object hl hn hk' =>
    obtain ⟨k, rfl⟩ := Option.isSome_iff_exists.1 (hk _ _ _ rfl)
    exact ⟨_, rfl, .object hl hn hk', by simp⟩
  | array hn hk' => exact ⟨_, rfl, .array hn hk', by simp⟩

theorem exists_emit (j : Json) (hn : Nested levels w.stack) (hr : w.root = none)
    (hk : Keyed key w.stack) : ∃ w', emit key j w = .ok () w' ∧ Keeps (.within levels) w' := by
  obtain ⟨stack, root⟩ := w
  subst hr
  obtain ⟨w', hw', hkeeps⟩ := exists_place j hn hk
  exact ⟨w', by simp only [emit, hw'], hkeeps⟩

/-- What is innermost at a stage in which something is open. -/
theorem Keeps.of_object {level : Level} (h : Keeps (.within (level :: levels)) w)
    (hl : level ≠ .sequence) : ∃ members key rest, w = ⟨.object members key :: rest, none⟩ ∧
      Nested levels rest ∧ Keyed key rest := by
  obtain ⟨stack, root⟩ := w
  obtain ⟨hn, hr⟩ := h
  obtain rfl : root = none := hr.2 nofun
  cases hn with
  | object _ hn hk => exact ⟨_, _, _, rfl, hn, hk⟩
  | array => exact absurd rfl hl

theorem Keeps.of_sequence (h : Keeps (.within (.sequence :: levels)) w) :
    ∃ items key rest, w = ⟨.array items key :: rest, none⟩ ∧ Nested levels rest ∧
      Keyed key rest := by
  obtain ⟨stack, root⟩ := w
  obtain ⟨hn, hr⟩ := h
  obtain rfl : root = none := hr.2 nofun
  cases hn with
  | object hl => exact absurd rfl hl
  | array hn hk => exact ⟨_, _, _, rfl, hn, hk⟩

/-- **An event that may come finds the writer ready.** -/
theorem Keeps.ready (h : Keeps st w) (hstep : st.Step e st') : w.Ready e := by
  have hplace {pos : Position} {st' : Stage} (hadm : st.Admits pos st') : w.CanPlace (keyOf pos) := by
    obtain ⟨levels, rfl⟩ := hadm.exists_within
    obtain ⟨-, hr, hk⟩ := h.keyed hadm
    exact canPlace_of_keyed hr hk
  cases hstep with
  | beginObject hadm => exact hplace hadm
  | beginSequence hadm => exact hplace hadm
  | beginMapping hadm => exact hplace hadm
  | null hadm => exact hplace hadm
  | scalar hadm hfinite => exact ⟨hplace hadm, hfinite⟩
  | endObject =>
    obtain ⟨members, key, rest, rfl, -, hk⟩ := h.of_object nofun
    exact ⟨members, key, rest, rfl, canPlace_of_keyed rfl hk⟩
  | endSequence =>
    obtain ⟨items, key, rest, rfl, -, hk⟩ := h.of_sequence
    exact ⟨_, key, rest, rfl, .inr ⟨items, rfl⟩, canPlace_of_keyed rfl hk⟩
  | endMapping =>
    obtain ⟨members, key, rest, rfl, -, hk⟩ := h.of_object nofun
    exact ⟨_, key, rest, rfl, .inl ⟨members, rfl⟩, canPlace_of_keyed rfl hk⟩

/-- **An event that may come** leads to the next stage. -/
theorem Keeps.step (h : Keeps st w) (hstep : st.Step e st') :
    ∃ w', (e.perform : Writing Writer Unit) w = .ok () w' ∧ Keeps st' w' := by
  cases hstep with
  | beginObject hadm =>
    obtain ⟨levels, rfl⟩ := hadm.exists_within
    obtain ⟨hn, hr, hk⟩ := h.keyed hadm
    exact ⟨_, rfl, .object nofun hn hk, by simp [hr]⟩
  | beginSequence hadm =>
    obtain ⟨levels, rfl⟩ := hadm.exists_within
    obtain ⟨hn, hr, hk⟩ := h.keyed hadm
    exact ⟨_, rfl, .array hn hk, by simp [hr]⟩
  | beginMapping hadm =>
    obtain ⟨levels, rfl⟩ := hadm.exists_within
    obtain ⟨hn, hr, hk⟩ := h.keyed hadm
    exact ⟨_, rfl, .object nofun hn hk, by simp [hr]⟩
  | endObject =>
    obtain ⟨members, key, rest, rfl, hn, hk⟩ := h.of_object nofun
    exact exists_emit (w := ⟨rest, none⟩) (.object members) hn rfl hk
  | endSequence =>
    obtain ⟨items, key, rest, rfl, hn, hk⟩ := h.of_sequence
    exact exists_emit (w := ⟨rest, none⟩) (.array items) hn rfl hk
  | endMapping =>
    obtain ⟨members, key, rest, rfl, hn, hk⟩ := h.of_object nofun
    exact exists_emit (w := ⟨rest, none⟩) (.object members) hn rfl hk
  | @scalar _ _ pos token hadm hfinite =>
    obtain ⟨levels, rfl⟩ := hadm.exists_within
    obtain ⟨hn, hr, hk⟩ := h.keyed hadm
    obtain ⟨j, hj⟩ : ∃ j, ofToken pos token = .ok j := by
      cases token with
      | float x => exact ⟨_, if_pos hfinite⟩
      | _ => exact ⟨_, rfl⟩
    obtain ⟨w', hw', hkeeps⟩ := exists_emit j hn hr hk
    have hlift : Writing.lift (ofToken pos token) w = .ok j w := by
      rw [hj]
      rfl
    exact ⟨w', (run_bind hlift).trans hw', hkeeps⟩
  | null hadm =>
    obtain ⟨levels, rfl⟩ := hadm.exists_within
    obtain ⟨hn, hr, hk⟩ := h.keyed hadm
    exact exists_emit .null hn hr hk

/-! ## Whole documents -/

theorem keeps_start : Keeps .fresh (Sink.start : Writer) := ⟨rfl, rfl⟩

/-- Events that may come one after the other lead on. -/
theorem Keeps.performAll {es : List Sink.Event} (hsteps : st.Steps es st') (h : Keeps st w) :
    ∃ w', (Sink.performAll es : Writing Writer Unit) w = .ok () w' ∧ Keeps st' w' := by
  induction hsteps generalizing w with
  | nil => exact ⟨w, rfl, h⟩
  | cons hstep _ ih =>
    obtain ⟨w₁, hw₁, h₁⟩ := h.step hstep
    obtain ⟨w₂, hw₂, h₂⟩ := ih h₁
    exact ⟨w₂, (run_bind hw₁).trans hw₂, h₂⟩

end Marshal.Json.Writer
