import Marshal.Markup.Sink
import Marshal.Proofs.Wire.Events

/-!
# The markup writer under the protocol

`Writer.Ready` says what the writer needs of its state when an event is made: a held-back start tag
of the innermost object for an attribute, an open sequence for an item, and so on. An event that may
come finds the writer ready, and it fails, if at all, at a name (`Keeps.step`). By induction this
holds for all events of a document (`Keeps.performAll`).
-/

namespace Marshal.Markup.Writer

open Outcome

/-! ## What the writer needs -/

/-- The writer can take a value at a position. -/
def ReadyAt (w : Writer) : Position → Prop
  | .root _ _ => w.stack = [] ∧ w.pending = none
  | .field _ .element => ∃ name closesEntry rest, w.stack = .object name closesEntry :: rest
  | .field _ .attribute => ∃ tag closesEntry rest,
    w.pending = some tag ∧ w.stack = .object tag.name closesEntry :: rest
  | .item => ∃ item wrapper closesEntry rest, w.stack = .sequence item wrapper closesEntry :: rest
  | .entry _ => ∃ name closesEntry rest, w.stack = .mapping name closesEntry :: rest

/-- **The writer can take an event**: scalars and nulls go wherever a value can stand, structures not
into attributes, and flattened sequences only into elements of an object. -/
def Ready (w : Writer) : Sink.Event → Prop
  | .scalar pos _ => w.ReadyAt pos
  | .null pos => w.ReadyAt pos
  | .beginObject pos => w.ReadyAt pos ∧ pos.Structured
  | .beginContainer pos container => w.ReadyAt pos ∧ pos.Structured ∧
    ∀ item, container = .sequence item true → ∃ name, pos = .field name .element
  | .endObject => ∃ name closesEntry rest, w.stack = .object name closesEntry :: rest
  | .endContainer => (∃ item wrapper closesEntry rest,
      w.stack = .sequence item wrapper closesEntry :: rest) ∨
    ∃ name closesEntry rest, w.stack = .mapping name closesEntry :: rest

/-! ## How parts of the writer run -/

/-- A part of the writer that starts in some states fails only at a name, and ends as said. -/
def Runs {α : Type} (m : Writing Writer α) (pre : Writer → Prop) (post : α → Writer → Prop) : Prop :=
  ∀ w, pre w → (∃ a w', m w = .ok a w' ∧ post a w') ∨
    ∃ name w', m w = .error (.invalidName name .xml) w'

/-- The writer has a stack and holds a tag back. -/
def Holds (stack : List OpenElement) (pending : Option Tag) (w : Writer) : Prop :=
  w.stack = stack ∧ w.pending = pending

section Runs

variable {α β : Type} {m : Writing Writer α} {f : α → Writing Writer β} {pre : Writer → Prop}
  {post : α → Writer → Prop} {post' : β → Writer → Prop} {stack : List OpenElement}
  {pending : Option Tag} {name : String}

theorem runs_bind (hm : Runs m pre post) (hf : ∀ a, Runs (f a) (post a) post') :
    Runs (m >>= f) pre post' := by
  intro w hw
  rcases hm w hw with ⟨a, w₁, ha, hpost⟩ | ⟨name, w₁, he⟩
  · rw [run_bind ha]
    exact hf a w₁ hpost
  · exact .inr ⟨name, w₁, run_bind_error he⟩

theorem runs_pure {a : α} (h : ∀ w, pre w → post a w) : Runs (pure a) pre post :=
  fun w hw => .inl ⟨a, w, rfl, h w hw⟩

theorem Runs.weaken {pre' : Writer → Prop} (hm : Runs m pre post) (h : ∀ w, pre' w → pre w) :
    Runs m pre' post :=
  fun w hw => hm w (h w hw)

theorem runs_checkName (name : String) : Runs (checkName name) pre fun _ => pre := by
  intro w hw
  rw [checkName]
  split
  · exact .inl ⟨(), w, rfl, hw⟩
  · exact .inr ⟨name, w, rfl⟩

theorem runs_emit (s : String) : Runs (emit s) (Holds stack pending) fun _ => Holds stack pending :=
  fun _ hw => .inl ⟨(), _, rfl, hw⟩

theorem runs_emit_stack (s : String) :
    Runs (emit s) (fun w => w.stack = stack) fun _ w => w.stack = stack :=
  fun _ hw => .inl ⟨(), _, rfl, hw⟩

theorem runs_flush : Runs flush (fun w => w.stack = stack) fun _ => Holds stack none := by
  rintro ⟨out, _ | tag, _⟩ rfl
  · exact .inl ⟨(), _, rfl, rfl, rfl⟩
  · exact .inl ⟨(), _, rfl, rfl, rfl⟩

theorem runs_openTag (name : String) :
    Runs (openTag name) (fun w => w.stack = stack) fun _ => Holds stack (some ⟨name, []⟩) := by
  refine runs_bind (runs_checkName name) fun _ => runs_bind runs_flush fun _ w hw => ?_
  exact .inl ⟨(), _, rfl, hw.1, rfl⟩

theorem runs_closeTag (name : String) (closesEntry : Bool) :
    Runs (closeTag name closesEntry) (fun w => w.stack = stack) fun _ => Holds stack none := by
  rintro ⟨out, _ | tag, _⟩ rfl
  · cases closesEntry <;> exact .inl ⟨(), _, rfl, rfl, rfl⟩
  · cases closesEntry <;> exact .inl ⟨(), _, rfl, rfl, rfl⟩

theorem runs_beginEntry (key : String) :
    Runs (beginEntry key) (fun w => w.stack = stack) fun _ => Holds stack none := by
  refine runs_bind runs_flush fun _ => runs_bind (runs_emit _) fun _ => ?_
  refine runs_bind ((runs_openTag "key").weaken fun w hw => hw.1) fun _ => ?_
  refine runs_bind (runs_flush.weaken fun w hw => hw.1) fun _ => runs_bind (runs_emit _) fun _ => ?_
  exact (runs_closeTag "key" false).weaken fun w hw => hw.1

theorem runs_itemName {item : String} {wrapper : Option String} {b : Bool}
    {rest : List OpenElement} :
    Runs itemName (fun w => w.stack = .sequence item wrapper b :: rest)
      fun _ w => w.stack = .sequence item wrapper b :: rest := by
  rintro ⟨out, pending, _⟩ rfl
  exact .inl ⟨item, _, rfl, rfl⟩

/-- The element of a position is begun with its tag held back. -/
theorem runs_openAt {pos : Position} (hpos : pos.Structured)
    (hitem : pos = .item → ∃ item wrapper b rest, stack = .sequence item wrapper b :: rest) :
    Runs (openAt pos) (fun w => w.stack = stack)
      fun a w => w.stack = stack ∧ ∃ tag, w.pending = some tag ∧ tag.name = a.1 := by
  rcases pos with ⟨name, ns⟩ | ⟨name, _ | _⟩ | _ | key
  · refine runs_bind (runs_checkName name) fun _ => ?_
    refine runs_bind (runs_emit_stack _) fun _ => runs_bind (runs_openTag name) fun _ => ?_
    rcases ns with _ | ns
    · exact runs_pure fun w hw => ⟨hw.1, _, hw.2, rfl⟩
    · exact fun w hw => .inl ⟨_, _, rfl, hw.1, _, rfl, rfl⟩
  · exact runs_bind (runs_openTag name) fun _ => runs_pure fun w hw => ⟨hw.1, _, hw.2, rfl⟩
  · exact absurd rfl (hpos name)
  · obtain ⟨item, wrapper, b, rest, rfl⟩ := hitem rfl
    refine runs_bind runs_itemName fun a => runs_bind (runs_openTag a) fun _ => ?_
    exact runs_pure fun w hw => ⟨hw.1, _, hw.2, rfl⟩
  · refine runs_bind (runs_beginEntry key) fun _ => ?_
    exact runs_bind ((runs_openTag "value").weaken fun w hw => hw.1) fun _ =>
      runs_pure fun w hw => ⟨hw.1, _, hw.2, rfl⟩

end Runs

/-! ## The state of the writer at a stage -/

/-- The innermost structure is no bare object. -/
def Filled (levels : List Level) : Prop := ∀ rest, levels ≠ .object true :: rest

/-- The structures of a stage are those that the writer has open. A flattened sequence stands in
another structure. -/
inductive Nested : List Level → List OpenElement → Prop where
  | nil : Nested [] []
  | object {levels : List Level} {stack : List OpenElement} {bare b : Bool} {name : String} :
    Nested levels stack → Filled levels → Nested (.object bare :: levels) (.object name b :: stack)
  | wrapped {levels : List Level} {stack : List OpenElement} {b : Bool} {item name : String} :
    Nested levels stack → Filled levels →
    Nested (.sequence :: levels) (.sequence item (some name) b :: stack)
  | flattened {levels : List Level} {stack : List OpenElement} {b : Bool} {item : String} :
    Nested levels stack → Filled levels → levels ≠ [] →
    Nested (.sequence :: levels) (.sequence item none b :: stack)
  | mapping {levels : List Level} {stack : List OpenElement} {b : Bool} {name : String} :
    Nested levels stack → Filled levels → Nested (.mapping :: levels) (.mapping name b :: stack)

/-- **The state of the writer while structures are open**: a bare object has its start tag held back,
and when nothing is open any more, no tag is. -/
structure Within (levels : List Level) (w : Writer) : Prop where
  nested : Nested levels w.stack
  bare : ∀ rest, levels = .object true :: rest →
    ∃ tag b stack, w.pending = some tag ∧ w.stack = .object tag.name b :: stack
  closed : levels = [] → w.pending = none

/-- **The state of the writer at a stage.** -/
def Keeps : Stage → Writer → Prop
  | .fresh, w => w.stack = [] ∧ w.pending = none
  | .within levels, w => Within levels w

variable {st st' : Stage} {levels : List Level} {stack : List OpenElement} {pos : Position}
  {w w' : Writer} {e : Sink.Event}

theorem Nested.of_object {bare : Bool} (h : Nested (.object bare :: levels) stack) :
    ∃ name b rest, stack = .object name b :: rest ∧ Nested levels rest ∧ Filled levels := by
  cases h with
  | object hn hf => exact ⟨_, _, _, rfl, hn, hf⟩

theorem Nested.of_mapping (h : Nested (.mapping :: levels) stack) :
    ∃ name b rest, stack = .mapping name b :: rest ∧ Nested levels rest ∧ Filled levels := by
  cases h with
  | mapping hn hf => exact ⟨_, _, _, rfl, hn, hf⟩

theorem Nested.of_sequence (h : Nested (.sequence :: levels) stack) :
    ∃ item wrapper b rest, stack = .sequence item wrapper b :: rest ∧ Nested levels rest ∧
      Filled levels ∧ (wrapper = none → levels ≠ []) := by
  cases h with
  | wrapped hn hf => exact ⟨_, _, _, _, rfl, hn, hf, nofun⟩
  | flattened hn hf hne => exact ⟨_, _, _, _, rfl, hn, hf, fun _ => hne⟩

/-- Where a value may stand, the writer can take it. -/
theorem Keeps.readyAt (h : Keeps st w) (hadm : st.Admits pos st') : w.ReadyAt pos := by
  cases hadm with
  | root => exact h
  | held =>
    obtain ⟨tag, b, stack, hp, hs⟩ := h.bare _ rfl
    exact ⟨tag, b, stack, hp, hs⟩
  | field =>
    obtain ⟨name, b, rest, hs, -⟩ := h.nested.of_object
    exact ⟨name, b, rest, hs⟩
  | item =>
    obtain ⟨item, wrapper, b, rest, hs, -⟩ := h.nested.of_sequence
    exact ⟨item, wrapper, b, rest, hs⟩
  | entry =>
    obtain ⟨name, b, rest, hs, -⟩ := h.nested.of_mapping
    exact ⟨name, b, rest, hs⟩

/-- **An event that may come finds the writer ready.** -/
theorem Keeps.ready (h : Keeps st w) (hstep : st.Step e st') : w.Ready e := by
  cases hstep with
  | beginObject hadm hpos => exact ⟨h.readyAt hadm, hpos⟩
  | endObject =>
    obtain ⟨name, b, rest, hs, -⟩ := h.nested.of_object
    exact ⟨name, b, rest, hs⟩
  | beginSequence hadm hpos hflat =>
    exact ⟨h.readyAt hadm, hpos, fun item hc => hflat (by cases hc; rfl)⟩
  | beginMapping hadm hpos => exact ⟨h.readyAt hadm, hpos, nofun⟩
  | endSequence =>
    obtain ⟨item, wrapper, b, rest, hs, -⟩ := h.nested.of_sequence
    exact .inl ⟨item, wrapper, b, rest, hs⟩
  | endMapping =>
    obtain ⟨name, b, rest, hs, -⟩ := h.nested.of_mapping
    exact .inr ⟨name, b, rest, hs⟩
  | scalar hadm => exact h.readyAt hadm
  | null hadm => exact h.readyAt hadm

/-- Putting a value somewhere other than into an attribute leaves no bare object. -/
theorem Keeps.filled (h : Keeps st w) (hadm : st.Admits pos (.within levels))
    (hpos : pos.Structured) : Nested levels w.stack ∧ Filled levels := by
  cases hadm with
  | root => exact ⟨h.1 ▸ .nil, nofun⟩
  | held => exact absurd rfl (hpos _)
  | field =>
    obtain ⟨name, b, rest, hs, hn, hf⟩ := h.nested.of_object
    exact ⟨hs ▸ .object hn hf, nofun⟩
  | item => exact ⟨h.nested, nofun⟩
  | entry => exact ⟨h.nested, nofun⟩

theorem Keeps.runs_openAt (h : Keeps st w) (hadm : st.Admits pos st') (hpos : pos.Structured) :
    Runs (openAt pos) (fun x => x.stack = w.stack)
      fun a x => x.stack = w.stack ∧ ∃ tag, x.pending = some tag ∧ tag.name = a.1 :=
  Writer.runs_openAt hpos fun hitem => by subst hitem; exact h.readyAt hadm

/-- A stage in which nothing is bare is kept when no tag is held back. -/
theorem within_of_holds (hn : Nested levels stack) (hf : Filled levels) (h : Holds stack none w) :
    Within levels w where
  nested := h.1 ▸ hn
  bare rest hr := absurd hr (hf rest)
  closed _ := h.2

/-- While the innermost structure is not a bare object, no tag need be held back. -/
theorem within_of_nested {level : Level} (hn : Nested (level :: levels) w.stack)
    (h : level ≠ .object true) : Within (level :: levels) w where
  nested := hn
  bare _ hr := absurd (List.cons.inj hr).1 h
  closed hr := absurd hr (List.cons_ne_nil _ _)

/-- What ends an element leaves the structures around it. -/
theorem runs_closeTag_within (hn : Nested levels stack) (hf : Filled levels) (name : String)
    (b : Bool) : Runs (closeTag name b) (fun w => w.stack = stack) fun _ => Within levels := by
  intro w hw
  rcases runs_closeTag name b w hw with ⟨_, w', hw', hpost⟩ | herr
  · exact .inl ⟨(), w', hw', within_of_holds hn hf hpost⟩
  · exact .inr herr

theorem Keeps.beginObject (h : Keeps st w) (hadm : st.Admits pos (.within levels))
    (hpos : pos.Structured) :
    Runs (Writer.beginObject pos) (fun x => x.stack = w.stack)
      fun _ => Within (.object true :: levels) := by
  obtain ⟨hn, hf⟩ := h.filled hadm hpos
  refine runs_bind (h.runs_openAt hadm hpos) ?_
  rintro ⟨name, b⟩ x ⟨hs, tag, hp, rfl⟩
  refine .inl ⟨(), _, rfl, ?_, ?_, nofun⟩
  · exact .object (hs ▸ hn) hf
  · exact fun _ _ => ⟨tag, b, x.stack, hp, rfl⟩

theorem Keeps.beginSequence (h : Keeps st w) (hadm : st.Admits pos (.within levels))
    (hpos : pos.Structured) (item : String) (flattened : Bool)
    (hflat : flattened = true → ∃ name, pos = .field name .element) :
    Runs (Writer.beginContainer pos (.sequence item flattened)) (fun x => x.stack = w.stack)
      fun _ => Within (.sequence :: levels) := by
  obtain ⟨hn, hf⟩ := h.filled hadm hpos
  have hwrapped : Runs (do
      let opened ← openAt pos
      push (.sequence item (some opened.1) opened.2)) (fun x => x.stack = w.stack)
        fun _ => Within (.sequence :: levels) := by
    refine runs_bind (h.runs_openAt hadm hpos) ?_
    rintro ⟨name, b⟩ x ⟨hs, -⟩
    exact .inl ⟨(), _, rfl, within_of_nested (.wrapped (hs ▸ hn) hf) (by simp)⟩
  cases flattened with
  | false => exact hwrapped
  | true =>
    -- a flattened sequence begins no element, and what is held back stays held back
    obtain ⟨name, rfl⟩ := hflat rfl
    rintro x hs
    have hne : levels ≠ [] := by
      cases hadm
      simp
    exact .inl ⟨(), _, rfl, within_of_nested (.flattened (hs ▸ hn) hf hne) (by simp)⟩

theorem Keeps.beginMapping (h : Keeps st w) (hadm : st.Admits pos (.within levels))
    (hpos : pos.Structured) :
    Runs (Writer.beginContainer pos .mapping) (fun x => x.stack = w.stack)
      fun _ => Within (.mapping :: levels) := by
  obtain ⟨hn, hf⟩ := h.filled hadm hpos
  refine runs_bind (h.runs_openAt hadm hpos) ?_
  rintro ⟨name, b⟩ x ⟨hs, -⟩
  exact .inl ⟨(), _, rfl, within_of_nested (.mapping (hs ▸ hn) hf) (by simp)⟩

/-- So does what takes the innermost frame away and ends its element. -/
theorem runs_within_of_closeTag {prog : Writing Writer Unit} {top : OpenElement}
    (hs : w.stack = top :: stack)
    (hn : Nested levels stack) (hf : Filled levels) {name : String} {b : Bool}
    (hprog : ∀ out pending,
      prog ⟨out, pending, top :: stack⟩ = closeTag name b ⟨out, pending, stack⟩) :
    Runs prog (fun x => x = w) fun _ => Within levels := by
  obtain ⟨out, pending, _⟩ := w
  subst hs
  rintro _ rfl
  rw [hprog]
  exact runs_closeTag_within hn hf name b ⟨out, pending, stack⟩ rfl

theorem Within.endObject {bare : Bool} (h : Within (.object bare :: levels) w) :
    Runs Writer.endObject (fun x => x = w) fun _ => Within levels := by
  obtain ⟨name, b, rest, hs, hn, hf⟩ := h.nested.of_object
  exact runs_within_of_closeTag hs hn hf fun _ _ => rfl

theorem Within.endSequence (h : Within (.sequence :: levels) w) :
    Runs Writer.endContainer (fun x => x = w) fun _ => Within levels := by
  obtain ⟨item, wrapper, b, rest, hs, hn, hf, hne⟩ := h.nested.of_sequence
  rcases wrapper with _ | name
  · obtain ⟨out, pending, _⟩ := w
    subst hs
    rintro _ rfl
    exact .inl ⟨(), ⟨out, pending, rest⟩, rfl, hn, fun r hr => absurd hr (hf r),
      fun hl => absurd hl (hne rfl)⟩
  · exact runs_within_of_closeTag hs hn hf fun _ _ => rfl

theorem Within.endMapping (h : Within (.mapping :: levels) w) :
    Runs Writer.endContainer (fun x => x = w) fun _ => Within levels := by
  obtain ⟨name, b, rest, hs, hn, hf⟩ := h.nested.of_mapping
  exact runs_within_of_closeTag hs hn hf fun _ _ => rfl

/-- An attribute is put on the start tag of the innermost object, which stays bare. -/
theorem Within.putAttribute (h : Within (.object true :: levels) w) (name value : String) :
    Runs (Writer.putAttribute name value) (fun x => x = w)
      fun _ => Within (.object true :: levels) := by
  obtain ⟨tag, b, rest, hp, hs⟩ := h.bare _ rfl
  have hnested := h.nested
  obtain ⟨out, _, _⟩ := w
  subst hp hs
  refine runs_bind (runs_checkName name) fun _ => ?_
  rintro _ rfl
  exact .inl ⟨(), _, rfl, hnested, fun _ _ => ⟨_, b, rest, rfl, rfl⟩, nofun⟩

theorem Keeps.scalar (h : Keeps st w) (hadm : st.Admits pos st') (token : Token) :
    Runs (Writer.scalar pos token) (fun x => x = w) fun _ => Keeps st' := by
  by_cases hpos : pos.Structured
  · obtain ⟨levels, rfl⟩ := hadm.exists_within
    obtain ⟨hn, hf⟩ := h.filled hadm hpos
    have hscalar : Writer.scalar pos token = (do
        let opened ← openAt pos
        flush
        emit (escape token.spelling)
        closeTag opened.1 opened.2) := by
      rcases pos with _ | ⟨name, _ | _⟩ | _ | _
      · rfl
      · rfl
      · exact absurd rfl (hpos name)
      · rfl
      · rfl
    rw [hscalar]
    refine runs_bind ((h.runs_openAt hadm hpos).weaken fun x hx => hx ▸ rfl) ?_
    rintro ⟨name, b⟩
    refine runs_bind (runs_flush.weaken fun x hx => hx.1) fun _ => runs_bind (runs_emit _) fun _ => ?_
    exact (runs_closeTag_within hn hf name b).weaken fun x hx => hx.1
  · obtain ⟨name, rfl⟩ : ∃ name, pos = .field name .attribute := by
      simpa [Position.Structured] using hpos
    cases hadm
    exact Within.putAttribute h name token.spelling

theorem Keeps.null (h : Keeps st w) (hadm : st.Admits pos st') :
    Runs (Writer.null pos) (fun x => x = w) fun _ => Keeps st' := by
  cases hadm with
  | root =>
    refine runs_pure fun x hx => ?_
    subst hx
    exact ⟨h.1 ▸ .nil, nofun, fun _ => h.2⟩
  | held => exact runs_pure fun x hx => hx ▸ h
  | field =>
    obtain ⟨name, b, rest, hs, hn, hf⟩ := h.nested.of_object
    refine runs_pure fun x hx => ?_
    subst hx
    exact within_of_nested (hs ▸ .object hn hf) (by simp)
  | item => exact runs_pure fun x hx => hx ▸ h
  | @entry levels key =>
    have hbegin : Runs (beginEntry key) (fun x => x = w) fun _ => Holds w.stack none :=
      (runs_beginEntry key).weaken fun x hx => hx ▸ rfl
    refine runs_bind hbegin fun _ => ?_
    exact fun x hx => .inl ⟨(), _, rfl, within_of_holds h.nested (by simp [Filled]) hx⟩

/-- **An event that may come** leads to the next stage, or fails at a name. -/
theorem Keeps.step (h : Keeps st w) (hstep : st.Step e st') :
    Runs (e.perform : Writing Writer Unit) (fun x => x = w) fun _ => Keeps st' := by
  cases hstep with
  | beginObject hadm hpos =>
    obtain ⟨levels, rfl⟩ := hadm.exists_within
    exact (h.beginObject hadm hpos).weaken fun x hx => hx ▸ rfl
  | endObject => exact Within.endObject h
  | beginSequence hadm hpos hflat =>
    obtain ⟨levels, rfl⟩ := hadm.exists_within
    exact (h.beginSequence hadm hpos _ _ hflat).weaken fun x hx => hx ▸ rfl
  | beginMapping hadm hpos =>
    obtain ⟨levels, rfl⟩ := hadm.exists_within
    exact (h.beginMapping hadm hpos).weaken fun x hx => hx ▸ rfl
  | endSequence => exact Within.endSequence h
  | endMapping => exact Within.endMapping h
  | scalar hadm _ => exact h.scalar hadm _
  | null hadm => exact h.null hadm

/-! ## Whole documents -/

open Sink

theorem keeps_start : Keeps .fresh (Sink.start : Writer) := ⟨rfl, rfl⟩

/-- Events that may come one after the other lead on, or fail at a name. -/
theorem Keeps.performAll {es : List Event} (hsteps : st.Steps es st') (h : Keeps st w) :
    Runs (Sink.performAll es : Writing Writer Unit) (fun x => x = w) fun _ => Keeps st' := by
  induction hsteps generalizing w with
  | nil => exact runs_pure fun x hx => hx ▸ h
  | cons hstep _ ih =>
    refine runs_bind (h.step hstep) fun _ x hx => ?_
    exact ih hx x rfl

end Marshal.Markup.Writer
