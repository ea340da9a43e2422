import Marshal.Proofs.Document.Conformance
import Marshal.Proofs.Markup.Events
import Marshal.Proofs.Markup.Grammar

/-!
# Names in what is written

Every call on the writer asks for at most one name (`Writer.asks`), and it fails at a name exactly when
that one does not pass (`Writer.failsAt_perform`). What is written is made of marks, the tags and texts
of a document, and a call leaves only names that pass in it, in the start tag that is held back and
among the elements that are open (`Writer.Proper.afterCall`). This holds after any calls whatever,
those that fail included (`Writer.names_checked`), and so of every document that is written
(`Document.marked_of_write`).
-/

namespace Marshal

namespace Markup

open Outcome

/-! ## Marks -/

/-- A piece of what is written. -/
inductive Mark where
  | declaration
  | opening (tag : Tag)
  | alone (tag : Tag)
  | closing (name : String)
  | text (s : String)

/-- A mark as it is written. -/
def Mark.spell : Mark → String
  | declaration => Writer.declaration
  | opening tag => tag.opening
  | alone tag => tag.alone
  | closing name => Markup.closing name
  | text s => escape s

/-- The names of elements and attributes in a mark. -/
def Mark.names : Mark → List String
  | opening tag | alone tag => tag.name :: tag.attributes.map Prod.fst
  | closing name => [name]
  | declaration | text _ => []

/-- **Written in marks**, and every name in them passes. -/
def Marked (s : String) : Prop :=
  ∃ marks : List Mark, s = String.join (marks.map Mark.spell) ∧
    ∀ m ∈ marks, ∀ n ∈ m.names, Passable n

theorem marked_empty : Marked "" := ⟨[], rfl, by simp⟩

theorem marked_spell {m : Mark} (h : ∀ n ∈ m.names, isName n = true) : Marked m.spell :=
  ⟨[m], by simp [String.join_cons], by simpa [← isName_iff_passable] using h⟩

theorem Marked.append {s s' : String} (h : Marked s) (h' : Marked s') : Marked (s ++ s') := by
  obtain ⟨marks, rfl, hm⟩ := h
  obtain ⟨marks', rfl, hm'⟩ := h'
  refine ⟨marks ++ marks', by rw [List.map_append, String.join_append], fun m hmem => ?_⟩
  exact (List.mem_append.1 hmem).elim (hm m) (hm' m)

theorem Tag.Named.marked_opening {t : Tag} (h : t.Named) : Marked t.opening :=
  marked_spell (m := .opening t) (by simpa [Mark.names] using ⟨h.1, fun n v ha => h.2 _ ha⟩)

theorem Tag.Named.marked_alone {t : Tag} (h : t.Named) : Marked t.alone :=
  marked_spell (m := .alone t) (by simpa [Mark.names] using ⟨h.1, fun n v ha => h.2 _ ha⟩)

theorem marked_closing {name : String} (h : isName name = true) : Marked (closing name) :=
  marked_spell (m := .closing name) (by simpa [Mark.names] using h)

theorem marked_escape (s : String) : Marked (escape s) :=
  marked_spell (m := .text s) (by simp [Mark.names])

theorem marked_declaration : Marked Writer.declaration :=
  marked_spell (m := .declaration) (by simp [Mark.names])

/-- The name of the element that is open. A flattened sequence has none. -/
def OpenElement.element? : OpenElement → Option String
  | object name _ => some name
  | sequence _ wrapper _ => wrapper
  | mapping name _ => some name

namespace Writer

/-! ## Names that are written -/

/-- **Every name in the writer passes**: in the text, in the tag held back, and of the open elements. -/
structure Proper (w : Writer) : Prop where
  out : Marked w.out
  pending : ∀ t, w.pending = some t → t.Named
  stack : ∀ e ∈ w.stack, ∀ n, e.element? = some n → isName n = true

/-- Writing that keeps a writer proper, also where it fails. -/
def Safe {α : Type} (m : Writing Writer α) (post : α → Prop) : Prop :=
  ∀ w, Proper w → match m w with
    | .ok a w' => Proper w' ∧ post a
    | .error _ w' => Proper w'

section Safe

variable {α β : Type} {m : Writing Writer α} {f : α → Writing Writer β} {post : α → Prop}
  {post' : β → Prop} {name : String} {pos : Position}

theorem safe_bind (hm : Safe m post) (hf : ∀ a, post a → Safe (f a) post') :
    Safe (m >>= f) post' := by
  intro w hw
  have hrun := hm w hw
  rcases h : m w with ⟨a, w'⟩ | ⟨e, w'⟩
  · rw [h] at hrun
    rw [run_bind h]
    exact hf a hrun.2 w' hrun.1
  · rw [h] at hrun
    rw [run_bind_error h]
    exact hrun

theorem safe_pure {a : α} (h : post a) : Safe (pure a) post := fun _ hw => ⟨hw, h⟩

theorem safe_throw (e : EncodeError) : Safe (throw e) post := fun _ hw => hw

theorem safe_emit {s : String} (h : Marked s) : Safe (emit s) fun _ => True :=
  fun _ hw => ⟨⟨hw.out.append h, hw.pending, hw.stack⟩, trivial⟩

theorem safe_checkName (name : String) : Safe (checkName name) fun _ => isName name = true := by
  rw [checkName]
  split
  · exact safe_pure (by assumption)
  · exact safe_throw _

theorem safe_flush : Safe flush fun _ => True := by
  rintro ⟨out, _ | tag, stack⟩ hw
  · exact ⟨hw, trivial⟩
  · exact ⟨⟨hw.out.append (hw.pending tag rfl).marked_opening, nofun, hw.stack⟩, trivial⟩

/-- A tag is held back when its names pass. -/
theorem safe_hold {t : Tag} (h : t.Named) :
    Safe (modify fun w => { w with pending := some t }) fun _ => True := by
  intro w hw
  refine ⟨⟨hw.out, ?_, hw.stack⟩, trivial⟩
  rintro _ ⟨⟩
  exact h

theorem safe_openTag (name : String) : Safe (openTag name) fun _ => isName name = true := by
  refine safe_bind (safe_checkName name) fun _ hn => safe_bind safe_flush fun _ _ w hw => ?_
  exact ⟨(safe_hold ⟨hn, by simp⟩ w hw).1, hn⟩

theorem safe_closeTag (hn : isName name = true) (closesEntry : Bool) :
    Safe (closeTag name closesEntry) fun _ => True := by
  have hentry : Safe (if closesEntry then emit "</entry>" else pure ()) fun _ => True := by
    cases closesEntry
    · exact safe_pure trivial
    · exact safe_emit (marked_closing (by decide : isName "entry" = true))
  rintro ⟨out, _ | tag, stack⟩ hw
  · exact safe_bind (safe_emit (marked_closing hn)) (fun _ _ => hentry) _ hw
  · have hflushed : Proper ⟨out, none, stack⟩ := ⟨hw.out, nofun, hw.stack⟩
    have htag := (hw.pending tag rfl).marked_alone
    exact safe_bind (safe_emit htag) (fun _ _ => hentry) _ hflushed

theorem safe_textElement (name s : String) : Safe (textElement name s) fun _ => True :=
  safe_bind (safe_openTag name) fun _ hn => safe_bind safe_flush fun _ _ =>
    safe_bind (safe_emit (marked_escape s)) fun _ _ => safe_closeTag hn false

theorem safe_beginEntry (key : String) : Safe (beginEntry key) fun _ => True := by
  have hentry : Tag.Named ⟨"entry", []⟩ := ⟨by decide, by simp⟩
  exact safe_bind safe_flush fun _ _ => safe_bind (safe_emit hentry.marked_opening) fun _ _ =>
    safe_textElement "key" key

theorem safe_itemName : Safe itemName fun _ => True := by
  rintro ⟨out, pending, _ | ⟨_ | _ | _, stack⟩⟩ hw
  · exact hw
  · exact hw
  · exact ⟨hw, trivial⟩
  · exact hw

/-- **An element that is begun** has a name that passes. -/
theorem safe_openAt (pos : Position) : Safe (openAt pos) fun a => isName a.1 = true := by
  rcases pos with ⟨name, ns⟩ | ⟨name, _ | _⟩ | _ | key
  · refine safe_bind (safe_checkName name) fun _ hn => ?_
    refine safe_bind (safe_emit marked_declaration) fun _ _ => ?_
    refine safe_bind (safe_openTag name) fun _ _ => ?_
    rcases ns with _ | ns
    · exact safe_pure hn
    · refine safe_bind (safe_hold ⟨hn, ?_⟩) fun _ _ => safe_pure hn
      simpa using isName_xmlns
  · exact safe_bind (safe_openTag name) fun _ hn => safe_pure hn
  · exact safe_throw _
  · exact safe_bind safe_itemName fun a _ => safe_bind (safe_openTag a) fun _ hn => safe_pure hn
  · exact safe_bind (safe_beginEntry key) fun _ _ =>
      safe_bind (safe_openTag "value") fun _ hn => safe_pure hn

theorem safe_push {e : OpenElement} (h : ∀ n, e.element? = some n → isName n = true) :
    Safe (push e) fun _ => True :=
  fun _ hw => ⟨⟨hw.out, hw.pending, List.forall_mem_cons.2 ⟨h, hw.stack⟩⟩, trivial⟩

theorem safe_pop :
    Safe pop fun top => ∀ e, top = some e → ∀ n, e.element? = some n → isName n = true := by
  rintro ⟨out, pending, _ | ⟨e, stack⟩⟩ hw
  · exact ⟨hw, nofun⟩
  · obtain ⟨he, hstack⟩ := List.forall_mem_cons.1 hw.stack
    exact ⟨⟨hw.out, hw.pending, hstack⟩, fun _ h => Option.some.inj h ▸ he⟩

/-! ### Calls -/

theorem safe_beginObject (pos : Position) : Safe (Writer.beginObject pos) fun _ => True := by
  refine safe_bind (safe_openAt pos) fun a ha => safe_push fun n hn => ?_
  rwa [← Option.some.inj hn]

theorem safe_endObject : Safe Writer.endObject fun _ => True := by
  refine safe_bind safe_pop fun top htop => ?_
  rcases top with _ | ⟨name, closesEntry⟩ | _ | _
  · exact safe_throw _
  · exact safe_closeTag (htop _ rfl name rfl) closesEntry
  · exact safe_throw _
  · exact safe_throw _

/-- A structure with an element of its own is begun. -/
theorem safe_beginStructure (pos : Position) {e : String × Bool → OpenElement}
    (he : ∀ a, (e a).element? = some a.1) :
    Safe (do let a ← openAt pos; push (e a)) fun _ => True := by
  refine safe_bind (safe_openAt pos) fun a ha => safe_push fun n hn => ?_
  rwa [← Option.some.inj ((he a).symm.trans hn)]

theorem safe_beginContainer (pos : Position) (container : Container) :
    Safe (Writer.beginContainer pos container) fun _ => True := by
  rcases container with ⟨item, _ | _⟩ | _
  · exact safe_beginStructure pos fun _ => rfl
  · cases pos with
    | field => exact safe_push nofun
    | _ => exact safe_beginStructure _ fun _ => rfl
  · exact safe_beginStructure pos fun _ => rfl

theorem safe_endContainer : Safe Writer.endContainer fun _ => True := by
  refine safe_bind safe_pop fun top htop => ?_
  rcases top with _ | _ | ⟨item, _ | name, closesEntry⟩ | ⟨name, closesEntry⟩
  · exact safe_throw _
  · exact safe_throw _
  · exact safe_pure trivial
  · exact safe_closeTag (htop _ rfl name rfl) closesEntry
  · exact safe_closeTag (htop _ rfl name rfl) closesEntry

theorem safe_putAttribute (name value : String) :
    Safe (Writer.putAttribute name value) fun _ => True := by
  refine safe_bind (safe_checkName name) fun _ hn => ?_
  rintro ⟨out, _ | tag, stack⟩ hw
  · exact hw
  · obtain ⟨htag, hattributes⟩ := hw.pending tag rfl
    refine safe_hold (t := ⟨tag.name, tag.attributes ++ [(name, value)]⟩) ⟨htag, fun a ha => ?_⟩ _ hw
    rcases List.mem_append.1 ha with ha | ha
    · exact hattributes a ha
    · rwa [List.mem_singleton.1 ha]

/-- The element of a scalar. -/
theorem safe_scalarElement (pos : Position) (s : String) :
    Safe (do
      let a ← openAt pos
      flush
      emit (escape s)
      closeTag a.1 a.2) fun _ => True :=
  safe_bind (safe_openAt pos) fun a ha => safe_bind safe_flush fun _ _ =>
    safe_bind (safe_emit (marked_escape s)) fun _ _ => safe_closeTag ha a.2

theorem safe_scalar (pos : Position) (t : Token) : Safe (Writer.scalar pos t) fun _ => True := by
  rcases pos with _ | ⟨name, _ | _⟩ | _ | _
  case field.attribute => exact safe_putAttribute name t.spelling
  all_goals exact safe_scalarElement _ t.spelling

theorem safe_null (pos : Position) : Safe (Writer.null pos) fun _ => True := by
  cases pos with
  | entry key =>
    exact safe_bind (safe_beginEntry key) fun _ _ =>
      safe_emit (marked_closing (by decide : isName "entry" = true))
  | _ => exact safe_pure trivial

/-- **A call keeps the writer proper.** -/
theorem safe_perform (e : Sink.Event) : Safe (e.perform : Writing Writer Unit) fun _ => True := by
  cases e with
  | beginObject pos => exact safe_beginObject pos
  | endObject => exact safe_endObject
  | beginContainer pos container => exact safe_beginContainer pos container
  | endContainer => exact safe_endContainer
  | scalar pos t => exact safe_scalar pos t
  | null pos => exact safe_null pos

end Safe

/-! ## Names at which writing fails -/

/-- The name that an error is about. -/
def nameOfError : EncodeError → Option String
  | .invalidName name .xml => some name
  | _ => none

/-- The name at which writing fails, if it fails at one. -/
def failsAt {α : Type} (m : Writing Writer α) (w : Writer) : Option String :=
  match m w with
  | .ok _ _ => none
  | .error e _ => nameOfError e

/-- Writing that fails at no name. -/
def Quiet {α : Type} (m : Writing Writer α) : Prop := ∀ w, failsAt m w = none

section FailsAt

variable {α β : Type} {m : Writing Writer α} {f : α → Writing Writer β} {w w' : Writer} {a : α}
  {e : EncodeError} {name : String} {pos : Position}

theorem nameOfError_eq_some_iff : nameOfError e = some name ↔ e = .invalidName name .xml := by
  unfold nameOfError
  split
  · simp
  · rename_i h
    exact ⟨nofun, fun he => absurd he (h name)⟩

theorem failsAt_of_ok (h : m w = .ok a w') : failsAt m w = none := by
  rw [failsAt, h]

theorem failsAt_of_error (h : m w = .error e w') : failsAt m w = nameOfError e := by
  rw [failsAt, h]

theorem failsAt_eq_some_iff :
    failsAt m w = some name ↔ ∃ w', m w = .error (.invalidName name .xml) w' := by
  rcases h : m w with ⟨a, w'⟩ | ⟨e, w'⟩
  · simp [failsAt_of_ok h]
  · simp [failsAt_of_error h, nameOfError_eq_some_iff]

theorem failsAt_bind_of_ok (h : m w = .ok a w') : failsAt (m >>= f) w = failsAt (f a) w' := by
  rw [failsAt, run_bind h, failsAt]

theorem failsAt_bind_of_error (h : m w = .error e w') : failsAt (m >>= f) w = nameOfError e :=
  failsAt_of_error (run_bind_error h)

/-- Where what comes after fails at no name, the whole fails at the name of the first step. -/
theorem failsAt_bind (hf : ∀ a, Quiet (f a)) : failsAt (m >>= f) w = failsAt m w := by
  rcases h : m w with ⟨a, w'⟩ | ⟨e, w'⟩
  · rw [failsAt_bind_of_ok h, hf a w', failsAt_of_ok h]
  · rw [failsAt_bind_of_error h, failsAt_of_error h]

theorem Quiet.bind (hm : Quiet m) (hf : ∀ a, Quiet (f a)) : Quiet (m >>= f) :=
  fun w => (failsAt_bind hf).trans (hm w)

theorem quiet_pure : Quiet (pure a : Writing Writer α) := fun _ => rfl

theorem quiet_modify (g : Writer → Writer) : Quiet (modify g : Writing Writer Unit) := fun _ => rfl

theorem quiet_emit (s : String) : Quiet (emit s) := fun _ => rfl

theorem quiet_push (e : OpenElement) : Quiet (push e) := fun _ => rfl

theorem quiet_sinkState (fault : SinkFault) :
    Quiet (throw (.sinkState fault) : Writing Writer α) := fun _ => rfl

theorem quiet_flush : Quiet flush := by
  rintro ⟨out, _ | tag, stack⟩ <;> rfl

theorem quiet_closeTag (name : String) (closesEntry : Bool) : Quiet (closeTag name closesEntry) := by
  rintro ⟨out, _ | tag, stack⟩ <;> cases closesEntry <;> rfl

theorem checkName_of_not (h : isName name = false) :
    checkName name w = .error (.invalidName name .xml) w := by
  rw [checkName, if_neg (Bool.eq_false_iff.1 h)]
  rfl

theorem failsAt_checkName :
    failsAt (checkName name) w = (some name).filter fun n => !isName n := by
  cases hn : isName name with
  | true =>
    rw [checkName, if_pos hn]
    simp [failsAt_of_ok (rfl : (pure () : Writing Writer Unit) w = _), Option.filter, hn]
  | false =>
    rw [failsAt_of_error (checkName_of_not hn)]
    simp [nameOfError, Option.filter, hn]

theorem failsAt_openTag : failsAt (openTag name) w = (some name).filter fun n => !isName n := by
  rw [← failsAt_checkName (w := w)]
  exact failsAt_bind fun _ => quiet_flush.bind fun _ => quiet_modify _

/-- Beginning an element whose name passes fails at no name. -/
theorem quiet_openTag (h : isName name = true) : Quiet (openTag name) := by
  intro w
  simp [failsAt_openTag, h]

theorem quiet_beginEntry (key : String) : Quiet (beginEntry key) :=
  quiet_flush.bind fun _ => (quiet_emit _).bind fun _ =>
    (quiet_openTag (by decide)).bind fun _ => quiet_flush.bind fun _ =>
      (quiet_emit _).bind fun _ => quiet_closeTag _ _

theorem quiet_pop : Quiet pop := by
  rintro ⟨out, pending, _ | ⟨e, stack⟩⟩ <;> rfl

/-! ### What a call asks for -/

/-- The name of the element that is begun at a position, but for the fixed names of entries. -/
def asksAt (w : Writer) : Position → Option String
  | .root name _ => some name
  | .field name .element => some name
  | .field _ .attribute => none
  | .item =>
    match w.stack with
    | .sequence item _ _ :: _ => some item
    | _ => none
  | .entry _ => none

/-- **The name that a call asks for**, of an element or attribute that it would begin. -/
def asks (w : Writer) : Sink.Event → Option String
  | .beginContainer (.field _ _) (.sequence _ true) => none
  | .beginObject pos | .beginContainer pos _ => w.asksAt pos
  | .scalar (.field name .attribute) _ => some name
  | .scalar pos _ => w.asksAt pos
  | .endObject | .endContainer | .null _ => none

theorem failsAt_openAt : failsAt (openAt pos) w = (w.asksAt pos).filter fun n => !isName n := by
  rcases pos with ⟨name, ns⟩ | ⟨name, _ | _⟩ | _ | key
  · -- the name is checked twice, and the second time it passes
    rw [asksAt, ← failsAt_checkName (w := w)]
    cases hn : isName name with
    | false =>
      exact (failsAt_bind_of_error (checkName_of_not hn)).trans
        (failsAt_of_error (checkName_of_not hn)).symm
    | true =>
      refine failsAt_bind fun _ => (quiet_emit _).bind fun _ => (quiet_openTag hn).bind fun _ => ?_
      rcases ns with _ | ns
      · exact quiet_pure
      · exact (quiet_modify _).bind fun _ => quiet_pure
  · rw [asksAt, ← failsAt_openTag (w := w)]
    exact failsAt_bind fun _ => quiet_pure
  · rfl
  · obtain ⟨out, pending, _ | ⟨_ | ⟨item, wrapper, b⟩ | _, stack⟩⟩ := w
    · rfl
    · rfl
    · rw [asksAt, ← failsAt_openTag (w := ⟨out, pending, .sequence item wrapper b :: stack⟩)]
      refine (failsAt_bind_of_ok (rfl : itemName _ = .ok item _)).trans ?_
      exact failsAt_bind fun _ => quiet_pure
    · rfl
  · exact ((quiet_beginEntry key).bind fun _ => (quiet_openTag (by decide)).bind fun _ =>
      quiet_pure) w

theorem failsAt_beginContainer (container : Container) :
    failsAt (Writer.beginContainer pos container) w =
      (w.asks (.beginContainer pos container)).filter fun n => !isName n := by
  have hopen : ∀ e : String × Bool → OpenElement,
      failsAt (do let a ← openAt pos; push (e a)) w =
        (w.asksAt pos).filter fun n => !isName n := fun e => by
    rw [← failsAt_openAt]
    exact failsAt_bind fun a => quiet_push (e a)
  rcases container with ⟨item, _ | _⟩ | _
  · cases pos <;> exact hopen _
  · cases pos with
    | field => rfl
    | _ => exact hopen _
  · cases pos <;> exact hopen _

theorem failsAt_scalar (t : Token) :
    failsAt (Writer.scalar pos t) w = (w.asks (.scalar pos t)).filter fun n => !isName n := by
  rcases pos with _ | ⟨name, _ | _⟩ | _ | _
  case field.attribute =>
    rw [asks, ← failsAt_checkName (w := w)]
    refine failsAt_bind fun _ => ?_
    rintro ⟨out, _ | tag, stack⟩ <;> rfl
  all_goals
    rw [asks, ← failsAt_openAt]
    · exact failsAt_bind fun a => quiet_flush.bind fun _ => (quiet_emit _).bind fun _ =>
        quiet_closeTag a.1 a.2
    all_goals nofun

theorem quiet_endObject : Quiet Writer.endObject := by
  refine quiet_pop.bind fun top => ?_
  rcases top with _ | _ | _ | _
  · exact quiet_sinkState _
  · exact quiet_closeTag _ _
  · exact quiet_sinkState _
  · exact quiet_sinkState _

theorem quiet_endContainer : Quiet Writer.endContainer := by
  refine quiet_pop.bind fun top => ?_
  rcases top with _ | _ | ⟨_, _ | _, _⟩ | _
  · exact quiet_sinkState _
  · exact quiet_sinkState _
  · exact quiet_pure
  · exact quiet_closeTag _ _
  · exact quiet_closeTag _ _

/-- **A call fails at a name** exactly when it asks for one that does not pass. -/
theorem failsAt_perform (e : Sink.Event) :
    failsAt (e.perform : Writing Writer Unit) w = (w.asks e).filter fun n => !isName n := by
  cases e with
  | beginObject pos =>
    rw [asks, ← failsAt_openAt]
    exact failsAt_bind fun a => quiet_push _
  | endObject => exact quiet_endObject w
  | beginContainer pos container => exact failsAt_beginContainer container
  | endContainer => exact quiet_endContainer w
  | scalar pos t => exact failsAt_scalar t
  | null pos =>
    cases pos with
    | entry key => exact (quiet_beginEntry key).bind (fun _ => quiet_emit _) w
    | _ => rfl

end FailsAt

/-! ## Any calls -/

/-- The writer after a call, whether or not the call failed. -/
def afterCall (w : Writer) (e : Sink.Event) : Writer :=
  match (e.perform : Writing Writer Unit) w with
  | .ok _ w' => w'
  | .error _ w' => w'

/-- The writer after calls from the start. -/
def after (es : List Sink.Event) : Writer := es.foldl afterCall Sink.start

theorem Proper.afterCall {w : Writer} (h : w.Proper) (e : Sink.Event) : (w.afterCall e).Proper := by
  have hsafe := safe_perform e w h
  rw [Writer.afterCall]
  rcases hrun : (e.perform : Writing Writer Unit) w with ⟨u, w'⟩ | ⟨f, w'⟩
  · rw [hrun] at hsafe
    exact hsafe.1
  · rw [hrun] at hsafe
    exact hsafe

theorem Proper.calls {w : Writer} (h : w.Proper) (es : List Sink.Event) :
    (es.foldl Writer.afterCall w).Proper := by
  induction es generalizing w with
  | nil => exact h
  | cons e es ih => exact ih (h.afterCall e)

theorem proper_start : Proper Sink.start := ⟨marked_empty, nofun, nofun⟩

/-- **After any calls** the writer is proper. -/
theorem proper_after (es : List Sink.Event) : (after es).Proper := proper_start.calls es

/-- **The writer and its check of names**: after any calls, a further call fails at a name exactly
when it asks for it and it is not passable, and what has been written is made of tags and texts in
which every name is. A passable text is no name by the production exactly if it has a stray character,
and a name by the production is not passable exactly if it has an odd one. -/
theorem names_checked (es : List Sink.Event) (e : Sink.Event) (n : String) :
    ((∃ w, e.perform (after es) = .error (.invalidName n .xml) w) ↔
      (after es).asks e = some n ∧ ¬ Passable n) ∧
    Marked (after es).out ∧
    (isName n = true ↔ Passable n) ∧
    (Passable n ∧ ¬ Grammar.IsName n ↔ Passable n ∧ Somewhere IsStrayStart IsStrayRest n) ∧
    (Grammar.IsName n ∧ ¬ Passable n ↔ Grammar.IsName n ∧ Somewhere IsOddStart IsOddRest n) := by
  refine ⟨?_, (proper_after es).out, isName_iff_passable,
    and_congr_right fun h => h.not_isName_iff, and_congr_right fun h => h.not_passable_iff⟩
  rw [← failsAt_eq_some_iff, failsAt_perform, Option.filter_eq_some_iff, ← isName_iff_passable]
  simp

/-- An element whose name has an accent is refused, though the production has it. -/
theorem names_checked_accent :
    Grammar.IsName "a\u0301" ∧
      ∃ w, (Sink.Event.scalar (.field "a\u0301" .element) (.text "x")).perform
        (after [.beginObject (.root "Page" none)]) = .error (.invalidName "a\u0301" .xml) w := by
  obtain ⟨hfails, -, hpass, -⟩ := names_checked [.beginObject (.root "Page" none)]
    (.scalar (.field "a\u0301" .element) (.text "x")) "a\u0301"
  have hname : isName "a\u0301" = false := by decide +kernel
  refine ⟨by decide, hfails.2 ⟨rfl, ?_⟩⟩
  rw [← hpass, hname]
  exact Bool.false_ne_true

/-! ## Calls up to the first that fails -/

theorem safe_performAll (es : List Sink.Event) :
    Safe (Sink.performAll es : Writing Writer Unit) fun _ => True := by
  induction es with
  | nil => exact safe_pure trivial
  | cons e es ih => exact safe_bind (safe_perform e) fun _ _ => ih

/-- Calls that fail at a name fail at one that does not pass. -/
theorem not_passable_of_performAll {es : List Sink.Event} {w w' : Writer} {n : String}
    (h : (Sink.performAll es : Writing Writer Unit) w = .error (.invalidName n .xml) w') :
    ¬ Passable n := by
  induction es generalizing w with
  | nil => cases h
  | cons e es ih =>
    rcases hrun : (e.perform : Writing Writer Unit) w with ⟨u, w₁⟩ | ⟨f, w₁⟩
    · exact ih ((run_bind hrun).symm.trans h)
    · obtain ⟨rfl, -⟩ := EStateM.Result.error.inj ((run_bind_error hrun).symm.trans h)
      have hfails := failsAt_eq_some_iff.2 ⟨w₁, hrun⟩
      rw [failsAt_perform, Option.filter_eq_some_iff] at hfails
      rw [← isName_iff_passable]
      simpa using hfails.2

end Writer

end Markup

namespace Document

open Markup

/-- **Every name in a document passes**, and writing that fails at a name fails at one that does not. -/
theorem marked_of_write {c : Catalogue} {cancelled : Bool} {plans : PlanSet} (hc : c.Reachable)
    (hs : c.planAll .xml cancelled = .ok plans) (i : Instance) :
    (∀ doc, write .xml plans i = .ok doc → Marked doc) ∧
      ∀ n, write .xml plans i = .error (.invalidName n .xml) → ¬ Passable n := by
  have hformat := (Catalogue.planAll_spec hc hs).format
  obtain ⟨es, out, -, henc, -, -, hown⟩ :=
    Encode.root_conducts (Catalogue.followable_of_planAll hc hs) i
  have hsafe := Writer.safe_performAll es _ Writer.proper_start
  rw [write, if_pos hformat]
  rcases hrun : (Sink.performAll es : Writing Writer Unit) Sink.start with ⟨u, w⟩ | ⟨e, w⟩
  · rw [hrun] at hsafe
    rcases out with e | ⟨⟩
    · rw [encode_of_error (henc _) hrun]
      refine ⟨nofun, fun n he => ?_⟩
      obtain rfl := Except.error.inj he
      exact absurd (hown _ rfl) id
    · rw [encode_of_ok (henc _) hrun]
      refine ⟨fun doc hdoc => ?_, fun n hdoc => ?_⟩
      · simp only [Sink.finish] at hdoc
        split at hdoc
        · obtain rfl := Except.ok.inj hdoc
          exact hsafe.1.out
        · cases hdoc
      · simp only [Sink.finish] at hdoc
        split at hdoc <;> cases hdoc
  · rw [encode_of_performAll_error (henc _) hrun]
    refine ⟨nofun, fun n he => ?_⟩
    obtain rfl := Except.error.inj he
    exact Writer.not_passable_of_performAll hrun

end Document

end Marshal
