import Marshal.Document
import Marshal.Proofs.Json.Conformance
import Marshal.Proofs.Markup.Conformance
import Marshal.Proofs.Wire.Conduct

/-!
# Writers are never misused

Along the plans of a sealed catalogue every event finds the writer of either format in a state that
it needs, whatever is written and whether or not it can be written to the end (`exists_conducted`).
So what makes encoding fail is the value, or in markup a name (`encode_xml_cases`,
`encode_json_cases`).
-/

namespace Marshal

open Outcome Sink

variable {s : PlanSet}

/-! ## The outcome of encoding -/

section Encode

variable {σ : Type} [Sink σ] {i : Instance} {es : List Event} {e : EncodeError} {w : σ}

theorem encode_of_ok (h : Encode.root (σ := σ) s i = do performAll es; Writing.lift (.ok ()))
    (hw : performAll es (Sink.start : σ) = .ok () w) : encode σ s i = Sink.finish w := by
  have hroot : Encode.root (σ := σ) s i Sink.start = .ok () w := by
    rw [h]
    exact run_bind hw
  rw [encode, hroot]

theorem encode_of_root_error (h : Encode.root (σ := σ) s i Sink.start = .error e w) :
    encode σ s i = .error e := by
  rw [encode, h]

theorem encode_of_error (h : Encode.root (σ := σ) s i = do performAll es; Writing.lift (.error e))
    (hw : performAll es (Sink.start : σ) = .ok () w) : encode σ s i = .error e :=
  encode_of_root_error (h ▸ run_bind hw)

theorem encode_of_performAll_error {out : Except EncodeError Unit}
    (h : Encode.root (σ := σ) s i = do performAll es; Writing.lift out)
    (hw : performAll es (Sink.start : σ) = .error e w) : encode σ s i = .error e :=
  encode_of_root_error (h ▸ run_bind_error hw)

end Encode

namespace Document

/-- **What it is for the encoder to drive the writers as they must be driven**: it makes the same
events in any sink, each finds the writer ready, and after the last one nothing is open. -/
structure Conducted (f : Format) (s : PlanSet) (i : Instance) (es : List Event)
    (out : Except EncodeError Unit) : Prop where
  /-- Encoding is to make the events in order and then to end as the outcome says. -/
  encodes : ∀ (σ : Type) [Sink σ],
    Encode.root (σ := σ) s i = do performAll es; Writing.lift out
  /-- In markup, every event is made in a state that allows it. -/
  markup : ∀ before e after, es = before ++ e :: after →
    ∀ w, performAll before (Sink.start : Markup.Writer) = .ok () w → w.Ready e
  /-- In the end no element is open and no start tag is held back. -/
  markupEnd : out = .ok () →
    ∀ w, performAll es (Sink.start : Markup.Writer) = .ok () w → w.stack = [] ∧ w.pending = none
  /-- In JSON, every event is made in a state that allows it. -/
  json : ∀ before e after, es = before ++ e :: after →
    ∃ w, performAll before (Sink.start : Json.Writer) = .ok () w ∧ w.Ready e
  /-- In the end nothing is open, and there is a root. -/
  jsonEnd : out = .ok () →
    ∃ w, performAll es (Sink.start : Json.Writer) = .ok () w ∧ w.stack = [] ∧ w.root.isSome = true
  /-- The writers never find that they are in a wrong state. -/
  noFault : ∀ fault, write f s i ≠ .error (.sinkState fault)
  /-- No attribute comes too late. -/
  noLateAttribute : ∀ name, write f s i ≠ .error (.attributeAfterContent name)

variable {i : Instance} {es : List Event} {st : Stage}

theorem markup_ready (h : Stage.fresh.Steps es st) {before after : List Event} {e : Event}
    (he : es = before ++ e :: after) {w : Markup.Writer}
    (hw : performAll before (Sink.start : Markup.Writer) = .ok () w) : w.Ready e := by
  subst he
  obtain ⟨st₁, hbefore, hrest⟩ := h.of_append
  rcases Markup.Writer.keeps_start.performAll hbefore _ rfl with ⟨_, w', hw', hk⟩ | ⟨_, _, herr⟩
  · obtain ⟨-, rfl⟩ := EStateM.Result.ok.inj (hw.symm.trans hw')
    cases hrest with
    | cons hstep _ => exact hk.ready hstep
  · cases hw.symm.trans herr

theorem json_ready (h : Stage.fresh.Steps es st) {before after : List Event} {e : Event}
    (he : es = before ++ e :: after) :
    ∃ w, performAll before (Sink.start : Json.Writer) = .ok () w ∧ w.Ready e := by
  subst he
  obtain ⟨st₁, hbefore, hrest⟩ := h.of_append
  obtain ⟨w, hw, hk⟩ := Json.Writer.keeps_start.performAll hbefore
  cases hrest with
  | cons hstep _ => exact ⟨w, hw, hk.ready hstep⟩

/-- **Encoding into markup** succeeds, or fails at a name or with an error of the encoder. -/
theorem encode_xml_cases (hs : s.Followable) (i : Instance) :
    (∃ doc, encode Markup.Writer s i = .ok doc) ∨
      (∃ name, encode Markup.Writer s i = .error (.invalidName name .xml)) ∨
        ∃ e, encode Markup.Writer s i = .error e ∧ Encode.OwnError s i.toValue e := by
  obtain ⟨es, out, st, henc, hsteps, hok, herr⟩ := Encode.root_conducts hs i
  rcases Markup.Writer.keeps_start.performAll hsteps _ rfl with ⟨⟨⟩, w, hw, hk⟩ | ⟨name, w, hw⟩
  · rcases out with e | ⟨⟩
    · exact .inr (.inr ⟨e, encode_of_error (henc _) hw, herr e rfl⟩)
    · obtain rfl := hok rfl
      have hn := hk.nested
      rw [encode_of_ok (henc _) hw]
      obtain ⟨out, pending, stack⟩ := w
      obtain rfl : pending = none := hk.closed rfl
      cases hn
      exact .inl ⟨_, rfl⟩
  · exact .inr (.inl ⟨name, encode_of_performAll_error (henc _) hw⟩)

/-- **Encoding into JSON** succeeds, or fails with an error of the encoder. -/
theorem encode_json_cases (hs : s.Followable) (i : Instance) :
    (∃ doc, encode Json.Writer s i = .ok doc) ∨
      ∃ e, encode Json.Writer s i = .error e ∧ Encode.OwnError s i.toValue e := by
  obtain ⟨es, out, st, henc, hsteps, hok, herr⟩ := Encode.root_conducts hs i
  obtain ⟨w, hw, hk⟩ := Json.Writer.keeps_start.performAll hsteps
  rcases out with e | ⟨⟩
  · exact .inr ⟨e, encode_of_error (henc _) hw, herr e rfl⟩
  · obtain rfl := hok rfl
    obtain ⟨hn, hr⟩ := hk
    rw [encode_of_ok (henc _) hw]
    obtain ⟨stack, root⟩ := w
    cases hn
    rcases root with _ | j
    · exact absurd rfl (hr.1 rfl)
    · exact .inl ⟨_, rfl⟩

/-- What writing a document along plans for its format fails with. -/
theorem ownError_of_write {f : Format} (hf : s.format = f) (hs : s.Followable) {e : EncodeError}
    (h : write f s i = .error e) :
    Encode.OwnError s i.toValue e ∨ ∃ name, e = .invalidName name .xml := by
  unfold write at h
  rw [if_pos hf] at h
  cases f with
  | json =>
    rcases encode_json_cases hs i with ⟨doc, hd⟩ | ⟨e', he, hown⟩
    · cases hd.symm.trans h
    · obtain rfl := Except.error.inj (he.symm.trans h)
      exact .inl hown
  | xml =>
    rcases encode_xml_cases hs i with ⟨doc, hd⟩ | ⟨name, hn⟩ | ⟨e', he, hown⟩
    · cases hd.symm.trans h
    · exact .inr ⟨name, (Except.error.inj (hn.symm.trans h)).symm⟩
    · obtain rfl := Except.error.inj (he.symm.trans h)
      exact .inl hown

/-- **Writers are driven as they must be**, along the plans of a reachable catalogue, with whatever
is given to write. -/
theorem exists_conducted {c : Catalogue} (hc : c.Reachable) {f : Format} {cancelled : Bool}
    (hs : c.planAll f cancelled = .ok s) (i : Instance) : ∃ es out, Conducted f s i es out := by
  have hfollow := Catalogue.followable_of_planAll hc hs
  have hformat := (Catalogue.planAll_spec hc hs).format
  obtain ⟨es, out, st, henc, hsteps, hok, -⟩ := Encode.root_conducts hfollow i
  exact ⟨es, out,
    { encodes := henc
      markup := fun before e after he w hw => markup_ready hsteps he hw
      markupEnd := fun hout w hw => by
        obtain rfl := hok hout
        rcases Markup.Writer.keeps_start.performAll hsteps _ rfl with ⟨_, w', hw', hk⟩ | ⟨_, _, herr⟩
        · obtain ⟨-, rfl⟩ := EStateM.Result.ok.inj (hw.symm.trans hw')
          have hn := hk.nested
          exact ⟨by generalize w.stack = stack at hn; cases hn; rfl, hk.closed rfl⟩
        · cases hw.symm.trans herr
      json := fun before e after he => json_ready hsteps he
      jsonEnd := fun hout => by
        obtain rfl := hok hout
        obtain ⟨w, hw, hn, hr⟩ := Json.Writer.keeps_start.performAll hsteps
        refine ⟨w, hw, ?_, ?_⟩
        · generalize w.stack = stack at hn
          cases hn
          rfl
        · exact Option.isSome_iff_ne_none.2 fun hnone => hr.1 hnone rfl
      noFault := fun fault h => by
        rcases ownError_of_write hformat hfollow h with hown | ⟨name, hname⟩
        · exact hown
        · cases hname
      noLateAttribute := fun name h => by
        rcases ownError_of_write hformat hfollow h with hown | ⟨name, hname⟩
        · exact hown
        · cases hname }⟩

theorem exists_conducted_circle : ∃ es out, Conducted .xml (Catalogue.shapePlans .xml)
    ⟨⟨9⟩, [("kind", .text "circle"), ("labels", .list [.text "a", .null]), ("radius", .integer 5)]⟩
      es out :=
  exists_conducted Catalogue.reachable_sealedShapes (Catalogue.planAll_sealedShapes .xml) _

end Document

end Marshal
