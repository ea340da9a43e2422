import Marshal.Document
import Marshal.Proofs.Wire.Acceptance

/-!
# JSON documents of drafts

A draft that is written into a JSON sink becomes a tree (`Writer.write_eq_emit`), and nothing that has a
draft is refused by the sink. So a document is the text of the tree of the draft
(`Document.write_json_eq_ok_iff`), and exactly the accepted objects are written
(`Document.exists_write_json_iff`).
-/

namespace Marshal

namespace Json

/-- The tree of a token. -/
def ofScalar : Token → Json
  | .bool b => .bool b
  | .integer n => .integer n.toInt
  | .float x => .float x
  | .text s => .text s

mutual

/-- The tree of a draft. A name that comes again keeps its place and takes the later value. -/
def ofDraft : Draft → Json
  | .null => .null
  | .scalar t _ => ofScalar t
  | .object parts => .ofMembers (ofParts parts)
  | .sequence _ items => .array (ofItems items)
  | .mapping entries => .ofMembers (ofEntries entries)

/-- The members for the parts of an object. -/
def ofParts : List (String × Placement × Draft) → List (String × Json)
  | [] => []
  | (name, _, d) :: parts => (name, ofDraft d) :: ofParts parts

/-- The trees of the items of a sequence. -/
def ofItems : List Draft → List Json
  | [] => []
  | d :: items => ofDraft d :: ofItems items

/-- The members for the entries of a mapping. -/
def ofEntries : List (String × Draft) → List (String × Json)
  | [] => []
  | (key, d) :: entries => (key, ofDraft d) :: ofEntries entries

end

namespace Writer

open Outcome Draft

theorem ofToken_eq_ok {t : Token} (h : t.isFinite = true) (pos : Position) :
    ofToken pos t = .ok (ofScalar t) := by
  cases t with
  | float x => exact if_pos h
  | bool | integer | text => rfl

/-- What is written into the innermost structure when each of its parts is emitted. -/
theorem writeParts_run {parts : List (String × Placement × Draft)}
    (h : ∀ p ∈ parts, ∀ pos, write pos p.2.2 = emit (keyOf pos) (ofDraft p.2.2))
    (ms : List (String × Json)) (own : Option String) (stack : List OpenTree) (root : Option Json) :
    (writeParts parts : Writing Writer Unit) ⟨.object ms own :: stack, root⟩ =
      .ok () ⟨.object ((ofParts parts).foldl (fun t m => Json.put t m.1 m.2) ms) own :: stack, root⟩ := by
  induction parts generalizing ms with
  | nil => rfl
  | cons p parts ih =>
    obtain ⟨name, placement, d⟩ := p
    obtain ⟨hp, hps⟩ := List.forall_mem_cons.1 h
    rw [writeParts, hp (.field name placement)]
    exact (run_bind rfl).trans (ih hps _)

theorem writeItems_run {items : List Draft}
    (h : ∀ d ∈ items, ∀ pos, write pos d = emit (keyOf pos) (ofDraft d))
    (js : List Json) (own : Option String) (stack : List OpenTree) (root : Option Json) :
    (writeItems items : Writing Writer Unit) ⟨.array js own :: stack, root⟩ =
      .ok () ⟨.array (js ++ ofItems items) own :: stack, root⟩ := by
  induction items generalizing js with
  | nil =>
    rw [ofItems, List.append_nil]
    rfl
  | cons d items ih =>
    obtain ⟨hd, hds⟩ := List.forall_mem_cons.1 h
    rw [writeItems, hd .item, ofItems, List.append_cons]
    exact (run_bind rfl).trans (ih hds _)

theorem writeEntries_run {entries : List (String × Draft)}
    (h : ∀ e ∈ entries, ∀ pos, write pos e.2 = emit (keyOf pos) (ofDraft e.2))
    (ms : List (String × Json)) (own : Option String) (stack : List OpenTree) (root : Option Json) :
    (writeEntries entries : Writing Writer Unit) ⟨.object ms own :: stack, root⟩ =
      .ok () ⟨.object ((ofEntries entries).foldl (fun t m => Json.put t m.1 m.2) ms) own :: stack,
        root⟩ := by
  induction entries generalizing ms with
  | nil => rfl
  | cons e entries ih =>
    obtain ⟨key, d⟩ := e
    obtain ⟨he, hes⟩ := List.forall_mem_cons.1 h
    rw [writeEntries, he (.entry key)]
    exact (run_bind rfl).trans (ih hes _)

/-- **Writing a draft is emitting its tree.** -/
theorem write_eq_emit (d : Draft) (pos : Position) :
    (write pos d : Writing Writer Unit) = emit (keyOf pos) (ofDraft d) := by
  induction d generalizing pos with
  | null =>
    rw [write]
    rfl
  | scalar t h =>
    funext w
    rw [write]
    refine (run_bind (?_ : Writing.lift (ofToken pos t) w = .ok (ofScalar t) w)).trans rfl
    rw [ofToken_eq_ok h]
    rfl
  | object parts ih =>
    funext w
    rw [write]
    have hopen : Sink.beginObject pos w = .ok () ⟨.object [] (keyOf pos) :: w.stack, w.root⟩ := rfl
    rw [run_bind hopen, run_bind (writeParts_run (fun p hp => ih p hp) [] _ _ _)]
    rfl
  | sequence layout items ih =>
    funext w
    rw [write]
    have hopen : Sink.beginContainer pos (Encode.containerAt pos layout) w =
        .ok () ⟨.array [] (keyOf pos) :: w.stack, w.root⟩ := by
      cases layout <;> rfl
    rw [run_bind hopen, run_bind (writeItems_run (fun d hd => ih d hd) [] _ _ _)]
    rfl
  | mapping entries ih =>
    funext w
    rw [write]
    have hopen : Sink.beginContainer pos .mapping w =
        .ok () ⟨.object [] (keyOf pos) :: w.stack, w.root⟩ := rfl
    rw [run_bind hopen, run_bind (writeEntries_run (fun e he => ih e he) [] _ _ _)]
    rfl

end Writer

end Json

namespace Document

variable {c : Catalogue} {plans : PlanSet}

/-- **A JSON document is the text of the tree of a draft.** -/
theorem write_json_eq_ok_iff (P : c.PlannedBy .json plans) {i : Instance} {doc : String} :
    write .json plans i = .ok doc ↔
      ∃ d, Draft.ofInstance? plans i = some d ∧ doc = Json.compact (Json.ofDraft d) := by
  rw [write, if_pos P.format]
  show encode Json.Writer plans i = .ok doc ↔ _
  rw [encode]
  rcases hplan : plans.type? i.type with _ | plan
  · obtain ⟨e, w, hw⟩ := Encode.root_fails (σ := Json.Writer) hplan Sink.start
    simp [hw, Encode.ofInstance?_eq_none hplan]
  · have hroot := Encode.root_renders (σ := Json.Writer) hplan
    rcases hd : Draft.ofInstance? plans i with _ | d
    · rw [hd] at hroot
      obtain ⟨e, w, hw⟩ := hroot Sink.start
      simp [hw]
    · rw [hd] at hroot
      have hrun : Encode.root plans i (Sink.start : Json.Writer) =
          .ok () ⟨[], some (Json.ofDraft d)⟩ := by
        rw [show Encode.root plans i = _ from hroot, Json.Writer.write_eq_emit]
        rfl
      rw [hrun]
      simp only [Option.some.injEq, exists_eq_left']
      exact ⟨fun h => (Except.ok.inj h).symm, fun h => congrArg Except.ok h.symm⟩

/-- Along the plans of a catalogue exactly the objects that it accepts are written. -/
theorem exists_json_iff_accepted (P : c.PlannedBy .json plans) (i : Instance) :
    (∃ doc, write .json plans i = .ok doc) ↔ c.Accepted .json false (.named i.type) i.toValue := by
  rw [← Draft.exists_ofInstance?_iff P]
  simp only [write_json_eq_ok_iff P]
  constructor
  · rintro ⟨doc, d, hd, -⟩
    exact ⟨d, hd⟩
  · rintro ⟨d, hd⟩
    exact ⟨_, d, hd, rfl⟩

/-- **Exactly the accepted objects are written** as JSON documents. -/
theorem exists_write_json_iff (hc : c.Reachable) {cancelled : Bool}
    (hp : c.planAll .json cancelled = .ok plans) (i : Instance) :
    (∃ doc, write .json plans i = .ok doc) ↔ c.Accepted .json false (.named i.type) i.toValue :=
  exists_json_iff_accepted (Catalogue.planAll_spec hc hp) i

/-- A circle that is written although it is not well typed: its kind is null, it captures a key that
its radius has, and it has a field that no circle has. -/
def looseCircle : Instance :=
  ⟨⟨9⟩, [("kind", .null), ("others", .map [("r", .text "7"), ("big", .null)]),
    ("radius", .integer 5), ("colour", .text "red")]⟩

theorem accepted_looseCircle :
    Catalogue.sealedShapes.Accepted .json false (.named ⟨9⟩) looseCircle.toValue := by
  have hplanned : Catalogue.sealedShapes.plannedProperties looseCircle.type =
      [{ name := "kind", wire := "kind", type := .named ⟨0⟩, required := true },
        { name := "radius", wire := "r", type := .named ⟨2⟩, placement := .attribute },
        { name := "labels", wire := "labels", type := .collection .sequence (.named ⟨0⟩) false },
        { name := "others", wire := "others", carrier := true
          type := .collection .mapping (.named ⟨1⟩) true }] := by
    decide
  have hkind : ∀ p : Property, p.name = "kind" → Catalogue.sealedShapes.Distinguishes ⟨9⟩ p :=
    fun p hp => ⟨⟨8⟩, Catalogue.governs_circle, _, rfl, congrArg some hp.symm⟩
  refine .object rfl (.refl _) rfl (fun r g => ⟨"circle", rfl⟩) ?_ ?_ ?_ ?_ <;>
    simp only [hplanned, List.forall_mem_cons]
  · exact ⟨fun _ hno => absurd (hkind _ rfl) hno, by simp, by simp, by simp, by simp⟩
  · refine ⟨fun _ hno => absurd (hkind _ rfl) hno, fun _ _ v hv => ?_, fun _ _ v hv => ?_,
      by simp, by simp⟩
    · obtain rfl := Option.some.inj hv
      exact .primitive rfl (rfl : Number.fits 32 5 = true)
    · cases hv
  · refine ⟨by simp, by simp, by simp, fun _ v hv => ?_, by simp⟩
    obtain rfl := Option.some.inj hv
    exact .inr ⟨_, rfl⟩
  · refine ⟨by simp, by simp, by simp, fun _ r m hr es hes k v hkv hk => ?_, by simp⟩
    obtain ⟨rfl, rfl⟩ := (Reference.collection.inj hr).2
    obtain rfl := Value.map.inj (Option.some.inj hes)
    rcases List.mem_cons.1 hkv with hkv | hkv
    · obtain ⟨rfl, rfl⟩ := Prod.mk.inj hkv
      exact absurd rfl (hk.2.1 trivial)
    · obtain ⟨rfl, rfl⟩ := Prod.mk.inj (List.mem_singleton.1 hkv)
      exact .null

/-- The circle is written, and the same fields are not as an object of the abstract type. -/
theorem exists_write_json_looseCircle :
    (∃ doc, write .json (Catalogue.shapePlans .json) looseCircle = .ok doc) ∧
      ¬ ∃ doc, write .json (Catalogue.shapePlans .json) ⟨⟨8⟩, looseCircle.fields⟩ = .ok doc := by
  have hplans := Catalogue.planAll_sealedShapes .json
  refine ⟨(exists_write_json_iff Catalogue.reachable_sealedShapes hplans _).2 accepted_looseCircle,
    fun hwritten => ?_⟩
  have ha := (exists_write_json_iff Catalogue.reachable_sealedShapes hplans _).1 hwritten
  cases ha with
  | primitive _ hw => exact Primitive.not_writes_object hw
  | object type inherits concrete =>
    obtain rfl := Option.some.inj type
    cases concrete

end Document

end Marshal
