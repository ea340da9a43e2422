import Marshal.Proofs.Document.Conformance
import Marshal.Proofs.Json.Walk
import Marshal.Proofs.Markup.Consumption
import Marshal.Proofs.Markup.Roots
import Marshal.Proofs.Markup.Walk
import Marshal.Proofs.Wire.Instantiation

/-!
# Types that are instantiated by reading

Readers of both formats walk trees, and miss no text when they look ahead for a word. So whatever the
document, every object that is read has the type that a word selects where there is a word to look for,
and the declared type elsewhere (`Document.instantiates_of_read`). That declared type may be abstract:
then what was read is refused when it is written again (`Document.not_concrete_of_read`).
-/

namespace Marshal

open Catalogue Outcome

/-! ## Texts that are looked for -/

namespace Json

theorem firstText?_ne_none {ms : List (String × Json)} {key w : String} (h : (key, .text w) ∈ ms) :
    Reader.firstText? key ms ≠ none := by
  induction ms with
  | nil => cases h
  | cons m ms ih =>
    obtain ⟨k, j⟩ := m
    rcases List.mem_cons.1 h with he | hmem
    · obtain ⟨rfl, rfl⟩ := Prod.mk.inj he
      rw [Reader.firstText?, if_pos rfl]
      exact Option.some_ne_none w
    · cases j with
      | text v =>
        rw [Reader.firstText?]
        split
        · exact Option.some_ne_none v
        · exact ih hmem
      | _ => exact ih hmem

theorem findsTexts : Tree.FindsTexts Json := by
  intro j ts x word hts hx hw
  cases j with
  | object members =>
    obtain rfl := Except.ok.inj hts
    obtain ⟨⟨key, k⟩, hm, rfl⟩ := List.mem_map.1 hx
    obtain rfl := eq_text_of_scalar hw
    exact fun h => firstText?_ne_none hm (Except.ok.inj h)
  | _ => cases hts

end Json

namespace Markup

theorem firstText_ne_none {cs : List Child} {c : Child} (h : c ∈ cs) (x : Except DecodeError Unit) :
    Child.firstText c.head.name cs x ≠ .ok none := by
  induction cs with
  | nil => cases h
  | cons b cs ih =>
    rw [Child.firstText]
    split
    · rcases b.text with e | s <;> intro hnone <;> cases hnone
    · rename_i hne
      rcases List.mem_cons.1 h with rfl | hmem
      · exact absurd rfl hne
      · exact ih hmem

theorem findsTexts : Tree.FindsTexts Found := by
  intro t ts x word hts hx _
  cases t with
  | child c =>
    obtain rfl := Except.ok.inj hts
    rcases List.mem_append.1 hx with hx | hx
    · obtain ⟨a, ha, rfl⟩ := List.mem_map.1 hx
      intro h
      have hnone := Option.map_eq_none_iff.1 (Except.ok.inj h)
      exact List.find?_eq_none.1 hnone a ha (by simp)
    · obtain ⟨b, hb, rfl⟩ := List.mem_map.1 hx
      exact firstText_ne_none hb c.childrenEnd
  | plain | missing => cases hts

end Markup

/-! ## Objects of both formats -/

namespace Document

open Decode

variable {c : Catalogue} {f : Format} {s : PlanSet}

theorem slotSound_json (P : c.PlannedBy f s) (room : Nat) :
    SlotSound s c.Instantiates (value s room : Inner Json.Reader) := by
  refine Walks.slotSound P Json.findsTexts fun {declared r i r'} h => ?_
  obtain ⟨cursor, stack⟩ := r
  cases cursor with
  | some j => exact ⟨j, ⟨none, stack⟩, rfl, rfl⟩
  | none =>
    obtain ⟨_, _, hplan, h⟩ := run_bind_eq_ok_iff.1 h
    obtain ⟨-, rfl⟩ := Reading.lift_eq_ok_iff.1 hplan
    obtain ⟨_, _, hbegin, -⟩ := run_bind_eq_ok_iff.1 h
    cases hbegin

/-- An element that an object is read of can be passed, so it is a tree. -/
theorem slotSound_xml (P : c.PlannedBy f s) (room : Nat) :
    SlotSound s c.Instantiates (value s room : Inner Markup.Reader) := by
  refine Walks.slotSound P Markup.findsTexts fun {declared r i r'} h => ?_
  obtain ⟨head, -, -, -, -, hcursor, -⟩ := scanned_of_object (value_consumes s room) h
  obtain ⟨lx, cursor, stack⟩ := r
  obtain rfl : cursor = .element head := hcursor
  obtain ⟨lx', hskip, rfl⟩ := (object_consumes (value_consumes s room) declared).element h
  obtain ⟨child, hhead, hinside⟩ := Markup.Lexer.exists_inside hskip
  exact ⟨.child child, ⟨lx', .vacant, stack⟩, congrArg _ hhead.symm, rfl, rfl, hinside⟩

/-- An object that is read is typed by the types that are instantiated. -/
theorem conforms_instantiates (P : c.PlannedBy f s) {declared : Handle} {bytes : List UInt8}
    {i : Instance} (h : read f s declared bytes = .ok i) :
    c.Conforms c.Instantiates false (.named declared) i.toValue :=
  (conforms_of_read P (slotSound_json P) (slotSound_xml P) h).1

/-- **The encoder refuses a type** only for an object of it in the value, and only if it is abstract or
has no word for its hierarchy. -/
theorem exists_uninstantiable_of_write (hc : c.Reachable) {cancelled : Bool}
    (hp : c.planAll f cancelled = .ok s) {i : Instance} {name : String}
    (h : write f s i = .error (.abstractInstance name)) :
    ∃ t, i.toValue.Mentions t ∧ c.nameOf t = name ∧ c.Uninstantiable t := by
  have P := planAll_spec hc hp
  rcases ownError_of_write P.format (followable_of_planAll hc hp) h with
    ⟨t, p, hplan, hname, hr, hm⟩ | ⟨_, hname⟩
  · exact ⟨t, hm, (P.name_eq hplan).symm.trans hname, P.uninstantiable_of_refuses hplan hr⟩
  · cases hname

/-- An object of an abstract type is not encoded into anything. -/
theorem encode_of_isAbstract {σ : Type} [Sink σ] {i : Instance} {plan : TypePlan}
    (hplan : s.type? i.type = some plan) (ha : plan.isAbstract = true) :
    encode σ s i = .error (.abstractInstance plan.name) := by
  have hnone : ∀ pos, Encode.instancePlan s pos none i.type =
      .error (.abstractInstance plan.name) := Encode.instancePlan_of_isAbstract hplan ha (by simp)
  have hroot : Encode.root s i = (throw (.abstractInstance plan.name) : Writing σ Unit) := by
    rw [Encode.root, Encode.typePlan, hplan]
    show Encode.object s (.root plan.write.rootName plan.write.rootNamespace) none _ _ = _
    simp only [Encode.object]
    rw [hnone]
    rfl
  rw [encode, hroot]
  rfl

theorem write_of_isAbstract (hf : s.format = f) {i : Instance} {plan : TypePlan}
    (hplan : s.type? i.type = some plan) (ha : plan.isAbstract = true) :
    write f s i = .error (.abstractInstance plan.name) := by
  unfold write
  rw [if_pos hf]
  cases f <;> exact encode_of_isAbstract hplan ha

/-- **What types the objects have that are read**, whatever the document. In a slot that dispatches it
is a type below the declared one with a word, and elsewhere the declared type itself; so a type without
a word that has one below it is never made an object of. The encoder refuses to write what was read only
for a type in it that is abstract or has no word, and where dispatch guards against all of these there is
none in it. -/
theorem instantiates_of_read (hc : c.Reachable) {cancelled : Bool}
    (hp : c.planAll f cancelled = .ok s) {declared : Handle} {bytes : List UInt8} {i : Instance}
    (h : read f s declared bytes = .ok i) :
    c.Conforms c.Instantiates false (.named declared) i.toValue ∧
      (∀ t, i.toValue.Mentions t → c.Dispatches t → ∃ w, c.word? t = some w) ∧
      (∀ name, write f s i = .error (.abstractInstance name) →
        ∃ t, i.toValue.Mentions t ∧ c.nameOf t = name ∧ c.Uninstantiable t) ∧
      (c.Guarded → (∀ t, i.toValue.Mentions t → ¬ c.Uninstantiable t) ∧
        ∀ name, write f s i ≠ .error (.abstractInstance name)) := by
  have hconf := conforms_instantiates (planAll_spec hc hp) h
  have hword : ∀ t, i.toValue.Mentions t → c.Dispatches t → ∃ w, c.word? t = some w := by
    intro t hm
    obtain ⟨_, _, hslot⟩ := hconf.exists_slot hm
    exact hslot.exists_word
  have hguarded : c.Guarded → ∀ t, i.toValue.Mentions t → ¬ c.Uninstantiable t := by
    intro hg t hm hun
    obtain ⟨hdis, hnone⟩ := hg t hun
    obtain ⟨w, hw⟩ := hword t hm hdis
    cases hnone.symm.trans hw
  refine ⟨hconf, hword, fun name => exists_uninstantiable_of_write hc hp, fun hg => ⟨hguarded hg, ?_⟩⟩
  intro name hwrite
  obtain ⟨t, hm, -, hun⟩ := exists_uninstantiable_of_write hc hp hwrite
  exact hguarded hg t hm hun

/-- Of the shapes only circles are made, which have a word. -/
theorem guarded_sealedShapes : sealedShapes.Guarded := by
  have hwordless : ∀ n < 10, (sealedShapes.object? ⟨n⟩).isSome = true →
      (sealedShapes.object? ⟨n⟩).map ObjectType.isAbstract = some true ∨
        sealedShapes.word? ⟨n⟩ = none → n = 8 := by decide
  intro t hun
  have ht : t = ⟨8⟩ := by
    have hobject : ∃ o, sealedShapes.object? t = some o := by
      rcases hun with ⟨o, ho, -⟩ | ⟨⟨r, g⟩, -⟩
      · exact ⟨o, ho⟩
      · exact g.exists_object
    obtain ⟨o, ho⟩ := hobject
    refine congrArg Handle.mk (hwordless t.index (lt_size_of_object? ho) (by rw [ho]; rfl) ?_)
    exact hun.imp (fun ⟨o, ho, ha⟩ => by rw [ho, Option.map_some, ha]) And.right
  subst ht
  refine ⟨⟨⟨⟨8⟩, governs_circle.self⟩, ⟨9⟩, "circle", governs_circle.1, by decide⟩, by decide⟩

/-- A circle that is read can be written, as far as its types go. -/
theorem instantiates_of_read_circle : ∃ i,
    read .json (shapePlans .json) ⟨8⟩ circleBytes = .ok i ∧ i.type = ⟨9⟩ ∧
      sealedShapes.Conforms sealedShapes.Instantiates false (.named ⟨8⟩) i.toValue ∧
      (∀ t, i.toValue.Mentions t → ¬ sealedShapes.Uninstantiable t) ∧
      ∀ name, write .json (shapePlans .json) i ≠ .error (.abstractInstance name) := by
  have hr : (read .json (shapePlans .json) ⟨8⟩ circleBytes).toOption.map Instance.type =
      some ⟨9⟩ := by decide +kernel
  obtain ⟨i, hi, ht⟩ := Option.map_eq_some_iff.1 hr
  have hread := Outcome.toOption_eq_some_iff.1 hi
  obtain ⟨hconf, -, -, hguarded⟩ :=
    instantiates_of_read reachable_sealedShapes (planAll_sealedShapes .json) hread
  obtain ⟨hun, hwrite⟩ := hguarded guarded_sealedShapes
  exact ⟨i, hread, ht, hconf, hun, hwrite⟩

end Document

namespace Catalogue

/-- Three abstract types: a form in no hierarchy, a shape with a word of its own, and a beast in whose
hierarchy no type has a word. -/
def abstracts : Catalogue :=
  .ofEntities [
    ⟨"Form", .object { isAbstract := true }⟩,
    ⟨"Shape", .object
      { properties := [{ name := "kind", wire := "kind", type := .named ⟨0⟩, required := true }]
        discriminator := some "kind"
        discriminatorValue := some "shape"
        isAbstract := true }⟩,
    ⟨"Beast", .object
      { properties := [{ name := "kind", wire := "kind", type := .named ⟨0⟩, required := true }]
        discriminator := some "kind"
        isAbstract := true }⟩]

/-- The abstract types, sealed. -/
def sealedAbstracts : Catalogue :=
  abstracts.withForest ⟨[⟨⟨9⟩, "kind", [("shape", ⟨9⟩)]⟩, ⟨⟨10⟩, "kind", []⟩],
    [(⟨9⟩, ⟨9⟩), (⟨10⟩, ⟨10⟩)]⟩

theorem reachable_sealedAbstracts : sealedAbstracts.Reachable := by
  have hopen : abstracts.Reachable := .ofEntities (by decide)
  exact .trySeal hopen (by decide)

/-- The plans of the abstract types for a format. -/
def abstractPlans (f : Format) : PlanSet := (sealedAbstracts.planAll f).toOption.getD ⟨f, [], []⟩

theorem planAll_sealedAbstracts (f : Format) : sealedAbstracts.planAll f = .ok (abstractPlans f) := by
  cases f <;> decide

end Catalogue

namespace Document

/-- An object of each of the abstract types. -/
def abstractObjects : List Instance :=
  [⟨⟨8⟩, []⟩, ⟨⟨9⟩, [("kind", .text "shape")]⟩, ⟨⟨10⟩, [("kind", .text "lion")]⟩]

/-- Documents of objects of the abstract types. -/
def abstractDocuments : Format → List String
  | .json => ["\x7b\x7d", "\x7b\"kind\":\"shape\"\x7d", "\x7b\"kind\":\"lion\"\x7d"]
  | .xml => ["<Form/>", "<Shape><kind>shape</kind></Shape>", "<Beast><kind>lion</kind></Beast>"]

/-- **Objects of abstract types are read**, of both formats: outside of hierarchies, by a word of the
abstract type, and where no type has a word. They are refused when they are written. -/
theorem not_concrete_of_read :
    sealedAbstracts.Reachable ∧ ∀ f, sealedAbstracts.planAll f = .ok (abstractPlans f) ∧
      ∀ e ∈ (abstractDocuments f).zip abstractObjects,
        (sealedAbstracts.object? e.2.type).map ObjectType.isAbstract = some true ∧
          read f (abstractPlans f) e.2.type (Text.toBytes e.1) = .ok e.2 ∧
          write f (abstractPlans f) e.2 =
            .error (.abstractInstance (sealedAbstracts.nameOf e.2.type)) := by
  have hread : ∀ f, ∀ e ∈ (abstractDocuments f).zip abstractObjects, e.2.toValue.isExact = true ∧
      (sealedAbstracts.object? e.2.type).map ObjectType.isAbstract = some true ∧
        (read f (abstractPlans f) e.2.type (Text.toBytes e.1)).toOption.map e.2.same = some true := by
    intro f
    cases f <;> decide +kernel
  refine ⟨reachable_sealedAbstracts, fun f => ⟨planAll_sealedAbstracts f, fun e he => ?_⟩⟩
  obtain ⟨hexact, habs, hsame⟩ := hread f e he
  refine ⟨habs, read_eq_of_same hexact hsame, ?_⟩
  have P := planAll_spec reachable_sealedAbstracts (planAll_sealedAbstracts f)
  obtain ⟨o, ho, ha⟩ := Option.map_eq_some_iff.1 habs
  obtain ⟨plan, hplan, hplans⟩ := P.exists_plans ho
  rw [← P.name_eq hplan]
  exact write_of_isAbstract P.format hplan (hplans.isAbstract.trans ha)

end Document

end Marshal
