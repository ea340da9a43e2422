import Marshal.Document
import Marshal.Proofs.Plan.Dispatch

/-!
# Declared types and the word of a document

`Document.rootWord` is the word that stands at the root of a document, found ahead of any field.
It settles along which plan the root is read, and then it does not matter how far up the hierarchy
the document was declared: `Document.read_of_rootWord`.

Both readings enter the root and look for the word in the same place
(`Catalogue.PlannedBy.exists_dispatch_self`), so they reach the scan of the fields in one state and
with one plan (`Decode.object_of_word`); nothing has to be known of the format.
-/

namespace Marshal

open Reading

namespace Decode

variable {σ : Type} [Source σ] {s : PlanSet} {inner : Inner σ} {declared : Handle} {p : TypePlan}
  {d : Dispatch} {word : String} {source st : σ}

/-- Enters the object at the cursor and looks for its word. -/
def rootWord (wire : String) (placement : Placement) : Reading σ (Option String) := do
  Source.beginObject
  Source.peekField wire placement

/-- Reads the fields of the current object along a plan, and makes the object. -/
def along (inner : Inner σ) (plan : TypePlan) : Reading σ Instance := do
  let scan ← fields inner plan (Source.bound (← get) + 1) ⟨[], []⟩
  Reading.lift (scan.make plan)

/-- An object is entered, its plan is chosen, and it is read along that plan. -/
theorem object_eq_along (hp : s.type? declared = some p) :
    object s inner declared =
      (do Source.beginObject; let plan ← concretePlan s p; along inner plan : Reading σ Instance) := by
  have hplan : typePlan s declared = .ok p := by rw [typePlan, hp]
  rw [object, hplan]
  rfl

/-- **A word that selects a type** has the object read along the plan of that type. -/
theorem object_of_word (hp : s.type? declared = some p) (hd : p.read.discriminator = some d)
    (hw : rootWord d.wire d.placement source = .ok (some word) st) {k : Handle} {q : TypePlan}
    (hk : Table.find? d.variants word = some k) (hq : s.type? k = some q) :
    object s inner declared source = along inner q st := by
  obtain ⟨u, st₁, hbegin, hpeek⟩ := Outcome.run_bind_eq_ok_iff.1 hw
  have hplan : (concretePlan s p : Reading σ TypePlan) st₁ = .ok q st := by
    rw [concretePlan, hd]
    refine (Outcome.run_bind hpeek).trans ?_
    simp only [hk, typePlan, hq]
    rfl
  rw [object_eq_along hp, Outcome.run_bind hbegin, Outcome.run_bind hplan]

/-- **A word that selects no type** is reported, whatever else there is in the object. -/
theorem object_of_unknown_word (hp : s.type? declared = some p)
    (hd : p.read.discriminator = some d)
    (hw : rootWord d.wire d.placement source = .ok (some word) st)
    (hk : Table.find? d.variants word = none) :
    object s inner declared source = .error (.unknownDiscriminator p.name word) st := by
  obtain ⟨u, st₁, hbegin, hpeek⟩ := Outcome.run_bind_eq_ok_iff.1 hw
  have hplan : (concretePlan s p : Reading σ TypePlan) st₁ =
      .error (.unknownDiscriminator p.name word) st := by
    rw [concretePlan, hd]
    refine (Outcome.run_bind hpeek).trans ?_
    dsimp only
    rw [hk]
    rfl
  rw [object_eq_along hp, Outcome.run_bind hbegin]
  simp only [bind, EStateM.bind, hplan]

/-- Two declared types that look for the word in one place, where it selects one type, have every
source decoded alike. -/
theorem decode_eq_of_word {p' : TypePlan} {d' : Dispatch} {declared' : Handle}
    (hp : s.type? declared = some p) (hd : p.read.discriminator = some d)
    (hp' : s.type? declared' = some p') (hd' : p'.read.discriminator = some d')
    (hwire : d'.wire = d.wire) (hplace : d'.placement = d.placement)
    (hw : rootWord d.wire d.placement source = .ok (some word) st) {k : Handle} {q : TypePlan}
    (hk : Table.find? d.variants word = some k) (hk' : Table.find? d'.variants word = some k)
    (hq : s.type? k = some q) : decode s declared source = decode s declared' source := by
  have hw' : rootWord d'.wire d'.placement source = .ok (some word) st := by rwa [hwire, hplace]
  rw [decode, decode, root, root, object_of_word hp hd hw hk hq, object_of_word hp' hd' hw' hk' hq]

theorem decode_of_unknown_word (hp : s.type? declared = some p)
    (hd : p.read.discriminator = some d)
    (hw : rootWord d.wire d.placement source = .ok (some word) st)
    (hk : Table.find? d.variants word = none) :
    decode s declared source = .error (.unknownDiscriminator p.name word) := by
  rw [decode, root, object_of_unknown_word hp hd hw hk]

/-- The word at the root of a source, if it can be looked for. -/
def wordOf (wire : String) (placement : Placement) (source : σ) :
    Except DecodeError (Option String) :=
  match rootWord wire placement source with
  | .ok word _ => .ok word
  | .error e _ => .error e

theorem wordOf_eq_ok {wire : String} {placement : Placement}
    (h : wordOf wire placement source = .ok (some word)) :
    ∃ st, rootWord wire placement source = .ok (some word) st := by
  rw [wordOf] at h
  split at h
  · rename_i hw
    cases h
    exact ⟨_, hw⟩
  · cases h

end Decode

namespace Document

/-- The word at the root of a document, as the reader of the format finds it ahead of any field. -/
def rootWord (format : Format) (wire : String) (placement : Placement) (bytes : List UInt8) :
    Except DecodeError (Option String) :=
  match format with
  | .json => do Decode.wordOf wire placement (← Json.Reader.ofBytes bytes)
  | .xml => do Decode.wordOf wire placement (← Markup.Reader.ofBytes bytes)

/-- A document in which a word is found is a source in which it is found. -/
theorem exists_source {format : Format} {plans : PlanSet} (hf : plans.format = format)
    {wire : String} {placement : Placement} {bytes : List UInt8} {word : String}
    (hw : rootWord format wire placement bytes = .ok (some word)) :
    ∃ (σ : Type) (_ : Source σ) (source st : σ),
      Decode.rootWord wire placement source = .ok (some word) st ∧
        ∀ declared, read format plans declared bytes = decode plans declared source := by
  cases format with
  | json =>
    obtain ⟨source, hs, hw⟩ := Outcome.bind_eq_ok_iff.1 hw
    obtain ⟨st, hw⟩ := Decode.wordOf_eq_ok hw
    refine ⟨_, _, source, st, hw, fun declared => ?_⟩
    rw [read, if_pos hf, hs]
    rfl
  | xml =>
    obtain ⟨source, hs, hw⟩ := Outcome.bind_eq_ok_iff.1 hw
    obtain ⟨st, hw⟩ := Decode.wordOf_eq_ok hw
    refine ⟨_, _, source, st, hw, fun declared => ?_⟩
    rw [read, if_pos hf, hs]
    rfl

/-- **Reading does not depend on how far up the hierarchy a document is declared.** Let the plan of
the declared type dispatch, and let a word stand where the dispatch looks for it. The words that
select a type are those of the declared type and the types below it. A word that selects a type has
the document read as if it were declared as that type, with the same value or the same error; any
other word is reported, whatever else stands in the document. -/
theorem read_of_rootWord {c : Catalogue} (hc : c.Reachable) {format : Format} {cancelled : Bool}
    {plans : PlanSet} (hp : c.planAll format cancelled = .ok plans) {declared : Handle}
    {p : TypePlan} (hplan : plans.type? declared = some p) {d : Dispatch}
    (hd : p.read.discriminator = some d) {bytes : List UInt8} {word : String}
    (hw : rootWord format d.wire d.placement bytes = .ok (some word)) :
    (∀ k, Table.find? d.variants word = some k ↔
      c.Inherits k declared ∧ c.word? k = some word) ∧
    (∀ k, Table.find? d.variants word = some k →
      read format plans declared bytes = read format plans k bytes) ∧
    ((∀ k, c.Inherits k declared → c.word? k ≠ some word) →
      read format plans declared bytes =
        .error (.unknownDiscriminator (c.nameOf declared) word)) := by
  have P := Catalogue.planAll_spec hc hp
  obtain ⟨o, ho, hplans⟩ := P.plans hplan
  have hvariants := fun k => P.find?_variants (w := word) (k := k) hplans hd
  obtain ⟨σ, _, source, st, hroot, hread⟩ := exists_source P.format hw
  refine ⟨hvariants, fun k hk => ?_, fun hnone => ?_⟩
  · obtain ⟨-, hword⟩ := (hvariants k).1 hk
    obtain ⟨o', ho', -⟩ := Option.bind_eq_some_iff.1 hword
    obtain ⟨q, hq, hplans'⟩ := P.exists_plans ho'
    obtain ⟨d', hd', hk', hwire, hplace⟩ := P.exists_dispatch_self hplans hplans' hd hk
    rw [hread, hread]
    exact Decode.decode_eq_of_word hplan hd hq hd' hwire hplace hroot hk hk' hq
  · have hk : Table.find? d.variants word = none := by
      refine Option.eq_none_iff_forall_ne_some.2 fun k hk => ?_
      obtain ⟨hi, hword⟩ := (hvariants k).1 hk
      exact hnone k hi hword
    rw [hread, Decode.decode_of_unknown_word hplan hd hroot hk, P.name_eq hplan]

end Document

/-! ## Rings among shapes -/

/-- Shapes are told apart by a kind that every figure has. Rings are round shapes and name the
discriminator again; squares are not round. -/
def Catalogue.rings : Catalogue :=
  .ofEntities [
    ⟨"Figure", .object
      { properties := [{ name := "kind", wire := "kind", type := .named ⟨0⟩, required := true
                         xmlName := some "k", placement := .attribute }] }⟩,
    ⟨"Shape", .object
      { base := some ⟨8⟩, discriminator := some "kind", isAbstract := true }⟩,
    ⟨"Round", .object
      { base := some ⟨9⟩, discriminatorValue := some "round"
        properties := [{ name := "radius", wire := "radius", type := .named ⟨2⟩ }] }⟩,
    ⟨"Ring", .object
      { base := some ⟨10⟩, discriminator := some "kind", discriminatorValue := some "ring" }⟩,
    ⟨"Square", .object
      { base := some ⟨9⟩, discriminatorValue := some "square" }⟩]

/-- The rings among the shapes, sealed. -/
def Catalogue.sealedRings : Catalogue :=
  rings.withForest
    ⟨[⟨⟨9⟩, "kind", [("ring", ⟨11⟩), ("round", ⟨10⟩), ("square", ⟨12⟩)]⟩],
      [(⟨9⟩, ⟨9⟩), (⟨10⟩, ⟨9⟩), (⟨11⟩, ⟨9⟩), (⟨12⟩, ⟨9⟩)]⟩

theorem Catalogue.reachable_sealedRings : sealedRings.Reachable := by
  have hopen : rings.Reachable := .ofEntities (by decide)
  exact .trySeal hopen rfl

/-- The plans of the rings for a format. -/
def Catalogue.ringPlans (f : Format) : PlanSet :=
  (sealedRings.planAll f).toOption.getD ⟨f, [], []⟩

theorem Catalogue.planAll_sealedRings (f : Format) : sealedRings.planAll f = .ok (ringPlans f) := by
  cases f <;> decide

namespace Document

/-- The dispatch of round shapes. -/
def roundDispatch (f : Format) : Dispatch :=
  ⟨"kind", match f with | .json => "kind" | .xml => "k",
    match f with | .json => .element | .xml => .attribute, [("ring", ⟨11⟩), ("round", ⟨10⟩)]⟩

theorem exists_round_plan (f : Format) : ∃ p, (Catalogue.ringPlans f).type? ⟨10⟩ = some p ∧
    p.read.discriminator = some (roundDispatch f) := by
  have h : (((Catalogue.ringPlans f).type? ⟨10⟩).map fun p => p.read.discriminator) =
      some (some (roundDispatch f)) := by
    cases f <;> decide
  obtain ⟨p, hp, hd⟩ := Option.map_eq_some_iff.1 h
  exact ⟨p, hp, hd⟩

/-- A ring in markup. -/
def ringBytes : List UInt8 := Text.toBytes "<Shape k=\"ring\"><radius>5</radius></Shape>"

/-- A square in JSON. -/
def squareBytes : List UInt8 := Text.toBytes "\x7b\"radius\":\"\",\"kind\":\"square\"\x7d"

/-- No round shape is a square. -/
theorem word?_of_inherits_round (k : Handle) (hk : Catalogue.sealedRings.Inherits k ⟨10⟩) :
    Catalogue.sealedRings.word? k ≠ some "square" := by
  intro hw
  have W := (Catalogue.planAll_spec Catalogue.reachable_sealedRings
    (Catalogue.planAll_sealedRings .json)).wellFormed
  have hmem := (Catalogue.mem_lineage_iff W.acyclic).2 hk
  obtain ⟨o, ho, -⟩ := Option.bind_eq_some_iff.1 hw
  have hall : ∀ n < Catalogue.sealedRings.size, (⟨10⟩ : Handle) ∈ Catalogue.sealedRings.lineage ⟨n⟩ →
      Catalogue.sealedRings.word? ⟨n⟩ ≠ some "square" := by decide
  exact hall k.index (Catalogue.lt_size_of_object? ho) hmem hw

/-- A ring is read as one also where a round shape is declared, and a square is refused there. -/
theorem read_of_rootWord_rings :
    (∃ i, read .xml (Catalogue.ringPlans .xml) ⟨10⟩ ringBytes = .ok i ∧ i.type = ⟨11⟩ ∧
      read .xml (Catalogue.ringPlans .xml) ⟨11⟩ ringBytes = .ok i) ∧
    read .json (Catalogue.ringPlans .json) ⟨10⟩ squareBytes =
      .error (.unknownDiscriminator "Round" "square") := by
  constructor
  · obtain ⟨p, hp, hd⟩ := exists_round_plan .xml
    obtain ⟨-, hsame, -⟩ := read_of_rootWord Catalogue.reachable_sealedRings
      (Catalogue.planAll_sealedRings .xml) hp hd
      (show rootWord .xml _ _ ringBytes = .ok (some "ring") by decide +kernel)
    have hr : (read .xml (Catalogue.ringPlans .xml) ⟨10⟩ ringBytes).toOption.map Instance.type =
        some ⟨11⟩ := by decide +kernel
    obtain ⟨i, hi, ht⟩ := Option.map_eq_some_iff.1 hr
    have hread := Outcome.toOption_eq_some_iff.1 hi
    exact ⟨i, hread, ht, hsame ⟨11⟩ (by decide) ▸ hread⟩
  · obtain ⟨p, hp, hd⟩ := exists_round_plan .json
    obtain ⟨-, -, hunknown⟩ := read_of_rootWord Catalogue.reachable_sealedRings
      (Catalogue.planAll_sealedRings .json) hp hd
      (show rootWord .json _ _ squareBytes = .ok (some "square") by decide +kernel)
    exact hunknown word?_of_inherits_round

end Document

end Marshal
