import Marshal.Proofs.Json.RoundTrip
import Marshal.Proofs.Markup.Objects
import Mathlib.Tactic.IntervalCases

/-!
# XML documents are read back

An object that is told by its markup comes back from its document as it was, unless it nests too deep,
which is then what reading reports (`Document.read_write_xml`). Much else is written that cannot be
told: of what can be read an object comes back, which may be another (`Document.exists_read_write_xml`),
and the rest is refused (`Document.not_read_refused`).
-/

namespace Marshal

open Catalogue

variable {c : Catalogue} {cancelled : Bool} {plans : PlanSet} {i : Instance} {doc : String}

namespace Document

/-- **An object that is told by its markup is read back** from its XML document, or refused as nested
too deep, which it is then. -/
theorem read_write_xml (hc : c.Reachable) (hp : c.planAll .xml cancelled = .ok plans)
    (hw : write .xml plans i = .ok doc) (hi : c.Told false (.named i.type) i.toValue) :
    (c.nesting false i.toValue ≤ Decode.depthLimit →
        read .xml plans i.type (Text.toBytes doc) = .ok i) ∧
      (Decode.depthLimit < c.nesting false i.toValue → ∃ field,
        read .xml plans i.type (Text.toBytes doc) =
          .error (.nestingTooDeep field Decode.depthLimit)) := by
  have P := planAll_spec hc hp
  obtain ⟨o, plan, pss, hwritten, hread⟩ := exists_written_of_write_xml P hw
    (hi.objects i.type i.type i.fields .refl).1
  have hnesting : c.nesting false i.toValue = c.nestingFields (c.carrierName? i.type) i.fields + 1 := by
    rw [Instance.toValue, nesting]
  have hlimit : Decode.depthLimit = 128 := rfl
  have H : ∀ v, sizeOf v < sizeOf (Value.object i.type i.fields) → Returns c plans v :=
    fun v _ => returns P v
  rw [hread, Tree.root]
  constructor
  · intro hle
    obtain ⟨w, hobject, hself⟩ := hwritten.exists_object P (.refl i.type) H (Decode.depthLimit - 1)
      false plan.write.rootName (by omega) hi.legible.readable
    rw [hobject, hself hi.legible]
  · exact fun hlt => hwritten.object_tooDeep P (.refl i.type) H (Decode.depthLimit - 1) false
      plan.write.rootName (by omega) hi.legible

end Document

/-! ## Chains -/

/-- Links hold on to the next one. A link has a label, counts under some names, tags, and whatever
else is said of it. -/
def Catalogue.links : Catalogue :=
  .ofEntities [⟨"Link", .object
    { properties := [
        { name := "label", wire := "label", type := .named ⟨0⟩, required := true
          placement := .attribute },
        { name := "counts", wire := "counts", type := .collection .mapping (.named ⟨2⟩) true },
        { name := "next", wire := "next", type := .named ⟨8⟩ },
        { name := "tag", wire := "tag", type := .collection .sequence (.named ⟨0⟩) false
          layout := .flattened },
        { name := "others", wire := "others", carrier := true
          type := .collection .mapping (.named ⟨0⟩) false }] }⟩]

/-- The links, sealed. -/
def Catalogue.sealedLinks : Catalogue := links.withForest ⟨[], []⟩

theorem Catalogue.reachable_sealedLinks : sealedLinks.Reachable := by
  have hopen : links.Reachable := .ofEntities (by decide)
  exact .trySeal hopen (by decide)

/-- The plans of the links. -/
def Catalogue.linkPlans : PlanSet := (sealedLinks.planAll .xml).toOption.getD ⟨.xml, [], []⟩

theorem Catalogue.planAll_sealedLinks : sealedLinks.planAll .xml = .ok linkPlans := by
  decide

namespace Document

open Draft

/-- The fields of a link, which may have one behind it. -/
def linkFields (next : Option Value) : List (String × Value) :=
  ("counts", .map [("none", .null), ("one", .integer 1)]) :: ("label", .text "a") ::
    (next.map fun v => ("next", v)).toList ++
      [("others", .map [("mark", .text "x")]), ("tag", .list [.text "b"])]

/-- A chain with a number of links behind the first. -/
def chain : Nat → List (String × Value)
  | 0 => linkFields none
  | n + 1 => linkFields (some (.object ⟨8⟩ (chain n)))

/-- What is written for a link. -/
def linkParts (next : Option Draft) : List (String × Placement × Draft) :=
  ("label", .attribute, text "a") ::
    ("counts", .element, .mapping [("none", .null), ("one", .scalar (.integer 1) rfl)]) ::
      (next.map fun d => ("next", .element, d)).toList ++
        [("tag", .element, .sequence .flattened [text "b"]), ("mark", .element, text "x")]

/-- What is written for a chain. -/
def chainParts : Nat → List (String × Placement × Draft)
  | 0 => linkParts none
  | n + 1 => linkParts (some (.object (chainParts n)))

/-- The steps by which a link is written. -/
def linkSteps : List Step :=
  [⟨"label", "label", .value (.primitive .string), .attribute, true, false⟩,
    ⟨"counts", "counts", .value (.mapping (.primitive .integer) true), .element, false, false⟩,
    ⟨"next", "next", .value (.object ⟨8⟩), .element, false, false⟩,
    ⟨"tag", "tag", .value (.sequence (.primitive .string) false .flattened), .element, false, false⟩,
    ⟨"others", "others", .entries (.primitive .string) false, .element, false, false⟩]

theorem exists_plan_link : ∀ declared ∈ [none, some (⟨8⟩ : Handle)], ∃ plan,
    plan? linkPlans declared ⟨8⟩ = some plan ∧ plan.write.steps = linkSteps ∧
      Table.contains plan.read.actions "mark" = false := by
  intro declared hd
  have hplan : (plan? linkPlans declared ⟨8⟩).map (fun plan =>
      (plan.write.steps, Table.contains plan.read.actions "mark")) = some (linkSteps, false) := by
    revert declared
    decide
  obtain ⟨plan, hplan, h⟩ := Option.map_eq_some_iff.1 hplan
  exact ⟨plan, hplan, Prod.mk.inj h⟩

theorem ofObject?_chain (n : Nat) : ∀ declared ∈ [none, some (⟨8⟩ : Handle)],
    ofObject? linkPlans declared ⟨8⟩ (chain n) = some (.object (chainParts n)) := by
  induction n with
  | zero =>
    intro declared hd
    obtain ⟨plan, hplan, hsteps, hmark⟩ := exists_plan_link declared hd
    rw [ofObject?, hplan]
    simp [hsteps, linkSteps, chain, chainParts, linkFields, linkParts, ofStep?, ofValue?, ofEntries?,
      ofItems?, ofExtras?, Table.find?, hmark]
    rfl
  | succ n ih =>
    intro declared hd
    obtain ⟨plan, hplan, hsteps, hmark⟩ := exists_plan_link declared hd
    have hnext := ih (some ⟨8⟩) (by simp)
    rw [ofObject?, hplan]
    simp [hsteps, linkSteps, chain, chainParts, linkFields, linkParts, ofStep?, ofValue?, ofEntries?,
      ofItems?, ofExtras?, Table.find?, hmark, hnext]
    rfl

theorem exists_write_chain :
    ∀ n ∈ [126, 127], ∃ doc, write .xml linkPlans ⟨⟨8⟩, chain n⟩ = .ok doc := by
  intro n hn
  have hroot : (linkPlans.type? ⟨8⟩).map
      (fun plan => (plan.write.rootName, plan.write.rootNamespace)) = some ("Link", none) := by
    decide
  obtain ⟨plan, hplan, hname⟩ := Option.map_eq_some_iff.1 hroot
  obtain ⟨hroot, hns⟩ := Prod.mk.inj hname
  have hrun : ∀ n ∈ [126, 127],
      (draftDocument "Link" none (.object (chainParts n))).toOption.isSome = true := by
    decide +kernel
  obtain ⟨doc, hdoc⟩ := Option.isSome_iff_exists.1 (hrun n hn)
  refine ⟨doc, ?_⟩
  rw [write_xml_of_draft (i := ⟨⟨8⟩, chain n⟩) rfl hplan (ofObject?_chain n none (by simp)), hroot,
    hns]
  exact Outcome.toOption_eq_some_iff.1 hdoc

theorem plannedProperties_link : sealedLinks.plannedProperties ⟨8⟩ =
    [{ name := "label", wire := "label", type := .named ⟨0⟩, required := true
       placement := .attribute },
      { name := "counts", wire := "counts", type := .collection .mapping (.named ⟨2⟩) true },
      { name := "next", wire := "next", type := .named ⟨8⟩ },
      { name := "tag", wire := "tag", type := .collection .sequence (.named ⟨0⟩) false
        layout := .flattened },
      { name := "others", wire := "others", carrier := true
        type := .collection .mapping (.named ⟨0⟩) false }] := by
  decide

theorem nesting_chain (n : Nat) : sealedLinks.nesting false (.object ⟨8⟩ (chain n)) = n + 2 := by
  have hcarrier : sealedLinks.carrierName? ⟨8⟩ = some "others" := by decide
  induction n with
  | zero =>
    simp [chain, linkFields, nesting, nestingFields, nestingEntries, nestingItems, hcarrier]
  | succ n ih =>
    rw [chain, linkFields, nesting]
    simp [nestingFields, nesting, nestingEntries, nestingItems, hcarrier] at ih ⊢
    omega

/-- The values in the fields of a link, the next link aside. -/
def linkValues : List Value :=
  [.map [("none", .null), ("one", .integer 1)], .null, .integer 1, .text "a",
    .map [("mark", .text "x")], .text "x", .list [.text "b"], .text "b"]

/-- What is written inside of a chain is a chain itself, or in one of the other fields of a link. -/
theorem inside_chain {n : Nat} {r : Reference} {v : Value}
    (h : sealedLinks.Inside .xml r v (.named ⟨8⟩) (.object ⟨8⟩ (chain n))) :
    (∃ m, v = .object ⟨8⟩ (chain m)) ∨ v ∈ linkValues := by
  refine h.of_closed (Q := fun _ v => (∃ m, v = .object ⟨8⟩ (chain m)) ∨ v ∈ linkValues)
    (fun _ _ vs hvs v hv => ?_) (fun _ _ es hes k v hv => ?_) (fun _ t fields ho p _ v hv => ?_)
    (.inl ⟨n, rfl⟩)
  · obtain rfl : vs = [.text "b"] := by simpa [linkValues] using hvs
    simp [linkValues, List.mem_singleton.1 hv]
  · obtain rfl | rfl : es = [("none", .null), ("one", .integer 1)] ∨ es = [("mark", .text "x")] := by
      simpa [linkValues] using hes
    · rcases List.mem_cons.1 hv with hv | hv
      · simp [linkValues, (Prod.mk.inj hv).2]
      · simp [linkValues, (Prod.mk.inj (List.mem_singleton.1 hv)).2]
    · simp [linkValues, (Prod.mk.inj (List.mem_singleton.1 hv)).2]
  · obtain ⟨m, -, rfl⟩ : ∃ m, t = ⟨8⟩ ∧ fields = chain m := by simpa [linkValues] using ho
    have hmem := Table.mem_of_find? hv
    rcases m with _ | m <;>
      simp only [chain, linkFields, Option.map_none, Option.map_some, Option.toList_none,
        Option.toList_some, List.cons_append, List.nil_append, List.mem_cons, List.not_mem_nil,
        or_false, Prod.mk.injEq] at hmem
    · rcases hmem with ⟨-, rfl⟩ | ⟨-, rfl⟩ | ⟨-, rfl⟩ | ⟨-, rfl⟩ <;> simp [linkValues]
    · rcases hmem with ⟨-, rfl⟩ | ⟨-, rfl⟩ | ⟨-, rfl⟩ | ⟨-, rfl⟩ | ⟨-, rfl⟩ <;>
        first | exact .inl ⟨m, rfl⟩ | simp [linkValues]

theorem captured_link {next : Option Value} {p : Property} {es : List (String × Value)}
    (hp : p ∈ sealedLinks.plannedProperties ⟨8⟩) (hc : p.carrier = true)
    (hes : Table.find? (linkFields next) p.name = some (.map es)) : es = [("mark", .text "x")] := by
  have hname : ∀ p ∈ sealedLinks.plannedProperties ⟨8⟩, p.carrier = true → p.name = "others" := by
    decide
  rw [hname p hp hc] at hes
  cases next <;> exact (Value.map.inj (Option.some.inj hes)).symm

theorem canonical_link (f : Format) (next : Option Value) :
    sealedLinks.Canonical f ⟨8⟩ ⟨8⟩ (linkFields next) where
  selects := .inl rfl
  concrete o ho := by
    obtain rfl := Option.some.inj ho
    rfl
  word r d g hd := by
    have htop : sealedLinks.base? ⟨8⟩ = none := by decide
    obtain ⟨o, ho, hdo⟩ := hd
    rcases Relation.ReflTransGen.cases_head g.1 with rfl | ⟨b, hb, -⟩
    · obtain rfl := Option.some.inj ho
      cases hdo
    · rw [Extends, htop] at hb
      cases hb
  keys p hp hc es hes q hq hqc := by
    have hkeys : ∀ q ∈ sealedLinks.plannedProperties ⟨8⟩, wireName f q ≠ "mark" := by
      cases f <;> decide
    obtain rfl := captured_link hp hc hes
    exact fun hmem => hkeys q hq (List.mem_singleton.1 hmem)

theorem conforms_link {f : Format} {next : Option Value} (hnext : ∀ v, next = some v →
      sealedLinks.Conforms (sealedLinks.Canonical f) false (.named ⟨8⟩) v) :
    sealedLinks.Conforms (sealedLinks.Canonical f) false (.named ⟨8⟩)
      (.object ⟨8⟩ (linkFields next)) := by
  have hstring : sealedLinks.kind? ⟨0⟩ = some (.primitive .string) := rfl
  have hinteger : sealedLinks.kind? ⟨2⟩ = some (.primitive .integer) := rfl
  have hfields : ∀ k, k ∈ Table.keys (linkFields next) →
      k ∈ ["label", "counts", "next", "tag", "others"] := by
    cases next <;> simp [linkFields, Table.keys]
  have hlabel : Table.find? (linkFields next) "label" = some (.text "a") := by cases next <;> rfl
  have hcounts : Table.find? (linkFields next) "counts" =
      some (.map [("none", .null), ("one", .integer 1)]) := by cases next <;> rfl
  have hfound : Table.find? (linkFields next) "next" = next := by cases next <;> rfl
  have hothers : Table.find? (linkFields next) "others" = some (.map [("mark", .text "x")]) := by
    cases next <;> rfl
  have htag : Table.find? (linkFields next) "tag" = some (.list [.text "b"]) := by
    cases next <;> rfl
  have hascending : Table.Ascending (linkFields next) := by
    have hnone : ["counts", "label", "others", "tag"].Pairwise (· < ·) := by decide
    have hsome : ["counts", "label", "next", "others", "tag"].Pairwise (· < ·) := by decide
    cases next
    · exact List.pairwise_map.1 hnone
    · exact List.pairwise_map.1 hsome
  refine .object rfl (canonical_link f next) hascending ?_ ?_ ?_ ?_ <;>
    simp only [plannedProperties_link, List.forall_mem_cons]
  · intro k v hkv
    simpa [eq_comm] using hfields k (List.mem_map.2 ⟨_, hkv, rfl⟩)
  · exact ⟨fun _ _ => ⟨_, hlabel⟩, by simp, by simp, by simp, by simp, by simp⟩
  · refine ⟨by simp, by simp, by simp, by simp, fun _ h => ?_, by simp⟩
    cases hothers.symm.trans h
  · refine ⟨fun v hv => ?_, fun v hv => ?_, fun v hv => ?_, fun v hv => ?_, fun v hv => ?_, by simp⟩
    · obtain rfl := Option.some.inj (hlabel.symm.trans hv)
      exact .primitive hstring trivial
    · obtain rfl := Option.some.inj (hcounts.symm.trans hv)
      refine .map (by decide) fun k v hkv => ?_
      rcases List.mem_cons.1 hkv with hkv | hkv
      · obtain ⟨rfl, rfl⟩ := Prod.mk.inj hkv
        exact .null
      · obtain ⟨rfl, rfl⟩ := Prod.mk.inj (List.mem_singleton.1 hkv)
        exact .primitive hinteger (rfl : Number.fits 32 1 = true)
    · exact hnext v (hfound.symm.trans hv)
    · obtain rfl := Option.some.inj (htag.symm.trans hv)
      refine .list fun v hv => ?_
      obtain rfl := List.mem_singleton.1 hv
      exact .primitive hstring trivial
    · obtain rfl := Option.some.inj (hothers.symm.trans hv)
      refine .map (by decide) fun k v hkv => ?_
      obtain ⟨rfl, rfl⟩ := Prod.mk.inj (List.mem_singleton.1 hkv)
      exact .primitive hstring trivial

theorem conforms_chain (f : Format) (n : Nat) :
    sealedLinks.Conforms (sealedLinks.Canonical f) false (.named ⟨8⟩) (.object ⟨8⟩ (chain n)) := by
  induction n with
  | zero => exact @conforms_link f none (by simp)
  | succ n ih =>
    refine conforms_link fun v hv => ?_
    obtain rfl := Option.some.inj hv
    exact ih

theorem isExact_chain (n : Nat) : (Value.object ⟨8⟩ (chain n)).isExact = true := by
  induction n with
  | zero => rfl
  | succ n ih =>
    simpa [chain, linkFields, Value.isExact, Value.entriesAreExact, Value.areExact] using ih

theorem unprefixed_link (next : Option Value) : sealedLinks.Unprefixed ⟨8⟩ (linkFields next) where
  names p hp hc _ := by
    have h : ∀ p ∈ sealedLinks.plannedProperties ⟨8⟩, ':' ∉ (wireName .xml p).toList := by
      decide
    exact h p hp
  attributes p hp hc _ _ := by
    have h : ∀ p ∈ sealedLinks.plannedProperties ⟨8⟩, wireName .xml p ≠ "xmlns" := by
      decide
    exact h p hp
  keys p hp hc es hes k v hkv := by
    obtain rfl := captured_link hp hc hes
    obtain ⟨rfl, -⟩ := Prod.mk.inj (List.mem_singleton.1 hkv)
    decide

theorem definite_link {next : Option Value} (h : next ≠ some .null) :
    sealedLinks.Definite ⟨8⟩ (linkFields next) where
  present k hk := by
    rcases next with _ | v
    · simp [linkFields] at hk
    · simp [linkFields] at hk
      exact h (congrArg some hk.2.symm)
  filled p hp hf := by
    have hname : ∀ p ∈ sealedLinks.plannedProperties ⟨8⟩, p.layout = .flattened → p.name = "tag" := by
      decide
    rw [hname p hp hf]
    cases next <;> simp [linkFields, Table.find?]
  captured p hp hc es hes k hk := by
    obtain rfl := captured_link hp hc hes
    simp at hk

theorem told_chain (n : Nat) :
    sealedLinks.Told false (.named ⟨8⟩) (.object ⟨8⟩ (chain n)) where
  conforms := conforms_chain .xml n
  exact := isExact_chain n
  objects h t fields ho := by
    obtain ⟨m, hm⟩ | hm := inside_chain ho
    · obtain ⟨rfl, rfl⟩ := Value.object.inj hm
      cases m with
      | zero => exact ⟨unprefixed_link none, definite_link (by simp)⟩
      | succ m => exact ⟨unprefixed_link _, definite_link (by simp)⟩
    · simp [linkValues] at hm
  lists r vs hl := by
    obtain ⟨m, hm⟩ | hm := inside_chain hl
    · cases hm
    · obtain rfl : vs = [.text "b"] := by simpa [linkValues] using hm
      simp

/-- A chain that nests 128 deep is read back, and one that nests 129 deep is not. -/
theorem read_write_xml_chain :
    (∃ doc, write .xml linkPlans ⟨⟨8⟩, chain 126⟩ = .ok doc ∧
      read .xml linkPlans ⟨8⟩ (Text.toBytes doc) = .ok ⟨⟨8⟩, chain 126⟩) ∧
    ∃ doc field, write .xml linkPlans ⟨⟨8⟩, chain 127⟩ = .ok doc ∧
      read .xml linkPlans ⟨8⟩ (Text.toBytes doc) =
        .error (.nestingTooDeep field Decode.depthLimit) := by
  obtain ⟨doc, hdoc⟩ := exists_write_chain 126 (by simp)
  obtain ⟨deepDoc, hdeepDoc⟩ := exists_write_chain 127 (by simp)
  obtain ⟨hread, -⟩ := read_write_xml reachable_sealedLinks planAll_sealedLinks hdoc (told_chain 126)
  obtain ⟨-, hdeep⟩ :=
    read_write_xml reachable_sealedLinks planAll_sealedLinks hdeepDoc (told_chain 127)
  refine ⟨⟨doc, hdoc, hread (nesting_chain 126).le⟩, deepDoc, ?_⟩
  obtain ⟨field, hfield⟩ := hdeep ((nesting_chain 127).ge.trans_lt' (by decide))
  exact ⟨field, hdeepDoc, hfield⟩

/-! ## Objects that can be read -/

/-- **An object that can be read from markup** comes back as an object from its XML document. -/
theorem exists_read_write_xml (hc : c.Reachable) (hp : c.planAll .xml cancelled = .ok plans)
    (hw : write .xml plans i = .ok doc) (hi : c.Readable (.named i.type) i.toValue)
    (hn : c.nesting false i.toValue ≤ Decode.depthLimit) :
    ∃ w, read .xml plans i.type (Text.toBytes doc) = .ok w := by
  have P := planAll_spec hc hp
  obtain ⟨o, plan, pss, hwritten, hread⟩ := exists_written_of_write_xml P hw
    (hi.objects i.type i.type i.fields .refl).unprefixed
  have hlimit : Decode.depthLimit = 128 := rfl
  rw [Instance.toValue, nesting] at hn
  obtain ⟨w, hobject, -⟩ := hwritten.exists_object P (.refl i.type) (fun v _ => returns P v)
    (Decode.depthLimit - 1) false plan.write.rootName (by omega) hi
  exact ⟨w, (hread i.type).trans hobject⟩

end Document

/-- Types of objects that are written as markup that is refused. A note must have a text, which may
be null, and tags may be none. Stamps and schemes have names that are cut off or passed over. Bags
capture whatever they do not know. Nothing tells a disc from a figure, and the word of round shapes
is no word of their sides. -/
def Catalogue.lossy : Catalogue :=
  .ofEntities [
    ⟨"Note", .object
      { properties := [
          { name := "text", wire := "text", type := .named ⟨0⟩, required := true, nullable := true }] }⟩,
    ⟨"Tags", .object
      { properties := [
          { name := "tag", wire := "tag", type := .collection .sequence (.named ⟨0⟩) true
            required := true, layout := .flattened }] }⟩,
    ⟨"Stamp", .object
      { properties := [
          { name := "mark", wire := "mark", type := .named ⟨0⟩, required := true
            xmlName := some "a:mark" }] }⟩,
    ⟨"Scheme", .object
      { properties := [
          { name := "xmlns", wire := "xmlns", type := .named ⟨0⟩, required := true
            placement := .attribute }] }⟩,
    ⟨"Bag", .object
      { properties := [
          { name := "size", wire := "size", type := .named ⟨2⟩ },
          { name := "others", wire := "others", carrier := true
            type := .collection .mapping (.named ⟨0⟩) false }] }⟩,
    ⟨"Figure", .object
      { properties := [
          { name := "others", wire := "others", carrier := true
            type := .collection .mapping (.named ⟨1⟩) false }] }⟩,
    ⟨"Disc", .object
      { base := some ⟨13⟩
        properties := [{ name := "radius", wire := "radius", type := .named ⟨2⟩ }] }⟩,
    ⟨"Picture", .object
      { properties := [{ name := "figure", wire := "figure", type := .named ⟨13⟩ }] }⟩,
    ⟨"Sides", .enumeration ⟨[⟨"FOUR", "four"⟩], true, false⟩⟩,
    ⟨"Shape", .object
      { properties := [{ name := "sides", wire := "sides", type := .named ⟨16⟩, required := true }]
        discriminator := some "sides" }⟩,
    ⟨"Round", .object { base := some ⟨17⟩, discriminatorValue := some "round" }⟩]

/-- The lossy types, sealed. -/
def Catalogue.sealedLossy : Catalogue :=
  lossy.withForest ⟨[⟨⟨17⟩, "sides", [("round", ⟨18⟩)]⟩], [(⟨17⟩, ⟨17⟩), (⟨18⟩, ⟨17⟩)]⟩

theorem Catalogue.reachable_sealedLossy : sealedLossy.Reachable := by
  have hopen : lossy.Reachable := .ofEntities (by decide)
  exact .trySeal hopen rfl

/-- The plans of the lossy types. -/
def Catalogue.lossyPlans : PlanSet := (sealedLossy.planAll .xml).toOption.getD ⟨.xml, [], []⟩

theorem Catalogue.planAll_sealedLossy : sealedLossy.planAll .xml = .ok lossyPlans := by
  decide

namespace Document

open Draft

/-- Objects that are written, with their documents, behind the declaration. -/
def refused : List (Instance × String) :=
  [(⟨⟨8⟩, [("text", .null)]⟩, "<Note/>"),
    (⟨⟨9⟩, [("tag", .list [])]⟩, "<Tags/>"),
    (⟨⟨9⟩, [("tag", .list [.null])]⟩, "<Tags/>"),
    (⟨⟨10⟩, [("mark", .text "x")]⟩, "<Stamp><a:mark>x</a:mark></Stamp>"),
    (⟨⟨11⟩, [("xmlns", .text "x")]⟩, "<Scheme xmlns=\"x\"/>"),
    (⟨⟨12⟩, [("others", .map [("x:size", .text "many")])]⟩, "<Bag><x:size>many</x:size></Bag>"),
    (⟨⟨15⟩, [("figure", .object ⟨14⟩ [("radius", .integer 5)])]⟩,
      "<Picture><figure><radius>5</radius></figure></Picture>"),
    (⟨⟨18⟩, [("sides", .enum (.known "FOUR"))]⟩, "<Round><sides>round</sides></Round>")]

theorem read_refused : ∀ x ∈ refused, ∀ w,
    read .xml lossyPlans x.1.type (Text.toBytes (Markup.Writer.declaration ++ x.2)) ≠ .ok w := by
  have hnone : ∀ x ∈ refused,
      (read .xml lossyPlans x.1.type (Text.toBytes (Markup.Writer.declaration ++ x.2))).toOption.isNone =
        true := by
    simp only [refused, List.forall_mem_cons]
    refine ⟨?_, ?_, ?_, ?_, ?_, ?_, ?_, ?_, by simp⟩
    all_goals rw [read_xml_declaration, Text.Symbol.ofText_ofList]
    all_goals decide +kernel
  intro x hx w hw
  have := hnone x hx
  rw [hw] at this
  cases this

/-- The steps of the plan for an object. -/
def stepsOf (declared : Option Handle) (t : Handle) : Option (List Step) :=
  (plan? lossyPlans declared t).map fun plan => plan.write.steps

theorem write_refused : ∀ x ∈ refused,
    write .xml lossyPlans x.1 = .ok (Markup.Writer.declaration ++ x.2) := by
  have hnote : stepsOf none ⟨8⟩ = some
      [⟨"text", "text", .value (.primitive .string), .element, true, true⟩] := by decide
  have htags : stepsOf none ⟨9⟩ = some
      [⟨"tag", "tag", .value (.sequence (.primitive .string) true .flattened), .element, true,
        false⟩] := by decide
  have hstamp : stepsOf none ⟨10⟩ = some
      [⟨"mark", "a:mark", .value (.primitive .string), .element, true, false⟩] := by decide
  have hscheme : stepsOf none ⟨11⟩ = some
      [⟨"xmlns", "xmlns", .value (.primitive .string), .attribute, true, false⟩] := by decide
  have hbag : (plan? lossyPlans none ⟨12⟩).map
      (fun plan => (Table.contains plan.read.actions "x:size", plan.write.steps)) = some (false,
        [⟨"size", "size", .value (.primitive .integer), .element, false, false⟩,
          ⟨"others", "others", .entries (.primitive .string) false, .element, false, false⟩]) := by
    decide
  have hpicture : stepsOf none ⟨15⟩ = some
      [⟨"figure", "figure", .value (.object ⟨13⟩), .element, false, false⟩] := by decide
  have hdisc : stepsOf (some ⟨13⟩) ⟨14⟩ = some
      [⟨"others", "others", .entries (.primitive .boolean) false, .element, false, false⟩,
        ⟨"radius", "radius", .value (.primitive .integer), .element, false, false⟩] := by
    decide
  have hround : stepsOf none ⟨18⟩ = some
      [⟨"sides", "sides", .discriminator (some "round"), .element, true, false⟩] := by decide
  simp only [refused, List.forall_mem_cons]
  refine ⟨?note, ?tags, ?nulls, ?stamp, ?scheme, ?bag, ?picture, ?round, by simp⟩
  case note =>
    obtain ⟨plan, hplan, hsteps⟩ := Option.map_eq_some_iff.1 hnote
    refine write_xml_eq_ok (d := .object [("text", .element, .null)]) rfl ?_
      (by decide)
    simp [ofInstance?, ofObject?, ofStep?, ofValue?, Table.find?, hplan, hsteps]
  case tags =>
    obtain ⟨plan, hplan, hsteps⟩ := Option.map_eq_some_iff.1 htags
    refine write_xml_eq_ok (d := .object [("tag", .element, .sequence .flattened [])]) rfl ?_
      (by decide)
    simp [ofInstance?, ofObject?, ofStep?, ofValue?, ofItems?, Table.find?, hplan, hsteps]
  case nulls =>
    obtain ⟨plan, hplan, hsteps⟩ := Option.map_eq_some_iff.1 htags
    refine write_xml_eq_ok (d := .object [("tag", .element, .sequence .flattened [.null])]) rfl ?_
      (by decide)
    simp [ofInstance?, ofObject?, ofStep?, ofValue?, ofItems?, Table.find?, hplan, hsteps]
  case stamp =>
    obtain ⟨plan, hplan, hsteps⟩ := Option.map_eq_some_iff.1 hstamp
    refine write_xml_eq_ok (d := .object [("a:mark", .element, text "x")]) rfl ?_
      (by decide)
    simp [ofInstance?, ofObject?, ofStep?, ofValue?, Table.find?, hplan, hsteps]
    rfl
  case scheme =>
    obtain ⟨plan, hplan, hsteps⟩ := Option.map_eq_some_iff.1 hscheme
    refine write_xml_eq_ok (d := .object [("xmlns", .attribute, text "x")]) rfl ?_
      (by decide)
    simp [ofInstance?, ofObject?, ofStep?, ofValue?, Table.find?, hplan, hsteps]
    rfl
  case bag =>
    obtain ⟨plan, hplan, h⟩ := Option.map_eq_some_iff.1 hbag
    obtain ⟨hkey, hsteps⟩ := Prod.mk.inj h
    refine write_xml_eq_ok (d := .object [("x:size", .element, text "many")]) rfl ?_
      (by decide)
    simp [ofInstance?, ofObject?, ofStep?, ofValue?, ofExtras?, Table.find?, hplan, hsteps, hkey]
    rfl
  case picture =>
    obtain ⟨plan, hplan, hsteps⟩ := Option.map_eq_some_iff.1 hpicture
    obtain ⟨dplan, hdplan, hdsteps⟩ := Option.map_eq_some_iff.1 hdisc
    refine write_xml_eq_ok (d := .object [("figure", .element,
      .object [("radius", .element, .scalar (.integer 5) rfl)])]) rfl ?_
      (by decide)
    simp [ofInstance?, ofObject?, ofStep?, ofValue?, Table.find?, hplan, hsteps, hdplan, hdsteps]
    rfl
  case round =>
    obtain ⟨plan, hplan, hsteps⟩ := Option.map_eq_some_iff.1 hround
    refine write_xml_eq_ok (d := .object [("sides", .element, text "round")]) rfl ?_
      (by decide)
    simp [ofInstance?, ofObject?, ofStep?, hplan, hsteps]

/-- **Not every document is read back**: these are written from objects that nest little, and are
refused where they are read. -/
theorem not_read_refused : sealedLossy.Reachable ∧ sealedLossy.planAll .xml = .ok lossyPlans ∧
    refused ≠ [] ∧ ∀ x ∈ refused, sealedLossy.nesting false x.1.toValue ≤ Decode.depthLimit ∧
      write .xml lossyPlans x.1 = .ok (Markup.Writer.declaration ++ x.2) ∧
        ∀ w, read .xml lossyPlans x.1.type (Text.toBytes (Markup.Writer.declaration ++ x.2)) ≠
          .ok w := by
  have hnesting : ∀ x ∈ refused, sealedLossy.nesting false x.1.toValue ≤ Decode.depthLimit := by
    decide
  exact ⟨reachable_sealedLossy, planAll_sealedLossy, by simp [refused], fun x hx =>
    ⟨hnesting x hx, write_refused x hx, read_refused x hx⟩⟩

/-- The document of the circle. -/
def circleText : String :=
  Markup.Writer.declaration ++
    "<Circle r=\"5\"><kind>circle</kind><labels><member>a</member></labels></Circle>"

theorem write_xml_circle : write .xml (shapePlans .xml) circle = .ok circleText := by
  have hcircle : (plan? (shapePlans .xml) none ⟨9⟩).map
      (fun plan => (Table.contains plan.read.actions "big", plan.write.steps)) = some (false,
        [⟨"radius", "r", .value (.primitive .integer), .attribute, false, false⟩,
          ⟨"kind", "kind", .discriminator (some "circle"), .element, true, false⟩,
          ⟨"labels", "labels", .value (.sequence (.primitive .string) false .standard), .element,
            false, false⟩,
          ⟨"others", "others", .entries (.primitive .boolean) true, .element, false, false⟩]) := by
    decide
  obtain ⟨plan, hplan, h⟩ := Option.map_eq_some_iff.1 hcircle
  obtain ⟨hkey, hsteps⟩ := Prod.mk.inj h
  refine write_xml_eq_ok (d := .object [("r", .attribute, .scalar (.integer 5) rfl),
    ("kind", .element, text "circle"), ("labels", .element, .sequence .standard [text "a"]),
    ("big", .element, .null)]) rfl ?_ (by decide)
  simp [ofInstance?, circle, ofObject?, ofStep?, ofValue?, ofItems?, ofExtras?, Table.find?, hplan,
    hsteps, hkey]
  rfl

/-- The values inside of the circle, where they are expected. -/
def circleValues : List (Reference × Value) :=
  [(.named ⟨9⟩, circle.toValue), (.named ⟨0⟩, .text "circle"),
    (.collection .sequence (.named ⟨0⟩) false, .list [.text "a"]), (.named ⟨0⟩, .text "a"),
    (.collection .mapping (.named ⟨1⟩) true, .map [("big", .null)]), (.named ⟨1⟩, .null),
    (.named ⟨2⟩, .integer 5)]

theorem inside_circle {r : Reference} {v : Value}
    (h : sealedShapes.Inside .xml r v (.named ⟨9⟩) circle.toValue) : (r, v) ∈ circleValues := by
  refine h.of_closed (Q := fun r v => (r, v) ∈ circleValues) (fun r m vs hvs v hv => ?_)
    (fun r m es hes k v hv => ?_) (fun h t fields ho p hp v hv => ?_) List.mem_cons_self
  · obtain ⟨⟨rfl, -⟩, rfl⟩ : (r = .named ⟨0⟩ ∧ m = false) ∧ vs = [.text "a"] := by
      simpa [circleValues, Instance.toValue] using hvs
    simp [circleValues, List.mem_singleton.1 hv]
  · obtain ⟨⟨rfl, -⟩, rfl⟩ : (r = .named ⟨1⟩ ∧ m = true) ∧ es = [("big", .null)] := by
      simpa [circleValues, Instance.toValue] using hes
    simp [circleValues, (Prod.mk.inj (List.mem_singleton.1 hv)).2]
  · obtain ⟨-, rfl, rfl⟩ : h = ⟨9⟩ ∧ t = circle.type ∧ fields = circle.fields := by
      simpa [circleValues, Instance.toValue] using ho
    rw [plannedProperties_circle] at hp
    simp only [List.mem_cons, List.not_mem_nil, or_false] at hp
    rcases hp with rfl | rfl | rfl | rfl <;> obtain rfl := Option.some.inj hv <;>
      simp [circleValues]

theorem retrievable_circle : sealedShapes.Retrievable ⟨9⟩ ⟨9⟩ circle.fields := by
  have hplain : ∀ p ∈ sealedShapes.plannedProperties ⟨9⟩, ':' ∉ (wireName .xml p).toList ∧
      wireName .xml p ≠ "xmlns" ∧ (p.carrier = true → p.name = "others") ∧
        (p.name = "kind" → p.type = .named ⟨0⟩) ∧
        (p.carrier = false → p.required = true → p.name = "kind") ∧ p.layout = .standard := by
    decide
  refine ⟨⟨fun p hp _ _ => (hplain p hp).1, fun p hp _ _ _ => (hplain p hp).2.1,
    fun p hp hc es hes k v hkv => ?_⟩, .inl rfl, fun p hp hd w hw => ?_, fun p hp hc hr _ => ?_,
    fun p hp _ _ _ hf => ?_⟩
  · rw [(hplain p hp).2.2.1 hc] at hes
    obtain rfl := Value.map.inj (Option.some.inj hes)
    obtain ⟨rfl, -⟩ := Prod.mk.inj (List.mem_singleton.1 hkv)
    decide
  · obtain ⟨r, g, hn⟩ := hd
    obtain rfl := g.unique governs_circle
    obtain rfl := Option.some.inj hw
    have hkind : p.name = "kind" := hn.unique ⟨_, rfl, rfl⟩
    exact ⟨.text "circle", ⟨0⟩, (hplain p hp).2.2.2.1 hkind, .inl ⟨rfl, rfl⟩⟩
  · rw [(hplain p hp).2.2.2.2.1 hc hr]
    simp [circle, Table.find?]
  · rw [(hplain p hp).2.2.2.2.2] at hf
    cases hf

theorem readable_circle : sealedShapes.Readable (.named ⟨9⟩) circle.toValue where
  objects h t fields ho := by
    obtain ⟨rfl, rfl, rfl⟩ : h = ⟨9⟩ ∧ t = circle.type ∧ fields = circle.fields := by
      simpa [circleValues, Instance.toValue] using inside_circle ho
    exact retrievable_circle
  instants r x hx := by simpa [circleValues, Instance.toValue] using inside_circle hx

theorem exists_read_write_xml_circle : write .xml (shapePlans .xml) circle = .ok circleText ∧
    ∃ w, read .xml (shapePlans .xml) ⟨9⟩ (Text.toBytes circleText) = .ok w :=
  ⟨write_xml_circle, exists_read_write_xml reachable_sealedShapes (planAll_sealedShapes .xml)
    write_xml_circle readable_circle (by decide)⟩

end Document

end Marshal
