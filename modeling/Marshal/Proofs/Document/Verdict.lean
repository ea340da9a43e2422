import Marshal.Proofs.Document.Order
import Marshal.Proofs.Wire.Verdict

/-!
# Which error a document is refused with

A document whose root has a concrete type is refused with the error of the first member that cannot be
read, however much is missing, and only a document without such a member is refused for what is missing
(`Document.read_verdict`). The members are those that the reader hands out. They are not quite those that
are written: a repeated key counts once in JSON, and in markup a prefix is cut off a name and a
declaration of a namespace is no attribute (`Document.not_verdict_of_written`).
-/

namespace Marshal

namespace Document

open Decode Markup

variable {c : Catalogue} {f : Format} {cancelled : Bool} {plans : PlanSet} {declared : Handle}
  {bytes : List UInt8}

/-- A JSON document is read as its tree, whether that gives an object or an error. -/
theorem read_json_of_tree {j : Json} (hf : plans.format = .json) (hj : Json.ofBytes? bytes = some j) :
    read .json plans declared bytes = Tree.root plans declared j := by
  rw [read, if_pos hf, ← Json.Reader.decode_ofTree, Json.Reader.ofBytes, hj]
  rfl

/-- A markup document is read as the tree of its root, whether that gives an object or an error. -/
theorem read_xml_of_opens {el : Element} {p : Child} (hf : plans.format = .xml)
    (hel : Lexer.Opens el (Lexer.ofSymbols (Text.Symbol.decode bytes))) (hp : el.open = .ok p) :
    read .xml plans declared bytes = Tree.root plans declared (Found.child p) := by
  rw [read, if_pos hf]
  exact (Reader.decode_of_opens hel).trans (by rw [hp]; rfl)

/-- **The verdict on a document** whose root has a concrete type: the error of the first member that
cannot be read, be it bound to a property or captured; behind the last member, the first property in
effect that is required and has none; else an object. Members are those of the merged tree in JSON, and
in markup the attributes and then the elements of the root, by local name. -/
theorem read_verdict (hc : c.Reachable) (hp : c.planAll f cancelled = .ok plans) {dplan : TypePlan}
    (hd : plans.type? declared = some dplan) :
    (f = .json → ∀ bytes ms plan, Json.ofBytes? bytes = some (.object ms) →
      Tree.concretePlan plans dplan (Json.object ms) = .ok plan →
      (read .json plans declared bytes).map (fun _ => ()) =
        c.verdict .json (Tree.value plans (depthLimit - 1)) plan
          (ms.map fun m => (m.1, .element, m.2))) ∧
    (f = .xml → ∀ bytes el p plan, Lexer.Opens el (Lexer.ofSymbols (Text.Symbol.decode bytes)) →
      el.open = .ok p → p.childrenEnd = .ok () →
      Tree.concretePlan plans dplan (Found.child p) = .ok plan →
      (read .xml plans declared bytes).map (fun _ => ()) =
        c.verdict .xml (Tree.value plans (depthLimit - 1)) plan
          (Found.ofAttributes p.head.attributes ++ Found.ofChildren p.children)) := by
  have P := Catalogue.planAll_spec hc hp
  constructor
  · rintro rfl bytes ms plan hj hplan
    rw [read_json_of_tree P.format hj]
    exact Tree.object_verdict P hd rfl rfl hplan
  · rintro rfl bytes el p plan hel hopen hend hplan
    rw [read_xml_of_opens P.format hel hopen]
    exact Tree.object_verdict P hd rfl hend hplan

end Document

/-! ## Tallies -/

/-- A tally has a count and a title. A badge has a scheme, an attribute under a name with which markup
declares namespaces. -/
def Catalogue.tallies : Catalogue :=
  .ofEntities [
    ⟨"Tally", .object
      { properties := [
          { name := "title", wire := "title", type := .named ⟨0⟩, required := true },
          { name := "count", wire := "count", type := .named ⟨2⟩, required := true }] }⟩,
    ⟨"Badge", .object
      { properties := [
          { name := "scheme", wire := "scheme", type := .named ⟨0⟩, required := true
            xmlName := some "xmlns", placement := .attribute }] }⟩]

/-- The tallies, sealed. -/
def Catalogue.sealedTallies : Catalogue := tallies.withForest ⟨[], []⟩

theorem Catalogue.reachable_sealedTallies : sealedTallies.Reachable := by
  have hopen : tallies.Reachable := .ofEntities (by decide)
  exact .trySeal hopen rfl

/-- The plans of the tallies for a format. -/
def Catalogue.tallyPlans (f : Format) : PlanSet :=
  (sealedTallies.planAll f).toOption.getD ⟨f, [], []⟩

theorem Catalogue.planAll_sealedTallies (f : Format) :
    sealedTallies.planAll f = .ok (tallyPlans f) := by
  cases f <;> decide

namespace Document

open Catalogue Decode Markup Outcome

/-- A tally with a count that is no number, and then one that is. -/
def twiceText : String := "\x7b\"count\":\"many\",\"title\":\"t\",\"count\":3\x7d"

/-- The members of the tally as they are written. -/
def twiceMembers : List (String × Json) :=
  [("count", .text "many"), ("title", .text "t"), ("count", .integer 3)]

/-- A badge whose scheme is read as the declaration of a namespace. -/
def badgeText : String := "<Badge xmlns=\"urn:badges\"/>"

/-- A tally whose title has a prefix. -/
def prefixedText : String := "<Tally><x:title>t</x:title><count>3</count></Tally>"

/-- **Members as they are written do not decide**: a member that cannot be read does no harm if its key
is repeated in JSON; and in markup an attribute is missing where it declares a namespace, and an element
is not missing where its name has a prefix. -/
theorem not_verdict_of_written :
    sealedTallies.Reachable ∧ (∀ f, sealedTallies.planAll f = .ok (tallyPlans f)) ∧
    (∃ plan, (tallyPlans .json).type? ⟨8⟩ = some plan ∧ plan.read.discriminator = none ∧
      Json.written? twiceText.toList = some (.object twiceMembers) ∧
      Tree.firstFault? (Tree.value (tallyPlans .json) (depthLimit - 1)) plan
        (twiceMembers.map fun m => (m.1, .element, m.2)) =
          some (.invalidScalar "count" "integer" "many") ∧
      ∃ i, read .json (tallyPlans .json) ⟨8⟩ (Text.toBytes twiceText) = .ok i) ∧
    (∃ plan, (tallyPlans .xml).type? ⟨9⟩ = some plan ∧ plan.read.discriminator = none ∧
      (boundAction plan "xmlns" .attribute).isSome = true ∧
      read .xml (tallyPlans .xml) ⟨9⟩ (Text.toBytes badgeText) =
        .error (.missingRequired "Badge" "xmlns")) ∧
    ∃ plan, (tallyPlans .xml).type? ⟨8⟩ = some plan ∧ plan.read.discriminator = none ∧
      boundAction plan "x:title" .element = none ∧ plan.read.carrier = none ∧
      ∃ i, read .xml (tallyPlans .xml) ⟨8⟩ (Text.toBytes prefixedText) = .ok i := by
  refine ⟨reachable_sealedTallies, planAll_sealedTallies, ?_, ?_, ?_⟩
  · have hplan : ((tallyPlans .json).type? ⟨8⟩).map (fun plan => (plan.read.discriminator,
        Tree.firstFault? (Tree.value (tallyPlans .json) (depthLimit - 1)) plan
          (twiceMembers.map fun m => (m.1, .element, m.2)))) =
        some (none, some (.invalidScalar "count" "integer" "many")) := by
      decide +kernel
    have hread : (read .json (tallyPlans .json) ⟨8⟩ (Text.toBytes twiceText)).toOption.isSome = true := by
      decide +kernel
    obtain ⟨plan, hplan, h⟩ := Option.map_eq_some_iff.1 hplan
    obtain ⟨hnone, hfault⟩ := Prod.mk.inj h
    obtain ⟨i, hi⟩ := Option.isSome_iff_exists.1 hread
    exact ⟨plan, hplan, hnone, rfl, hfault, i, toOption_eq_some_iff.1 hi⟩
  · have hplan : ((tallyPlans .xml).type? ⟨9⟩).map (fun plan => (plan.read.discriminator,
        (boundAction plan "xmlns" .attribute).isSome)) = some (none, true) := by
      decide
    have hread : fault? (read .xml (tallyPlans .xml) ⟨9⟩ (Text.toBytes badgeText)) =
        some (.missingRequired "Badge" "xmlns") := by
      decide +kernel
    obtain ⟨plan, hplan, h⟩ := Option.map_eq_some_iff.1 hplan
    obtain ⟨hnone, hbound⟩ := Prod.mk.inj h
    exact ⟨plan, hplan, hnone, hbound, fault?_eq_some_iff.1 hread⟩
  · have hplan : ((tallyPlans .xml).type? ⟨8⟩).map (fun plan => (plan.read.discriminator,
        boundAction plan "x:title" .element, plan.read.carrier)) = some (none, none, none) := by
      decide
    have hread : (read .xml (tallyPlans .xml) ⟨8⟩ (Text.toBytes prefixedText)).toOption.isSome =
        true := by
      decide +kernel
    obtain ⟨plan, hplan, h⟩ := Option.map_eq_some_iff.1 hplan
    obtain ⟨hnone, h⟩ := Prod.mk.inj h
    obtain ⟨hbound, hcarrier⟩ := Prod.mk.inj h
    obtain ⟨i, hi⟩ := Option.isSome_iff_exists.1 hread
    exact ⟨plan, hplan, hnone, hbound, hcarrier, i, toOption_eq_some_iff.1 hi⟩

/-- A tally with a count, and no title. -/
def countText : String := "\x7b\"count\":3\x7d"

/-- A tally with a count that is no number, and no title. -/
def wrongText : String := "<Tally><note>n</note><count>many</count></Tally>"

/-- The tally as an element. -/
def wrongElement : Element := elementOf "Tally" [textElement "note" "n", textElement "count" "many"]

theorem opens_wrong : Lexer.Opens wrongElement
    (Lexer.ofSymbols (Text.Symbol.decode (Text.toBytes wrongText))) := by
  rw [wrongText, Text.Symbol.decode_ofList]
  exact .start rfl (.start rfl (.event rfl trivial (.close rfl))
    (.start rfl (.event rfl trivial (.close rfl)) (.close rfl)))

/-- The count of the tally is refused in markup, and not the missing title; where the count can be read,
as in a document in JSON, the title is missed. -/
theorem read_verdict_tally :
    (read .json (tallyPlans .json) ⟨8⟩ (Text.toBytes countText)).map (fun _ => ()) =
      .error (.missingRequired "Tally" "title") ∧
    (read .xml (tallyPlans .xml) ⟨8⟩ (Text.toBytes wrongText)).map (fun _ => ()) =
      .error (.invalidScalar "count" "integer" "many") := by
  constructor
  · have hparsed : Json.ofBytes? (Text.toBytes countText) =
        some (.object [("count", .integer 3)]) := by
      have hwritten : Json.written? countText.toList = some (.object [("count", .integer 3)]) := rfl
      rw [Json.ofBytes?, Text.ofBytes?_toBytes]
      show (Json.written? countText.toList).map Json.merged = _
      rw [hwritten]
      rfl
    have hplan : ((tallyPlans .json).type? ⟨8⟩).map (fun plan => (plan.read.discriminator,
        sealedTallies.verdict .json (Tree.value (tallyPlans .json) (depthLimit - 1)) plan
          ([("count", Json.integer 3)].map fun m => (m.1, .element, m.2)))) =
        some (none, .error (.missingRequired "Tally" "title")) := by
      decide +kernel
    obtain ⟨plan, hplan, h⟩ := Option.map_eq_some_iff.1 hplan
    obtain ⟨hnone, hverdict⟩ := Prod.mk.inj h
    have hread := (read_verdict reachable_sealedTallies (planAll_sealedTallies .json) hplan).1 rfl
    exact (hread _ _ plan hparsed (by rw [Tree.concretePlan, hnone])).trans hverdict
  · have hopen : wrongElement.open = .ok ⟨⟨"Tally", [], false⟩, wrongElement.items⟩ :=
      open_elementOf (by decide) _
    have hplan : ((tallyPlans .xml).type? ⟨8⟩).map (fun plan => (plan.read.discriminator,
        sealedTallies.verdict .xml (Tree.value (tallyPlans .xml) (depthLimit - 1)) plan
          (Found.ofAttributes [] ++ Found.ofChildren (Item.children wrongElement.items)))) =
        some (none, .error (.invalidScalar "count" "integer" "many")) := by
      decide +kernel
    obtain ⟨plan, hplan, h⟩ := Option.map_eq_some_iff.1 hplan
    obtain ⟨hnone, hverdict⟩ := Prod.mk.inj h
    have hread := (read_verdict reachable_sealedTallies (planAll_sealedTallies .xml) hplan).2 rfl
    exact (hread _ _ _ plan opens_wrong hopen (toOption_eq_some_iff.1 (by decide +kernel))
      (by rw [Tree.concretePlan, hnone])).trans hverdict

end Document

end Marshal
