import Marshal.Proofs.Document.Capture
import Marshal.Proofs.Document.Verdict
import Marshal.Proofs.Json.Unbound
import Marshal.Proofs.Markup.Unbound

/-!
# Unknown members of documents

A member of the root under a key that no property of the concrete type has is tolerated, wherever it
stands and whatever its value is (`Document.read_tolerates`). The key is the one under which the member
is read, and the value must be one that is read at all: in markup an element with a prefix can pass for a
property, and a number beyond all doubles makes a document malformed (`Document.not_tolerated`).
-/

namespace Marshal

namespace Document

open Decode Markup

variable {c : Catalogue} {f : Format} {cancelled : Bool} {plans : PlanSet} {declared : Handle}

/-- A JSON text is read as its tree with repeated keys merged. -/
theorem read_json_of_written {text : String} {j : Json} (hf : plans.format = .json)
    (hj : Json.written? text.toList = some j) :
    read .json plans declared (Text.toBytes text) = Tree.root plans declared j.merged := by
  refine read_json_of_tree hf ?_
  rw [Json.ofBytes?, Text.ofBytes?_toBytes]
  show (Json.written? text.toList).map Json.merged = _
  rw [hj]
  rfl

/-- **Unknown members are tolerated.** Two documents, of which the second has one member of the root more
that is bound to nothing in the plan of the concrete type, are read with the same result, be it an object
or an error, if the type has no carrier. If it has one, the key of the member is new among those that are
bound to nothing, and its value can be read as one of the carrier, an object read of the second document
has captured that value more than the one read of the first. In markup the key is the local name of an
element. -/
theorem read_tolerates (hc : c.Reachable) (hp : c.planAll f cancelled = .ok plans) {dplan : TypePlan}
    (hd : plans.type? declared = some dplan) :
    (f = .json → ∀ text text' before after key x plan,
      Json.written? text.toList = some (.object (before ++ after)) →
      Json.written? text'.toList = some (.object (before ++ (key, x) :: after)) →
      Tree.concretePlan plans dplan (Json.merged (.object (before ++ after))) = .ok plan →
      boundAction plan key .element = none →
      Tree.Tolerates (Tree.value plans (depthLimit - 1)) plan
        ((before ++ after).map fun m => (m.1, .element, m.2)) key x.merged
        (read .json plans declared (Text.toBytes text))
        (read .json plans declared (Text.toBytes text'))) ∧
    (f = .xml → ∀ bytes bytes' el el' before after e r p plan,
      Lexer.Opens el (Lexer.ofSymbols (Text.Symbol.decode bytes)) →
      Lexer.Opens el' (Lexer.ofSymbols (Text.Symbol.decode bytes')) → el'.tag = el.tag →
      Item.elements el.items = before ++ after → Item.elements el'.items = before ++ e :: after →
      el.open = .ok r → e.open = .ok p →
      Tree.concretePlan plans dplan (Found.child r) = .ok plan →
      boundAction plan p.head.name .element = none →
      Tree.Tolerates (Tree.value plans (depthLimit - 1)) plan
        (Found.ofAttributes r.head.attributes ++ Found.ofChildren r.children) p.head.name (Found.child p)
        (read .xml plans declared bytes) (read .xml plans declared bytes')) := by
  have P := Catalogue.planAll_spec hc hp
  constructor
  · rintro rfl text text' before after key x plan hj hj' hplan hkey
    rw [read_json_of_written P.format hj, read_json_of_written P.format hj']
    exact Json.object_tolerates P hd hplan hkey
  · rintro rfl bytes bytes' el el' before after e r p plan hel hel' htag hitems hitems' hr hp hplan hkey
    obtain ⟨r', hr', hattributes⟩ := Element.exists_open_of_tag_eq htag hr
    obtain ⟨-, hre⟩ := Element.open_eq_ok_iff.1 hr
    obtain ⟨-, hre'⟩ := Element.open_eq_ok_iff.1 hr'
    rw [read_xml_of_opens P.format hel hr, read_xml_of_opens P.format hel' hr']
    exact Markup.object_tolerates hattributes (hre ▸ hitems) (hre' ▸ hitems') hp P hd hplan hkey

open Catalogue Outcome

/-- A tally in markup, with something more in it. -/
def tallyText (more : String) : String :=
  "<Tally><title>t</title><count>3</count>" ++ more ++ "</Tally>"

/-- A tally in JSON, with something more in it. -/
def tallyObject (more : String) : String := "\x7b\"title\":\"t\",\"count\":3" ++ more ++ "\x7d"

/-- An element with a prefix, the rest of whose name is that of a property. -/
def otherTitle : String := "<x:title xmlns:x=\"urn:x\">other</x:title>"

/-- A member that is a number beyond all doubles. -/
def vastNote : String := ",\"note\":1e999"

/-- **What is inserted is not always tolerated** where its name, as it is written, is bound to nothing and
the type has no carrier: an element with a prefix replaces a property, and a number beyond all doubles
makes the document malformed. -/
theorem not_tolerated :
    sealedTallies.Reachable ∧ (∀ f, sealedTallies.planAll f = .ok (tallyPlans f)) ∧
    (∃ plan, (tallyPlans .xml).type? ⟨8⟩ = some plan ∧ plan.read.discriminator = none ∧
      boundAction plan "x:title" .element = none ∧ plan.read.carrier = none ∧
      ∃ i i', read .xml (tallyPlans .xml) ⟨8⟩ (Text.toBytes (tallyText "")) = .ok i ∧
        read .xml (tallyPlans .xml) ⟨8⟩ (Text.toBytes (tallyText otherTitle)) = .ok i' ∧
        textAt i "title" = some "t" ∧ textAt i' "title" = some "other") ∧
    ∃ plan, (tallyPlans .json).type? ⟨8⟩ = some plan ∧ plan.read.discriminator = none ∧
      boundAction plan "note" .element = none ∧ plan.read.carrier = none ∧
      (∃ i, read .json (tallyPlans .json) ⟨8⟩ (Text.toBytes (tallyObject "")) = .ok i) ∧
      read .json (tallyPlans .json) ⟨8⟩ (Text.toBytes (tallyObject vastNote)) =
        .error (.malformed .json) := by
  refine ⟨reachable_sealedTallies, planAll_sealedTallies, ?_, ?_⟩
  · have hplan : ((tallyPlans .xml).type? ⟨8⟩).map (fun plan => (plan.read.discriminator,
        boundAction plan "x:title" .element, plan.read.carrier)) = some (none, none, none) := by
      decide
    have hread : [tallyText "", tallyText otherTitle].map (fun text =>
        (read .xml (tallyPlans .xml) ⟨8⟩ (Text.toBytes text)).toOption.map fun i => textAt i "title") =
          [some (some "t"), some (some "other")] := by
      decide +kernel
    obtain ⟨plan, hplan, h⟩ := Option.map_eq_some_iff.1 hplan
    obtain ⟨hnone, h⟩ := Prod.mk.inj h
    obtain ⟨hbound, hcarrier⟩ := Prod.mk.inj h
    obtain ⟨hi, hread⟩ := List.cons.inj hread
    obtain ⟨hi', -⟩ := List.cons.inj hread
    obtain ⟨i, hi, htitle⟩ := Option.map_eq_some_iff.1 hi
    obtain ⟨i', hi', htitle'⟩ := Option.map_eq_some_iff.1 hi'
    exact ⟨plan, hplan, hnone, hbound, hcarrier, i, i', toOption_eq_some_iff.1 hi,
      toOption_eq_some_iff.1 hi', htitle, htitle'⟩
  · have hplan : ((tallyPlans .json).type? ⟨8⟩).map (fun plan => (plan.read.discriminator,
        boundAction plan "note" .element, plan.read.carrier)) = some (none, none, none) := by
      decide
    have hread : (read .json (tallyPlans .json) ⟨8⟩ (Text.toBytes (tallyObject ""))).toOption.isSome =
        true := by
      decide +kernel
    have hfault : fault? (read .json (tallyPlans .json) ⟨8⟩ (Text.toBytes (tallyObject vastNote))) =
        some (.malformed .json) := by
      decide +kernel
    obtain ⟨plan, hplan, h⟩ := Option.map_eq_some_iff.1 hplan
    obtain ⟨hnone, h⟩ := Prod.mk.inj h
    obtain ⟨hbound, hcarrier⟩ := Prod.mk.inj h
    obtain ⟨i, hi⟩ := Option.isSome_iff_exists.1 hread
    exact ⟨plan, hplan, hnone, hbound, hcarrier, ⟨i, toOption_eq_some_iff.1 hi⟩,
      fault?_eq_some_iff.1 hfault⟩

/-! ## A tally and a profile with something more -/

/-- A note in JSON with members that have names of properties. -/
def deepNote : Json := .object [("title", .array [.integer 1, .object [("count", .null)]])]

/-- The note as it stands in front of the last member. -/
def deepText : String := "\x7b\"title\":\"t\",\"note\":\x7b\"title\":[1,\x7b\"count\":null\x7d]\x7d,\"count\":3\x7d"

/-- A profile with an element that is bound to nothing in front of its nickname. -/
def hobbyText : String :=
  "<Profile id=\"p\"><hobby level=\"3\">chess</hobby><nick>zed</nick></Profile>"

/-- The profile without it. -/
def plainText : String := "<Profile id=\"p\"><nick>zed</nick></Profile>"

/-- The hobby as an element. -/
def hobbyElement : Element :=
  elementOf "hobby level=\"3\"" [.event (.text (Text.Symbol.ofText "chess"))]

theorem opens_hobby :
    Lexer.Opens (elementOf "Profile id=\"p\"" [.element hobbyElement, textElement "nick" "zed"])
      (Lexer.ofSymbols (Text.Symbol.decode (Text.toBytes hobbyText))) ∧
    Lexer.Opens (elementOf "Profile id=\"p\"" [textElement "nick" "zed"])
      (Lexer.ofSymbols (Text.Symbol.decode (Text.toBytes plainText))) := by
  rw [hobbyText, plainText, Text.Symbol.decode_ofList, Text.Symbol.decode_ofList]
  exact ⟨.start rfl (.start rfl (.event rfl trivial (.close rfl))
      (.start rfl (.event rfl trivial (.close rfl)) (.close rfl))),
    .start rfl (.start rfl (.event rfl trivial (.close rfl)) (.close rfl))⟩

theorem open_hobby :
    (elementOf "Profile id=\"p\"" [textElement "nick" "zed"]).open =
      .ok ⟨⟨"Profile", [("id", "p")], false⟩, [textElement "nick" "zed"]⟩ ∧
    hobbyElement.open = .ok ⟨⟨"hobby", [("level", "3")], false⟩, hobbyElement.items⟩ :=
  ⟨open_elementOf_inside (t := ⟨"Profile", [("id", "p")]⟩) (by decide) (by decide) (by decide) _,
    open_elementOf_inside (t := ⟨"hobby", [("level", "3")]⟩) (by decide) (by decide) (by decide) _⟩

/-- A tally is the same with a note of any depth, and a profile with a hobby has captured it. -/
theorem read_tolerates_tally :
    read .json (tallyPlans .json) ⟨8⟩ (Text.toBytes deepText) =
      read .json (tallyPlans .json) ⟨8⟩ (Text.toBytes (tallyObject "")) ∧
    read .xml profilePlans ⟨8⟩ (Text.toBytes hobbyText) =
      (read .xml profilePlans ⟨8⟩ (Text.toBytes plainText)).map fun i =>
        i.capture "extra" "hobby" (.text "chess") := by
  constructor
  · have hplan : ((tallyPlans .json).type? ⟨8⟩).map (fun plan => (plan.read.discriminator,
        boundAction plan "note" .element, plan.read.carrier)) = some (none, none, none) := by
      decide
    obtain ⟨plan, hplan, h⟩ := Option.map_eq_some_iff.1 hplan
    obtain ⟨hnone, h⟩ := Prod.mk.inj h
    obtain ⟨hbound, hcarrier⟩ := Prod.mk.inj h
    have htolerates := (read_tolerates reachable_sealedTallies (planAll_sealedTallies .json) hplan).1 rfl
      (tallyObject "") deepText [("title", .text "t")] [("count", .integer 3)] "note" deepNote plan rfl rfl
      (by rw [Tree.concretePlan, hnone]) hbound
    exact htolerates.1 hcarrier
  · have hplan : (profilePlans.type? ⟨8⟩).map (fun plan => (plan.read.discriminator,
        boundAction plan "hobby" .element, plan.read.carrier)) =
          some (none, none, some ⟨"extra", .primitive .string, false⟩) := by
      decide
    obtain ⟨plan, hplan, h⟩ := Option.map_eq_some_iff.1 hplan
    obtain ⟨hnone, h⟩ := Prod.mk.inj h
    obtain ⟨hbound, hcarrier⟩ := Prod.mk.inj h
    have htolerates := (read_tolerates reachable_sealedProfiles planAll_sealedProfiles hplan).2 rfl
      _ _ _ _ [] _ _ _ _ plan opens_hobby.2 opens_hobby.1 rfl rfl rfl open_hobby.1 open_hobby.2
      (by rw [Tree.concretePlan, hnone]) hbound
    refine htolerates.2 _ (.text "chess") hcarrier (fun x hx hname => ?_) rfl
    have hmem := List.mem_map_of_mem (f := Prod.fst) hx
    rw [hname] at hmem
    exact absurd hmem (by decide +kernel)

end Document

end Marshal
