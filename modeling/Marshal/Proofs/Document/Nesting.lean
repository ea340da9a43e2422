import Marshal.Proofs.Document.Normalisation
import Marshal.Proofs.Document.RoundTrip

/-!
# How deep JSON documents may nest

A canonical object is written as JSON however deep it nests, and its document is parsed before it is
decoded. The parser takes one level less than the decoder: an object that nests up to
`Json.depthLimit` deep is read back, and one that nests deeper is refused as malformed
(`Document.read_json_of_nesting`), already where it nests `Decode.depthLimit` deep
(`Document.not_read_json_at_limit`).
-/

namespace Marshal

open Catalogue

variable {c : Catalogue} {cancelled : Bool} {plans : PlanSet} {declared : Handle} {i : Instance}

namespace Document

/-- What is read from a tree nests no deeper than the tree, whatever room there was. -/
theorem nesting_le_of_takes (P : c.PlannedBy .json plans)
    (hi : c.Conforms (c.Canonical .json) false (.named declared) i.toValue) {d room : Nat} {j : Json}
    (hj : Json.Bounded d j)
    (hread : Json.Reader.Takes (Decode.object plans (Decode.value plans room) declared) j i) :
    c.nesting false i.toValue ≤ d := by
  have hadmits : c.Admits false (.named declared) i.toValue :=
    hi.mono fun _ _ _ hcan => hcan.selects.inherits
  have hat : Walks.At (σ := Json.Reader) j ⟨some j, []⟩ ⟨none, []⟩ := ⟨rfl, rfl⟩
  have htree := (Walks.object_follows (Walks.value_follows room) declared hat).eq_ok (hread [])
  exact (Json.object_settled P (Json.settles P room) hj hadmits htree).2

/-- The document of an object that nests too deep for the parser is malformed. -/
theorem written_and_refused_of_canonical (P : c.PlannedBy .json plans)
    (hi : c.Conforms (c.Canonical .json) false (.named declared) i.toValue)
    (hx : i.toValue.isExact = true) (hn : Json.depthLimit < c.nesting false i.toValue) :
    ∃ doc, write .json plans i = .ok doc ∧
      read .json plans declared (Text.toBytes doc) = .error (.malformed .json) := by
  obtain ⟨j, hplain, hwrite, hread⟩ := exists_written_of_canonical P hi hx
  have hnone : Json.ofBytes? (Text.toBytes (Json.compact j)) = none := by
    refine Option.eq_none_iff_forall_ne_some.2 fun k hk => ?_
    have hle := nesting_le_of_takes P hi (hplain.bounded_of_ofBytes? hk)
      (hread (c.nesting false i.toValue) (Nat.le_succ _))
    omega
  refine ⟨Json.compact j, hwrite, ?_⟩
  rw [read, if_pos P.format, Json.Reader.ofBytes, hnone]
  rfl

/-- **How deep a JSON document may nest.** A canonical object without doubles is written as JSON; its
document is read back if the object nests no deeper than the parser allows, and refused as malformed if
it nests deeper. -/
theorem read_json_of_nesting (hc : c.Reachable) (hp : c.planAll .json cancelled = .ok plans)
    (hi : c.Conforms (c.Canonical .json) false (.named declared) i.toValue)
    (hx : i.toValue.isExact = true) :
    ∃ doc, write .json plans i = .ok doc ∧
      (c.nesting false i.toValue ≤ Json.depthLimit →
        read .json plans declared (Text.toBytes doc) = .ok i) ∧
      (Json.depthLimit < c.nesting false i.toValue →
        read .json plans declared (Text.toBytes doc) = .error (.malformed .json)) := by
  have P := planAll_spec hc hp
  rcases Nat.lt_or_ge Json.depthLimit (c.nesting false i.toValue) with hlt | hle
  · obtain ⟨doc, hwrite, hread⟩ := written_and_refused_of_canonical P hi hx hlt
    exact ⟨doc, hwrite, fun hle => absurd hle (Nat.not_le_of_gt hlt), fun _ => hread⟩
  · obtain ⟨doc, hwrite, hread⟩ := written_and_read_of_canonical P hi hx hle
    exact ⟨doc, hwrite, fun _ => hread, fun hlt => absurd hle (Nat.not_le_of_gt hlt)⟩

end Document

/-- The plans of the links for JSON. -/
def Catalogue.linkJsonPlans : PlanSet := (sealedLinks.planAll .json).toOption.getD ⟨.json, [], []⟩

theorem Catalogue.planAll_sealedLinks_json : sealedLinks.planAll .json = .ok linkJsonPlans := by
  decide

namespace Document

/-- A chain that nests 127 deep is read back, and one that nests 128 deep is not. -/
theorem read_json_of_nesting_chain :
    (∃ doc, write .json linkJsonPlans ⟨⟨8⟩, chain 125⟩ = .ok doc ∧
      read .json linkJsonPlans ⟨8⟩ (Text.toBytes doc) = .ok ⟨⟨8⟩, chain 125⟩) ∧
    ∃ doc, write .json linkJsonPlans ⟨⟨8⟩, chain 126⟩ = .ok doc ∧
      read .json linkJsonPlans ⟨8⟩ (Text.toBytes doc) = .error (.malformed .json) := by
  have hnesting : ∀ n, sealedLinks.nesting false (⟨⟨8⟩, chain n⟩ : Instance).toValue = n + 2 :=
    nesting_chain
  have hchain : ∀ n, _ := fun n => read_json_of_nesting (i := ⟨⟨8⟩, chain n⟩) reachable_sealedLinks
    planAll_sealedLinks_json (conforms_chain .json n) (isExact_chain n)
  obtain ⟨doc, hdoc, hread, -⟩ := hchain 125
  obtain ⟨deepDoc, hdeepDoc, -, hdeep⟩ := hchain 126
  exact ⟨⟨doc, hdoc, hread (hnesting 125).le⟩, deepDoc, hdeepDoc,
    hdeep ((hnesting 126).ge.trans_lt' (by decide))⟩

/-- **The parser stops short of the limit.** A chain that nests just as deep as objects may is canonical
and holds no doubles; it is written as JSON, and its document is refused. -/
theorem not_read_json_at_limit : sealedLinks.Reachable ∧
    sealedLinks.planAll .json = .ok linkJsonPlans ∧
    sealedLinks.Conforms (sealedLinks.Canonical .json) false (.named ⟨8⟩) (.object ⟨8⟩ (chain 126)) ∧
    (Value.object ⟨8⟩ (chain 126)).isExact = true ∧
    sealedLinks.nesting false (.object ⟨8⟩ (chain 126)) = Decode.depthLimit ∧
    ∃ doc, write .json linkJsonPlans ⟨⟨8⟩, chain 126⟩ = .ok doc ∧
      read .json linkJsonPlans ⟨8⟩ (Text.toBytes doc) = .error (.malformed .json) := by
  have hnesting := nesting_chain 126
  exact ⟨reachable_sealedLinks, planAll_sealedLinks_json, conforms_chain .json 126, isExact_chain 126,
    hnesting, written_and_refused_of_canonical (planAll_spec reachable_sealedLinks
      planAll_sealedLinks_json) (conforms_chain .json 126) (isExact_chain 126)
      (hnesting.ge.trans_lt' (by decide))⟩

end Document

end Marshal
