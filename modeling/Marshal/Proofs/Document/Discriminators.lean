import Marshal.Proofs.Document.Verdict
import Marshal.Proofs.Json.Discriminators

/-!
# Whether a discriminator is read back

The word of a type is written for its discriminator, and read as any value of that property is. Where
the discriminator is an enumeration, an object that is canonical beside it comes back from its JSON
document just when the enumeration takes the word, and is refused for the word otherwise
(`Document.read_json_of_word`). A catalogue is sealed without a look at this: it may have a closed
enumeration for a discriminator, and a type whose word is none of its own
(`Document.not_read_json_of_word`).
-/

namespace Marshal

namespace Document

open Catalogue Draft Json

variable {c : Catalogue} {cancelled : Bool} {plans : PlanSet} {i : Instance} {p : Property}
  {k : Handle} {e : Enumeration} {doc word : String}

/-- An object whose word is refused is refused for it. -/
theorem read_json_of_refused_word (P : c.PlannedBy .json plans)
    (hmem : p ∈ c.plannedProperties i.type) (hplain : p.carrier = false)
    (hdis : c.Distinguishes i.type p) (hword : c.word? i.type = some word) (htype : p.type = .named k)
    (hk : c.kind? k = some (.enumeration e)) (hi : c.CanonicalBeside .json p.name i)
    (hx : (i.without p.name).toValue.isExact = true)
    (hn : c.nesting false (i.without p.name).toValue ≤ Json.depthLimit)
    (hw : write .json plans i = .ok doc) (hread : e.read? word = none) :
    read .json plans i.type (Text.toBytes doc) = .error (.unknownEnumValue (c.nameOf k) word) := by
  obtain ⟨d, hd, rfl⟩ := (write_json_eq_ok_iff P).1 hw
  obtain ⟨o, plan, pss, W, rfl, -⟩ := written_of_ofObject? P hd
  rw [Instance.toValue, nesting] at hn
  have hroom : c.nestingFields (c.carrierName? i.type) (i.without p.name).fields ≤
      Decode.depthLimit - 1 := by
    rw [Json.depthLimit] at hn
    rw [Decode.depthLimit]
    exact Nat.le_of_succ_le (Nat.le_trans hn (by decide))
  have hlegible := hi.legible P W hmem hdis hword hx hroom
  have hflat : Json.Plain (c.nestingFields (c.carrierName? i.type) (i.without p.name).fields + 1)
      (ofDraft (.object pss.flatten)) := by
    refine Json.plain_ofDraft (hi.nodup_names P W hmem hplain) fun x hmem => ?_
    rcases hlegible x hmem with rfl | ⟨-, h⟩
    · exact .text
    · exact h
  rw [read_json_of_tree P.format (ofBytes?_toBytes_compact (hflat.mono hn)), Tree.root]
  exact hi.object_eq_error P W hmem hplain hdis hword hx hroom htype hk hread

/-- An object whose word is taken comes back with what the word is read as. -/
theorem read_json_of_taken_word (P : c.PlannedBy .json plans)
    (hmem : p ∈ c.plannedProperties i.type) (hplain : p.carrier = false)
    (hdis : c.Distinguishes i.type p) (hword : c.word? i.type = some word) (htype : p.type = .named k)
    (hk : c.kind? k = some (.enumeration e)) (hi : c.CanonicalBeside .json p.name i)
    (hx : (i.without p.name).toValue.isExact = true)
    (hn : c.nesting false (i.without p.name).toValue ≤ Json.depthLimit)
    (hw : write .json plans i = .ok doc) {x : EnumValue} (hread : e.read? word = some x) :
    read .json plans i.type (Text.toBytes doc) = .ok (i.put p.name (.enum x)) := by
  obtain ⟨d, hd, rfl⟩ := (write_json_eq_ok_iff P).1 hw
  obtain ⟨o, plan, pss, W, rfl, -⟩ := written_of_ofObject? P hd
  have hput := hi.conforms_put P.wellFormed W.type W.concrete hmem hplain hdis hword
    ⟨k, htype, .inr ⟨e, x, hk, hread, rfl⟩⟩ (htype ▸ .enumeration hk (holds_of_read? hread))
  obtain ⟨doc, hwritten, hback⟩ := written_and_read_of_canonical P hput
    (Instance.isExact_put hi.ascending hx rfl)
    (Instance.nesting_put_le hi.ascending hn fun _ => rfl)
  have hdraft := (ofInstance?_put P hmem hplain hdis (.enum x)).trans hd
  have hsame := (write_json_eq_ok_iff P).2 ⟨_, hdraft, rfl⟩
  obtain rfl := Except.ok.inj (hwritten.symm.trans hsame)
  exact hback

/-- **Whether a discriminator is read back** is up to its enumeration. An object that is canonical beside
its discriminator has a word when it is written. Its document is read, declared as its own type, as the
object with what the enumeration reads the word as, or refused for the word if that is nothing. -/
theorem read_json_of_word (hc : c.Reachable) (hp : c.planAll .json cancelled = .ok plans)
    (hmem : p ∈ c.plannedProperties i.type) (hdis : c.Distinguishes i.type p)
    (htype : p.type = .named k) (hk : c.kind? k = some (.enumeration e))
    (hi : c.CanonicalBeside .json p.name i) (hx : (i.without p.name).toValue.isExact = true)
    (hn : c.nesting false (i.without p.name).toValue ≤ Json.depthLimit)
    (hw : write .json plans i = .ok doc) :
    ∃ word, c.word? i.type = some word ∧ read .json plans i.type (Text.toBytes doc) =
      match e.read? word with
      | some x => .ok (i.put p.name (.enum x))
      | none => .error (.unknownEnumValue (c.nameOf k) word) := by
  have P := planAll_spec hc hp
  obtain ⟨d, hd, -⟩ := (write_json_eq_ok_iff P).1 hw
  obtain ⟨o, plan, pss, W, -, -⟩ := written_of_ofObject? P hd
  obtain ⟨r, g, hnames⟩ := hdis
  obtain ⟨q, word, hq, hqn, hword, -⟩ := W.exists_word P g
  obtain ⟨p', hp', hpn, hplain, -⟩ := P.exists_discriminator g hnames
  obtain rfl := P.wellFormed.eq_of_name W.type hp' hmem hpn
  refine ⟨word, hword, ?_⟩
  rcases hread : e.read? word with _ | x
  · exact read_json_of_refused_word P hmem hplain ⟨r, g, hnames⟩ hword htype hk hi hx hn hw hread
  · exact read_json_of_taken_word P hmem hplain ⟨r, g, hnames⟩ hword htype hk hi hx hn hw hread

end Document

/-! ## Animals -/

/-- Cats and dogs are animals. They are told apart by their sort, and the one sort that there is stands
for cats. -/
def Catalogue.animals : Catalogue :=
  .ofEntities [
    ⟨"Sort", .enumeration ⟨[⟨"Cat", "cat"⟩], true, false⟩⟩,
    ⟨"Animal", .object
      { properties := [
          { name := "sort", wire := "sort", type := .named ⟨8⟩, required := true },
          { name := "name", wire := "name", type := .named ⟨0⟩ }]
        discriminator := some "sort"
        isAbstract := true }⟩,
    ⟨"Cat", .object { base := some ⟨9⟩, discriminatorValue := some "cat" }⟩,
    ⟨"Dog", .object { base := some ⟨9⟩, discriminatorValue := some "dog" }⟩]

/-- The animals, sealed. -/
def Catalogue.sealedAnimals : Catalogue :=
  animals.withForest ⟨[⟨⟨9⟩, "sort", [("cat", ⟨10⟩), ("dog", ⟨11⟩)]⟩],
    [(⟨9⟩, ⟨9⟩), (⟨10⟩, ⟨9⟩), (⟨11⟩, ⟨9⟩)]⟩

theorem Catalogue.reachable_sealedAnimals : sealedAnimals.Reachable := by
  have hopen : animals.Reachable := .ofEntities (by decide)
  exact .trySeal hopen rfl

/-- The plans of the animals for JSON. -/
def Catalogue.animalPlans : PlanSet :=
  (sealedAnimals.planAll .json).toOption.getD ⟨.json, [], []⟩

theorem Catalogue.planAll_sealedAnimals : sealedAnimals.planAll .json = .ok animalPlans := by
  decide

namespace Document

open Catalogue Outcome

/-- The sort of an animal. -/
def sort : Property := { name := "sort", wire := "sort", type := .named ⟨8⟩, required := true }

/-- An animal of a type, with what it holds as its sort. -/
def animal (t : Handle) (v : Value) : Instance := ⟨t, [("name", .text "Rex"), ("sort", v)]⟩

theorem distinguishes_sort {t : Handle} (ht : sealedAnimals.base? t = some ⟨9⟩) :
    sealedAnimals.Distinguishes t sort :=
  ⟨⟨9⟩, governs_of_base?_eq_none (by decide) ⟨_, rfl, rfl⟩ (.of_base ht (.refl _)), _, rfl, rfl⟩

/-- An animal is canonical whatever its sort. -/
theorem canonicalBeside_animal {t : Handle}
    (ht : sealedAnimals.plannedProperties t =
      [sort, { name := "name", wire := "name", type := .named ⟨0⟩ }]) (v : Value) :
    sealedAnimals.CanonicalBeside .json "sort" (animal t v) := by
  constructor <;> simp only [animal, ht, List.forall_mem_cons]
  · have hkeys : ["name", "sort"].Pairwise (· < ·) := by decide
    exact Table.ascending_iff_keys.2 hkeys
  · intro k w hkw
    simp only [List.mem_cons, Prod.mk.injEq, List.not_mem_nil, or_false] at hkw
    rcases hkw with ⟨rfl, -⟩ | ⟨rfl, -⟩
    · exact ⟨_, List.mem_cons_of_mem _ List.mem_cons_self, rfl⟩
    · exact ⟨_, List.mem_cons_self, rfl⟩
  · exact ⟨fun h => absurd rfl h, by simp, by simp⟩
  · exact ⟨by simp [sort], by simp, by simp⟩
  · refine ⟨fun h => absurd rfl h, fun _ w hw => ?_, by simp⟩
    obtain rfl := Option.some.inj hw
    exact .primitive rfl trivial
  · exact ⟨by simp [sort], by simp, by simp⟩

/-- A cat or a dog is written whatever its sort. -/
theorem exists_write_animal {t : Handle} (ht : t = ⟨10⟩ ∨ t = ⟨11⟩) (v : Value) :
    ∃ doc, write .json animalPlans (animal t v) = .ok doc := by
  have hplanned : sealedAnimals.plannedProperties t =
      [sort, { name := "name", wire := "name", type := .named ⟨0⟩ }] := by
    rcases ht with rfl | rfl <;> decide
  have hdis : sealedAnimals.Distinguishes t sort := by
    rcases ht with rfl | rfl <;> exact distinguishes_sort (by decide)
  have hobject : ∃ o w, sealedAnimals.object? t = some o ∧ o.isAbstract = false ∧
      sealedAnimals.word? t = some w := by
    rcases ht with rfl | rfl <;> exact ⟨_, _, rfl, rfl, rfl⟩
  obtain ⟨o, w, ho, hconcrete, hword⟩ := hobject
  refine (exists_json_iff_accepted (planAll_spec reachable_sealedAnimals planAll_sealedAnimals) _).2 ?_
  refine .object ho (.refl _) hconcrete (fun r g => ⟨w, hword⟩) ?_ ?_ ?_ ?_ <;>
    simp only [animal, hplanned, List.forall_mem_cons]
  · exact ⟨fun _ hno => absurd hdis hno, by simp, by simp⟩
  · refine ⟨fun _ hno => absurd hdis hno, fun _ _ v hv => ?_, by simp⟩
    obtain rfl := Option.some.inj hv
    exact .primitive rfl trivial
  · exact ⟨by simp [sort], by simp, by simp⟩
  · exact ⟨by simp [sort], by simp, by simp⟩

/-- **A document that is written need not be read**: the enumeration of the discriminator does not take
the word of the type. -/
theorem not_read_json_of_word :
    sealedAnimals.Reachable ∧ sealedAnimals.planAll .json = .ok animalPlans ∧
    sort ∈ sealedAnimals.plannedProperties ⟨11⟩ ∧ sealedAnimals.Distinguishes ⟨11⟩ sort ∧
    sealedAnimals.kind? ⟨8⟩ = some (.enumeration ⟨[⟨"Cat", "cat"⟩], true, false⟩) ∧
    sealedAnimals.CanonicalBeside .json sort.name (animal ⟨11⟩ (.enum (.known "Cat"))) ∧
    ((animal ⟨11⟩ (.enum (.known "Cat"))).without sort.name).toValue.isExact = true ∧
    sealedAnimals.nesting false ((animal ⟨11⟩ (.enum (.known "Cat"))).without sort.name).toValue ≤
      Json.depthLimit ∧
    ∃ doc, write .json animalPlans (animal ⟨11⟩ (.enum (.known "Cat"))) = .ok doc ∧
      read .json animalPlans ⟨11⟩ (Text.toBytes doc) = .error (.unknownEnumValue "Sort" "dog") := by
  have P := planAll_spec reachable_sealedAnimals planAll_sealedAnimals
  have hmem : sort ∈ sealedAnimals.plannedProperties ⟨11⟩ := by decide
  have hdis : sealedAnimals.Distinguishes ⟨11⟩ sort := distinguishes_sort (by decide)
  have hi : sealedAnimals.CanonicalBeside .json sort.name (animal ⟨11⟩ (.enum (.known "Cat"))) :=
    canonicalBeside_animal (by decide) _
  have hk : sealedAnimals.kind? ⟨8⟩ = some (.enumeration ⟨[⟨"Cat", "cat"⟩], true, false⟩) := rfl
  have hword : sealedAnimals.word? ⟨11⟩ = some "dog" := rfl
  obtain ⟨doc, hw⟩ := exists_write_animal (.inr rfl) (.enum (.known "Cat"))
  exact ⟨reachable_sealedAnimals, planAll_sealedAnimals, hmem, hdis, hk, hi, rfl, by decide, doc, hw,
    read_json_of_refused_word P hmem rfl hdis hword rfl hk hi rfl (by decide) hw (by decide)⟩

/-- A cat is read back with its sort, which is not what it held. -/
theorem read_json_of_word_cat : ∃ doc,
    write .json animalPlans (animal ⟨10⟩ .null) = .ok doc ∧
      read .json animalPlans ⟨10⟩ (Text.toBytes doc) =
        .ok (animal ⟨10⟩ (.enum (.known "Cat"))) := by
  have hk : sealedAnimals.kind? ⟨8⟩ = some (.enumeration ⟨[⟨"Cat", "cat"⟩], true, false⟩) := rfl
  have hmem : sort ∈ sealedAnimals.plannedProperties (animal ⟨10⟩ .null).type := by decide
  obtain ⟨doc, hw⟩ := exists_write_animal (.inl rfl) .null
  obtain ⟨word, hword, hread⟩ := read_json_of_word reachable_sealedAnimals planAll_sealedAnimals hmem
    (distinguishes_sort (by decide)) rfl hk (canonicalBeside_animal (by decide) _) rfl (by decide) hw
  obtain rfl := Option.some.inj hword
  exact ⟨doc, hw, hread⟩

end Document

end Marshal
