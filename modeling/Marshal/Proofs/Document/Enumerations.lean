import Marshal.Proofs.Document.Retention
import Marshal.Proofs.Json.Drafts

/-!
# Words of enumerations

What is written for a value of an enumeration is the word of the first member of its name.
`Catalogue.enumWord_of_read` says what becomes of a word whose case matters when it is read and
written again: it is kept if its member is the first of its name, and every word that no member has
is kept. A catalogue is sealed without a look at the names of members, so two words can be read as
one value (`Document.not_kept_of_read`).
-/

namespace Marshal

open Outcome

/-! ## Reading a word -/

/-- **An enumeration is read from a text.** -/
theorem Decode.exists_text_of_enumeration {σ : Type} [Source σ] {s : PlanSet} {h : Handle}
    {p : EnumPlan} (hp : s.enum? h = some p) {field : String} {x y : σ} {v : Value}
    (hr : enumeration s h field x = .ok v y) :
    ∃ raw, Source.scalar x = .ok (.text raw) y ∧ enumValue p raw = .ok v := by
  unfold enumeration at hr
  rw [hp] at hr
  obtain ⟨t, x', ht, hr⟩ := run_bind_eq_ok_iff.1 hr
  cases t with
  | text raw =>
    rcases hv : enumValue p raw with e | v'
    · rw [enumOfToken, hv] at hr
      cases hr
    · rw [enumOfToken, hv] at hr
      cases hr
      exact ⟨raw, ht, hv⟩
  | _ => cases hr

namespace Member

/-- The member that a word of an enumeration stands for, if case matters. -/
theorem wire_of_match? {members : List Member} {raw : String} {m : Member}
    (h : match? members true raw = some m) : m ∈ members ∧ m.wire = raw :=
  ⟨List.mem_of_find?_eq_some h,
    beq_iff_eq.1 (List.find?_some (p := fun m : Member => m.wire == raw) h)⟩

/-- Members of different names are each found by its own. -/
theorem named?_of_nodup {members : List Member} (hd : (members.map name).Nodup) {m : Member}
    (hm : m ∈ members) : named? members m.name = some m := by
  obtain ⟨n, hmem, hn, hname⟩ := exists_named? hm
  rw [hn, List.inj_on_of_nodup_map hd hmem hm hname]

end Member

/-! ## Writing it again -/

namespace Catalogue

variable {c : Catalogue} {f : Format} {s : PlanSet}

/-- The word of a known member is kept if the member is the first of its name. -/
theorem WellFormed.word_eq_iff (W : c.WellFormed) {h : Handle} {e : Enumeration}
    (he : c.kind? h = some (.enumeration e)) (hcase : e.caseSensitive = true) {raw : String}
    {m n : Member} (hm : Member.match? e.members true raw = some m)
    (hn : Member.named? e.members m.name = some n) :
    n.wire = raw ↔ ∀ k ∈ e.members, k.wire = raw → Member.named? e.members k.name = some k := by
  have hword : ∀ k ∈ e.members, k.wire = raw → k = m := by
    intro k hk hwire
    have hmatch := W.match?_wire he hk
    rw [hcase, hwire, hm] at hmatch
    exact (Option.some.inj hmatch).symm
  obtain ⟨hmem, hwire⟩ := Member.wire_of_match? hm
  constructor
  · intro hnraw k hk hkwire
    obtain rfl := hword k hk hkwire
    rw [hn, hword n (List.mem_of_find?_eq_some hn) hnraw]
  · intro hall
    obtain rfl := Option.some.inj (hn.symm.trans (hall m hmem hwire))
    exact hwire

/-- **What is written for a word that was read.** Where case matters, an enumeration is read from a
text, and the value is written as a word that is read as it again. That word is the text itself
unless the member that has it as its word stands behind another of the same name. -/
theorem enumWord_of_read (hc : c.Reachable) {cancelled : Bool} (hp : c.planAll f cancelled = .ok s)
    {h : Handle} {e : Enumeration} (he : c.kind? h = some (.enumeration e))
    (hcase : e.caseSensitive = true) {σ : Type} [Source σ] {field : String} {x y : σ} {v : Value}
    (hread : Decode.enumeration s h field x = .ok v y) :
    ∃ raw w word, Source.scalar x = .ok (.text raw) y ∧ v = .enum w ∧
      Encode.enumWord s h w = .ok word ∧
      (∀ {τ : Type} [Sink τ] (pos : Position) (nullable : Bool),
        (Encode.value s pos (.enumeration h) nullable v : Writing τ Unit) =
          Sink.scalar pos (.text word)) ∧
      e.read? word = some w ∧
      (word = raw ↔
        ∀ m ∈ e.members, m.wire = raw → Member.named? e.members m.name = some m) ∧
      ((e.members.map Member.name).Nodup → word = raw) := by
  have P := planAll_spec hc hp
  have hplan := P.enum?_eq_some_iff.2 ⟨e, he, rfl⟩
  obtain ⟨raw, hraw, hv⟩ := Decode.exists_text_of_enumeration hplan hread
  obtain ⟨w, hw, rfl⟩ := exists_read?_of_enumValue hv
  obtain ⟨word, hword, hback⟩ := P.exists_word he (holds_of_read? hw)
  have hkept : word = raw ↔
      ∀ m ∈ e.members, m.wire = raw → Member.named? e.members m.name = some m := by
    rw [Enumeration.read?, hcase] at hw
    rw [Encode.enumWord, hplan] at hword
    rcases hm : Member.match? e.members true raw with _ | m
    · -- no member has the word, so the text itself was kept
      rw [hm] at hw
      dsimp only at hw
      split at hw
      · rename_i hopen
        obtain rfl := Option.some.inj hw
        obtain rfl := Except.ok.inj ((if_pos hopen).symm.trans hword)
        refine ⟨fun _ m hmem hwire => ?_, fun _ => rfl⟩
        exact absurd (beq_iff_eq.2 hwire) (List.find?_eq_none.1 hm m hmem)
      · cases hw
    · rw [hm] at hw
      obtain rfl := Option.some.inj hw
      obtain ⟨n, -, hn, -⟩ := Member.exists_named? (Member.wire_of_match? hm).1
      dsimp only at hword
      rw [hn] at hword
      obtain rfl := Except.ok.inj hword
      exact P.wellFormed.word_eq_iff he hcase hm hn
  refine ⟨raw, w, word, hraw, rfl, hword, fun pos nullable => ?_, hback, hkept,
    fun hd => hkept.2 fun m hm _ => Member.named?_of_nodup hd hm⟩
  rw [Encode.value, hword]
  rfl

/-- Listings in an order. Its two words have been given one name. -/
def listings : Catalogue :=
  .ofEntities [
    ⟨"Order", .enumeration ⟨[⟨"Rising", "asc"⟩, ⟨"Rising", "desc"⟩], true, false⟩⟩,
    ⟨"Listing", .object
      { properties := [{ name := "order", wire := "order", type := .named ⟨8⟩ }] }⟩]

/-- The listings, sealed. -/
def sealedListings : Catalogue := listings.withForest ⟨[], []⟩

theorem reachable_sealedListings : sealedListings.Reachable := by
  have hopen : listings.Reachable := .ofEntities (by decide)
  exact .trySeal hopen rfl

/-- The plans of the listings for JSON. -/
def listingPlans : PlanSet := (sealedListings.planAll .json).toOption.getD ⟨.json, [], []⟩

theorem planAll_sealedListings : sealedListings.planAll .json = .ok listingPlans := by
  decide

/-- The word of the first of two members of one name is kept. -/
theorem enumWord_of_read_listing :
    Decode.enumeration listingPlans ⟨8⟩ "order" (Json.Reader.ofTree (.text "asc")) =
        .ok (.enum (.known "Rising")) ⟨none, []⟩ ∧
      Encode.enumWord listingPlans ⟨8⟩ (.known "Rising") = .ok "asc" := by
  have hread : Decode.enumeration listingPlans ⟨8⟩ "order" (Json.Reader.ofTree (.text "asc")) =
      .ok (.enum (.known "Rising")) ⟨none, []⟩ := rfl
  obtain ⟨raw, w, word, hraw, hw, hword, -, -, hkept, -⟩ :=
    enumWord_of_read reachable_sealedListings planAll_sealedListings rfl rfl hread
  obtain rfl := Value.enum.inj hw
  have hraw' : (Source.scalar (Json.Reader.ofTree (.text "asc")) : EStateM.Result DecodeError
      Json.Reader Token) = .ok (.text "asc") ⟨none, []⟩ := rfl
  obtain ⟨ht, -⟩ := EStateM.Result.ok.inj (hraw'.symm.trans hraw)
  obtain rfl := Token.text.inj ht
  obtain rfl := hkept.2 (by decide)
  exact ⟨hread, hword⟩

end Catalogue

namespace Document

open Catalogue Draft

/-- A listing, which has one order to be in. -/
def listing : Instance := ⟨⟨9⟩, [("order", .enum (.known "Rising"))]⟩

/-- **A word is not kept**: the second word of a sealed enumeration is read as the name that the
first has too, and written as the first. -/
theorem not_kept_of_read :
    sealedListings.Reachable ∧ sealedListings.planAll .json = .ok listingPlans ∧
      sealedListings.kind? ⟨8⟩ =
        some (.enumeration ⟨[⟨"Rising", "asc"⟩, ⟨"Rising", "desc"⟩], true, false⟩) ∧
      read .json listingPlans ⟨9⟩ (Text.toBytes "\x7b\"order\":\"desc\"\x7d") = .ok listing ∧
      write .json listingPlans listing = .ok "\x7b\"order\":\"asc\"\x7d" := by
  have hread : (read .json listingPlans ⟨9⟩
      (Text.toBytes "\x7b\"order\":\"desc\"\x7d")).toOption.map listing.same = some true := by
    decide +kernel
  refine ⟨reachable_sealedListings, planAll_sealedListings, rfl, read_eq_of_same rfl hread, ?_⟩
  have hsteps : (plan? listingPlans none ⟨9⟩).map (fun plan => plan.write.steps) =
      some [⟨"order", "order", .value (.enumeration ⟨8⟩), .element, false, false⟩] := rfl
  obtain ⟨plan, hplan, hsteps⟩ := Option.map_eq_some_iff.1 hsteps
  have hword : Encode.enumWord listingPlans ⟨8⟩ (.known "Rising") = .ok "asc" := rfl
  refine (write_json_eq_ok_iff (planAll_spec reachable_sealedListings planAll_sealedListings)).2
    ⟨.object [("order", .element, text "asc")], ?_, rfl⟩
  simp [ofInstance?, listing, ofObject?, ofStep?, ofValue?, Table.find?, hplan, hsteps, hword]
  rfl

end Document

end Marshal
