import Marshal.Proofs.Document.Retention
import Marshal.Proofs.Markup.Words

/-!
# Repeated discriminators in markup

The concrete type is found ahead of the fields, by the first text that stands where the discriminator
does, and the fields are read after that, where a later text replaces an earlier one. So an object that
is read of markup has the type that the first text selects and holds the last one
(`Document.agrees_iff_of_read_xml`). The two agree in a document that gives the discriminator once, and
in general only if the first text is the last (`Document.not_agrees_of_read_xml`).
-/

namespace Marshal

open Catalogue Decode

/-- An object has the type that its discriminator says, as the dispatch of a plan reads it. -/
def Dispatch.Agrees (d : Dispatch) (i : Instance) : Prop :=
  ∃ word, Table.find? i.fields d.property = some (.text word) ∧
    Table.find? d.variants word = some i.type

/-- A plan dispatches on a property that holds texts. -/
def TypePlan.DispatchesOnText (p : TypePlan) (d : Dispatch) : Prop :=
  p.read.discriminator = some d ∧
    ∃ a, Table.find? p.read.actions d.wire = some a ∧ a.shape = .primitive .string

/-! ## Objects -/

namespace Decode

variable {c : Catalogue} {f : Format} {s : PlanSet} {declared t : Handle} {o : ObjectType}
  {p plan : TypePlan} {d : Dispatch} {scan : Scan} {i : Instance}

/-- What the choice of the concrete type goes by: the word that a look ahead finds. -/
theorem peekField_of_concretePlan {r r' : Markup.Reader} (hd : p.read.discriminator = some d)
    (h : concretePlan s p r = .ok plan r') :
    ∃ word r₁, Markup.Reader.peekField d.wire d.placement r = .ok word r₁ ∧
      ((word = none ∧ plan = p) ∨
        ∃ w k, word = some w ∧ Table.find? d.variants w = some k ∧ s.type? k = some plan) := by
  rw [concretePlan, hd] at h
  obtain ⟨word, r₁, hpeek, h⟩ := Outcome.run_bind_eq_ok_iff.1 h
  refine ⟨word, r₁, hpeek, ?_⟩
  rcases word with _ | w
  · cases h
    exact .inl ⟨rfl, rfl⟩
  · dsimp only at h
    rcases hk : Table.find? d.variants w with _ | k <;> rw [hk] at h
    · cases h
    · obtain ⟨hq, rfl⟩ := Reading.lift_eq_ok_iff.1 h
      exact .inr ⟨w, k, rfl, hk, typePlan_eq_ok_iff.1 hq⟩

/-- **Every plan at or below a declared one** reads the discriminator from the same place, as a
text. -/
theorem readsFrom_of_inherits (P : c.PlannedBy f s) (hp : s.type? declared = some p)
    (hd : p.DispatchesOnText d) (hi : c.Inherits t declared) (ho : c.object? t = some o)
    (hplan : c.Plans f t o plan) : ReadsFrom plan d.property d.wire d.placement := by
  obtain ⟨hd, a, ha, hshape⟩ := hd
  obtain ⟨o', ho', hplan'⟩ := P.plans hp
  obtain ⟨q, hqn, hqc, -, hwire, hplace, hq⟩ := P.exists_dispatched hplan' hd
  obtain ⟨q', hq', hqc', hwire', shape, hforms, hfault, rfl⟩ := (hplan'.actions d.wire a).1 ha
  obtain rfl : q' = q := P.wellFormed.eq_of_wireName ho' hq' hqc' (hq declared (.refl _)) hqc
    (hwire'.trans hwire.symm)
  obtain rfl : shape = .primitive .string := hshape
  constructor
  · refine ⟨fieldAction f q' (.primitive .string), ?_, hqn, rfl⟩
    rw [boundAction, (hplan.actions d.wire _).2 ⟨q', hq t hi, hqc, hwire, _, hforms, hfault, rfl⟩]
    exact Option.filter_eq_some_iff.2 ⟨rfl, decide_eq_true hplace⟩
  · intro key place b hb hbp
    obtain ⟨hfind, hplace'⟩ := Option.filter_eq_some_iff.1 hb
    obtain ⟨q, hq₂, -, rfl, shape, -, -, rfl⟩ := (hplan.actions key b).1 hfind
    obtain rfl := P.wellFormed.eq_of_name ho hq₂ (hq t hi) (Eq.trans hbp hqn.symm)
    exact ⟨hwire, (of_decide_eq_true hplace').symm.trans hplace⟩

/-- **What an object holds as its discriminator** when it is read at or below a declared type: the last
of the texts in that place, and there is one. -/
theorem words_of_scanned (P : c.PlannedBy .xml s) (hp : s.type? declared = some p)
    (hd : p.DispatchesOnText d) (hi : c.Inherits t declared) (ht : s.type? t = some plan) {room : Nat}
    {stack : List Markup.OpenPart} {as : List (String × String)} {isEmpty : Bool}
    {lx lx' : Markup.Lexer}
    (hscan : Scanned (value s room) plan stack as isEmpty lx ⟨[], []⟩ lx' scan)
    (hmake : scan.make plan = .ok i) :
    ∃ words last, Markup.wordsIn d.wire d.placement as isEmpty lx = .ok words ∧
      words.getLast? = some last ∧ Table.find? i.fields d.property = some (.text last) := by
  obtain ⟨o, -, hplan⟩ := P.plans hp
  obtain ⟨q, hqn, hqc, hdis, hwire, -, hq⟩ := P.exists_dispatched hplan hd.1
  obtain ⟨ot, hot, hplan'⟩ := P.plans ht
  obtain ⟨words, hwords, hlast⟩ := hscan.words (value_readsTexts _ _)
    (readsFrom_of_inherits P hp hd hi hot hplan')
  rw [lastOr, Table.find?_nil, Option.or_none, ← hqn,
    ← find?_gathered P.wellFormed hot hplan' (hq t hi) hqc,
    ← find?_of_make hplan' hmake (hq t hi)] at hlast
  -- the discriminator is required, so there is a word
  obtain ⟨v, hv⟩ := exists_of_required hplan' hmake (hq t hi) hqc hdis.1
  obtain ⟨last, hwl, rfl⟩ := Option.map_eq_some_iff.1 (hlast.symm.trans hv)
  exact ⟨words, last, hwords, hwl, hqn ▸ hv⟩

end Decode

namespace Document

open Markup Outcome

/-- The texts that stand at the root of a document under a name, where the placement says. -/
def rootWords (name : String) (placement : Placement) (bytes : List UInt8) :
    Except DecodeError (List String) :=
  match (Lexer.ofSymbols (Text.Symbol.decode bytes)).root with
  | .ok head lx => wordsIn name placement head.attributes head.isEmpty lx
  | .error e _ => .error e

variable {c : Catalogue} {plans : PlanSet} {declared : Handle} {p : TypePlan} {d : Dispatch}
  {bytes : List UInt8} {i : Instance}

/-- The run of reading a document. -/
theorem scanned_of_read_xml (hf : plans.format = .xml)
    (h : read .xml plans declared bytes = .ok i) :
    ∃ head lx p plan scan lx', (Lexer.ofSymbols (Text.Symbol.decode bytes)).root = .ok head lx ∧
      plans.type? declared = some p ∧
      (concretePlan plans p : Reading Reader TypePlan)
          ⟨lx, .vacant, [.object head.attributes head.isEmpty]⟩ =
        .ok plan ⟨lx, .vacant, [.object head.attributes head.isEmpty]⟩ ∧
      Scanned (value plans (depthLimit - 1)) plan [] head.attributes head.isEmpty lx ⟨[], []⟩ lx'
        scan ∧
      scan.make plan = .ok i := by
  unfold read at h
  rw [if_pos hf] at h
  obtain ⟨source, hsource, h⟩ := bind_eq_ok_iff.1 h
  unfold Reader.ofBytes at hsource
  split at hsource
  · rename_i head lx hroot
    cases hsource
    unfold decode at h
    split at h
    · rename_i hobject
      cases h
      obtain ⟨head', p, plan, scan, lx', hcursor, hp, hplan, hscan, hmake, -⟩ :=
        scanned_of_object (value_consumes plans _) hobject
      cases hcursor
      exact ⟨head, lx, p, plan, scan, lx', hroot, hp, hplan, hscan, hmake⟩
    · cases h
  · cases hsource

/-- **The type agrees with the discriminator just when the first word is the last.** Let the plan of
the declared type dispatch on a text. Where a document is read, words stand at its root where the
discriminator does; the first of them selects the type, and the last one is held. -/
theorem agrees_iff_of_read_xml (hc : c.Reachable) {cancelled : Bool}
    (hplans : c.planAll .xml cancelled = .ok plans) (hp : plans.type? declared = some p)
    (hd : p.DispatchesOnText d) (h : read .xml plans declared bytes = .ok i) :
    ∃ words first last, rootWords d.wire d.placement bytes = .ok words ∧
      words.head? = some first ∧ words.getLast? = some last ∧
      Table.find? d.variants first = some i.type ∧
      Table.find? i.fields d.property = some (.text last) ∧ (d.Agrees i ↔ last = first) := by
  have P := planAll_spec hc hplans
  obtain ⟨head, lx, p', plan, scan, lx', hroot, hp', hconcrete, hscan, hmake⟩ :=
    scanned_of_read_xml P.format h
  obtain rfl := Option.some.inj (hp.symm.trans hp')
  obtain ⟨o, ho, hplan⟩ := P.plans hp
  obtain ⟨word, r₁, hpeek, hword⟩ := peekField_of_concretePlan hd.1 hconcrete
  -- the look ahead finds the first of the words
  have hfirst : ∀ {words}, wordsIn d.wire d.placement head.attributes head.isEmpty lx = .ok words →
      words.head? = word := fun hwords => by
    have := (Reader.peekField_of_wordsIn hwords).symm.trans hpeek
    cases this
    rfl
  rcases hword with ⟨rfl, rfl⟩ | ⟨first, k, rfl, hk, hplank⟩
  · obtain ⟨words, last, hwords, hlast, -⟩ := words_of_scanned P hp hd (.refl _) hp hscan hmake
    rw [List.head?_eq_none_iff.1 (hfirst hwords)] at hlast
    cases hlast
  · obtain ⟨hinherits, hwordk⟩ := (P.find?_variants hplan hd.1).1 hk
    obtain ⟨words, last, hwords, hlast, hheld⟩ := words_of_scanned P hp hd hinherits hplank hscan hmake
    obtain rfl : i.type = k := by
      obtain ⟨_, _, hplank'⟩ := P.plans hplank
      rw [type_of_make hmake, hplank'.type]
    refine ⟨words, first, last, ?_, hfirst hwords, hlast, hk, hheld, ?_, ?_⟩
    · rw [rootWords, hroot]
      exact hwords
    · rintro ⟨word, hword, hvariant⟩
      obtain rfl := Value.text.inj (Option.some.inj (hheld.symm.trans hword))
      obtain ⟨-, hword'⟩ := (P.find?_variants hplan hd.1).1 hvariant
      exact Option.some.inj (hword'.symm.trans hwordk)
    · rintro rfl
      exact ⟨last, hheld, hk⟩

/-! ### Notes of two kinds -/

/-- The dispatch of notes. -/
def noteDispatch : Dispatch := ⟨"kind", "kind", .element, [("letter", ⟨10⟩), ("memo", ⟨9⟩)]⟩

theorem exists_note_plan : ∃ p, folderPlans.type? ⟨8⟩ = some p ∧ p.DispatchesOnText noteDispatch := by
  have h : ((folderPlans.type? ⟨8⟩).map fun p =>
      (p.read.discriminator, (Table.find? p.read.actions "kind").map Action.shape)) =
        some (some noteDispatch, some (.primitive .string)) := by decide
  obtain ⟨p, hp, h⟩ := Option.map_eq_some_iff.1 h
  obtain ⟨hd, ha⟩ := Prod.mk.inj h
  obtain ⟨a, ha, hshape⟩ := Option.map_eq_some_iff.1 ha
  exact ⟨p, hp, hd, a, ha, hshape⟩

/-- A memo, as a note that says so once. -/
def memoText : String := "<Note><kind>memo</kind></Note>"

theorem agrees_iff_of_read_xml_memo : ∃ p i words first last,
    folderPlans.type? ⟨8⟩ = some p ∧ p.DispatchesOnText noteDispatch ∧
      read .xml folderPlans ⟨8⟩ (Text.toBytes memoText) = .ok i ∧
      rootWords "kind" .element (Text.toBytes memoText) = .ok words ∧
      words.head? = some first ∧ words.getLast? = some last ∧
      Table.find? noteDispatch.variants first = some i.type ∧
      Table.find? i.fields "kind" = some (.text last) ∧ (noteDispatch.Agrees i ↔ last = first) := by
  have hread : read .xml folderPlans ⟨8⟩ (Text.toBytes memoText) =
      .ok ⟨⟨9⟩, [("kind", .text "memo")]⟩ := read_eq_of_same rfl (by decide +kernel)
  obtain ⟨p, hp, hd⟩ := exists_note_plan
  obtain ⟨words, first, last, hwords⟩ := agrees_iff_of_read_xml reachable_sealedFolders
    planAll_sealedFolders hp hd hread
  exact ⟨p, _, words, first, last, hp, hd, hread, hwords⟩

/-- A note of two kinds. -/
def twoKinds : String := "<Note><kind>memo</kind><kind>letter</kind></Note>"

/-- **A repeated discriminator is read as another one**: the note is a memo, and says that it is a
letter. -/
theorem not_agrees_of_read_xml : sealedFolders.Reachable ∧
    sealedFolders.planAll .xml = .ok folderPlans ∧
      ∃ p, folderPlans.type? ⟨8⟩ = some p ∧ p.DispatchesOnText noteDispatch ∧
        ∃ i, read .xml folderPlans ⟨8⟩ (Text.toBytes twoKinds) = .ok i ∧
          i.type = ⟨9⟩ ∧ Table.find? i.fields "kind" = some (.text "letter") ∧
            ¬ noteDispatch.Agrees i := by
  have hread : read .xml folderPlans ⟨8⟩ (Text.toBytes twoKinds) =
      .ok ⟨⟨9⟩, [("kind", .text "letter")]⟩ := read_eq_of_same rfl (by decide +kernel)
  obtain ⟨p, hp, hd⟩ := exists_note_plan
  refine ⟨reachable_sealedFolders, planAll_sealedFolders, p, hp, hd, _, hread, rfl, rfl, ?_⟩
  rintro ⟨word, hword, hvariant⟩
  obtain rfl := Value.text.inj (Option.some.inj hword)
  revert hvariant
  decide

end Document

end Marshal
