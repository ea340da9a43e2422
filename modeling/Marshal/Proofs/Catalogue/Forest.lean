import Mathlib.Data.List.Pairwise
import Marshal.Proofs.Catalogue.Rules
import Marshal.Proofs.Catalogue.Walk
import Marshal.Proofs.Table.Ascending

/-!
# The forest of hierarchies

The walk keeps one invariant, `Grown`: the forest holds just the visited types that are governed,
each in the hierarchy of the type that governs it, and a hierarchy holds the words of its visited
types. `visit_eq_ok` says all that a visit can do. From it comes the step (`Grown.visit`) and from that
the walk (`grown_of_resolveForest`), for any catalogue. When a visit and the walk succeed is said by
`exists_visit_iff` and `exists_resolveForest_iff`: when each type fits in.
-/

namespace Marshal

namespace Forest

/-- The hierarchy with a root. -/
def rootedAt? (f : Forest) (r : Handle) : Option Hierarchy :=
  f.hierarchies.find? fun y => y.root = r

theorem hierarchyOf?_eq_some_iff {f : Forest} {h : Handle} {y : Hierarchy} :
    f.hierarchyOf? h = some y ↔
      ∃ r, Table.find? f.membership h = some r ∧ f.rootedAt? r = some y := by
  rw [hierarchyOf?, Option.bind_eq_some_iff]
  rfl

theorem find?_map_put (ys : List Hierarchy) (y : Hierarchy) (r : Handle) :
    (ys.map fun z => if z.root = y.root then y else z).find? (fun z => z.root = r) =
      if r = y.root ∧ ys.any (fun z => z.root = y.root) = true then some y
      else ys.find? fun z => z.root = r := by
  induction ys with
  | nil => simp
  | cons z ys ih =>
    rw [List.map_cons, List.find?_cons, ih, List.find?_cons, List.any_cons]
    by_cases hz : z.root = y.root <;> by_cases hr : r = y.root <;> grind

/-- Putting a hierarchy in replaces the one with its root and no other. -/
theorem rootedAt?_put (f : Forest) (y : Hierarchy) (h r : Handle) :
    (f.put y h).rootedAt? r = if r = y.root then some y else f.rootedAt? r := by
  rw [rootedAt?, put]
  by_cases ha : (f.hierarchies.any fun z => z.root = y.root) = true
  · simp only [ha, if_true, find?_map_put, and_true]
    rfl
  · simp only [if_neg ha, List.find?_append, List.find?_singleton]
    by_cases hr : r = y.root
    · have hn : f.hierarchies.find? (fun z => z.root = r) = none := by
        simpa [hr] using ha
      simp [hr ▸ hn, hr]
    · have hr' : ¬ y.root = r := fun e => hr e.symm
      simp [hr, hr', rootedAt?]

theorem membership_put (f : Forest) (y : Hierarchy) (h k : Handle) :
    Table.find? (f.put y h).membership k =
      if k = h then some y.root else Table.find? f.membership k :=
  Table.find?_insert _ _ _ _

end Forest

namespace Catalogue

variable {c : Catalogue}

/-! ## What governs a type -/

theorem Names.unique {h : Handle} {d e : String} (hd : c.Names h d) (he : c.Names h e) : d = e := by
  obtain ⟨o, ho, hd⟩ := hd
  obtain ⟨o', ho', he⟩ := he
  obtain rfl := Option.some.inj (ho.symm.trans ho')
  exact Option.some.inj (hd.symm.trans he)

/-- A type that names a discriminator and inherits from what governs another is that. -/
theorem Governs.eq_of_inherits {r h a : Handle} {d : String} (g : c.Governs r h)
    (ha : c.Inherits r a) (hd : c.Names a d) : a = r := by
  rcases inherits_iff_below.1 ha with rfl | hb
  · rfl
  · exact absurd hd (g.2.2 a d hb)

/-- **At most one type governs a type.** -/
theorem Governs.unique {r r' h : Handle} (g : c.Governs r h) (g' : c.Governs r' h) : r = r' := by
  obtain ⟨d, hd⟩ := g.2.1
  obtain ⟨d', hd'⟩ := g'.2.1
  rcases g.1.total g'.1 with hi | hi
  · exact (g.eq_of_inherits hi hd').symm
  · exact g'.eq_of_inherits hi hd

theorem Governs.self {r h : Handle} (g : c.Governs r h) : c.Governs r r :=
  ⟨.refl r, g.2⟩

/-- A type at the top that names a discriminator governs whatever inherits from it. -/
theorem governs_of_base?_eq_none {r h : Handle} {d : String} (hr : c.base? r = none)
    (hd : c.Names r d) (hh : c.Inherits h r) : c.Governs r h := by
  refine ⟨hh, ⟨d, hd⟩, fun a _ ha => ?_⟩
  obtain ⟨b, hb, -⟩ := Relation.TransGen.head'_iff.1 ha
  rw [Extends, hr] at hb
  cases hb

theorem Governs.of_inherits {r h k : Handle} (g : c.Governs r h) (hk : c.Inherits k h) :
    c.Governs r k :=
  ⟨hk.trans g.1, g.2⟩

/-- What governs a type governs every ancestor that names a discriminator. -/
theorem Governs.of_names {r h a : Handle} {d : String} (g : c.Governs r h) (ha : c.Inherits h a)
    (hd : c.Names a d) : c.Governs r a := by
  rcases g.1.total ha with hi | hi
  · rw [g.eq_of_inherits hi hd]
    exact g.self
  · exact ⟨hi, g.2⟩

/-- What governs a type is the type itself or governs its base. -/
theorem governs_iff {r h : Handle} :
    c.Governs r h ↔ (r = h ∧ c.Governs h h) ∨ ∃ b, c.base? h = some b ∧ c.Governs r b := by
  constructor
  · intro g
    rcases inherits_iff.1 g.1 with rfl | ⟨b, hb, hi⟩
    · exact .inl ⟨rfl, g⟩
    · exact .inr ⟨b, hb, hi, g.2⟩
  · rintro (⟨rfl, g⟩ | ⟨b, hb, g⟩)
    · exact g
    · exact g.of_inherits (.of_base hb (.refl b))

/-- **A type is governed as soon as it or an ancestor names a discriminator.** -/
theorem Grounded.exists_governs {h : Handle} (hh : c.Grounded h) :
    (∃ a d, c.Inherits h a ∧ c.Names a d) → ∃ r, c.Governs r h := by
  refine Grounded.induction (P := fun h => (∃ a d, c.Inherits h a ∧ c.Names a d) →
    ∃ r, c.Governs r h) (fun h _ ih => ?_) hh
  by_cases hup : ∃ b a d, c.base? h = some b ∧ c.Inherits b a ∧ c.Names a d
  · obtain ⟨b, a, d, hb, hi, hd⟩ := hup
    obtain ⟨r, g⟩ := ih b hb ⟨a, d, hi, hd⟩
    exact fun _ => ⟨r, g.of_inherits (.of_base hb (.refl b))⟩
  · rintro ⟨a, d, ha, hd⟩
    obtain rfl | ⟨b, hb, hi⟩ := inherits_iff.1 ha
    · refine ⟨a, .refl a, ⟨d, hd⟩, fun x e hx hxe => ?_⟩
      obtain ⟨b, hb, hi⟩ := below_iff.1 hx
      exact hup ⟨b, x, e, hb, hi, hxe⟩
    · exact absurd ⟨b, a, d, hb, hi, hd⟩ hup

theorem exists_governs (hc : c.Acyclic) {h : Handle} :
    (∃ a d, c.Inherits h a ∧ c.Names a d) → ∃ r, c.Governs r h :=
  (hc.grounded h).exists_governs

/-! ## The invariant of the walk -/

/-- A hierarchy as it is when the types in `done` have been visited. -/
structure Describes (c : Catalogue) (done : List Handle) (r : Handle) (y : Hierarchy) : Prop where
  root : y.root = r
  property : c.Names r y.property
  ascending : Table.Ascending y.variants
  variants : ∀ w k, Table.find? y.variants w = some k ↔
    k ∈ done ∧ c.Governs r k ∧ c.word? k = some w

/-- The forest as it is when the types in `done` have been visited. -/
structure Grown (c : Catalogue) (done : List Handle) (f : Forest) : Prop where
  /-- With a type all its ancestors have been visited. -/
  upward : ∀ h ∈ done, ∀ a, c.Inherits h a → a ∈ done
  /-- The members are the visited types that are governed. -/
  member : ∀ h r, Table.find? f.membership h = some r ↔ h ∈ done ∧ c.Governs r h
  /-- The hierarchies are those of the visited types that govern. -/
  rooted : ∀ r, r ∈ done → c.Governs r r → ∃ y, f.rootedAt? r = some y ∧ Describes c done r y

theorem grown_nil : Grown c [] .empty where
  upward := by simp
  member := by simp [Forest.empty, Table.find?]
  rooted := by simp

variable {done : List Handle} {f : Forest} {h r : Handle} {o : ObjectType}

/-- The hierarchy of a visited type. -/
theorem Grown.hierarchyOf? (g : Grown c done f) (hd : h ∈ done) (gr : c.Governs r h) :
    ∃ y, f.hierarchyOf? h = some y ∧ Describes c done r y := by
  obtain ⟨y, hy, hdesc⟩ := g.rooted r (g.upward h hd r gr.1) gr.self
  exact ⟨y, Forest.hierarchyOf?_eq_some_iff.2 ⟨r, (g.member h r).2 ⟨hd, gr⟩, hy⟩, hdesc⟩

theorem Grown.hierarchyOf?_eq_none (g : Grown c done f) (gr : ∀ r, ¬ c.Governs r h) :
    f.hierarchyOf? h = none := by
  rw [Option.eq_none_iff_forall_ne_some]
  intro y hy
  obtain ⟨r, hr, -⟩ := Forest.hierarchyOf?_eq_some_iff.1 hy
  exact gr r ((g.member h r).1 hr).2

/-- A visit may change only the hierarchy that the visited type belongs to. -/
theorem Describes.cons_of_not_governs {y : Hierarchy} (d : Describes c done r y)
    (gr : ¬ c.Governs r h) : Describes c (h :: done) r y where
  root := d.root
  property := d.property
  ascending := d.ascending
  variants w k := by
    rw [d.variants, List.mem_cons]
    constructor
    · rintro ⟨hk, hg⟩
      exact ⟨.inr hk, hg⟩
    · rintro ⟨rfl | hk, hg⟩
      · exact absurd hg.1 gr
      · exact ⟨hk, hg⟩

/-- The types of a list, together with their ancestors, when one more is visited after its base. -/
theorem upward_cons (hup : ∀ h ∈ done, ∀ a, c.Inherits h a → a ∈ done)
    (hb : ∀ b, c.base? h = some b → b ∈ done) :
    ∀ k ∈ h :: done, ∀ a, c.Inherits k a → a ∈ h :: done := by
  intro k hk a ha
  rcases List.mem_cons.1 hk with rfl | hk
  · rcases inherits_iff.1 ha with rfl | ⟨b, hkb, hi⟩
    · exact List.mem_cons_self
    · exact List.mem_cons_of_mem _ (hup b (hb b hkb) a hi)
  · exact List.mem_cons_of_mem _ (hup k hk a ha)

/-- A visit to a type that nothing governs leaves the forest as it should be. -/
theorem Grown.cons_of_not_governed (g : Grown c done f) (hb : ∀ b, c.base? h = some b → b ∈ done)
    (gr : ∀ r, ¬ c.Governs r h) : Grown c (h :: done) f where
  upward := upward_cons g.upward hb
  member k r := by
    rw [g.member, List.mem_cons]
    constructor
    · rintro ⟨hk, hg⟩
      exact ⟨.inr hk, hg⟩
    · rintro ⟨rfl | hk, hg⟩
      · exact absurd hg (gr r)
      · exact ⟨hk, hg⟩
  rooted r hr hg := by
    rcases List.mem_cons.1 hr with rfl | hr
    · exact absurd hg (gr r)
    · obtain ⟨y, hy, hdesc⟩ := g.rooted r hr hg
      exact ⟨y, hy, hdesc.cons_of_not_governs (gr r)⟩

/-- A visit to a governed type puts its hierarchy, extended by the type, into the forest. -/
theorem Grown.put (g : Grown c done f) (hb : ∀ b, c.base? h = some b → b ∈ done)
    (gr : c.Governs r h) {y : Hierarchy} (hy : Describes c (h :: done) r y) :
    Grown c (h :: done) (f.put y h) where
  upward := upward_cons g.upward hb
  member k r' := by
    rw [Forest.membership_put, hy.root]
    split
    · rename_i hk
      subst hk
      simp only [Option.some.injEq, List.mem_cons, true_or, true_and]
      exact ⟨fun e => e ▸ gr, gr.unique⟩
    · rename_i hk
      simp only [g.member, List.mem_cons, hk, false_or]
  rooted r' hr' hg' := by
    rw [Forest.rootedAt?_put, hy.root]
    split
    · rename_i e
      exact ⟨y, rfl, e ▸ hy⟩
    · rename_i hne
      have hn : ¬ c.Governs r' h := fun g' => hne (g'.unique gr)
      rcases List.mem_cons.1 hr' with rfl | hr'
      · exact absurd hg' hn
      · obtain ⟨z, hz, hdesc⟩ := g.rooted r' hr' hg'
        exact ⟨z, hz, hdesc.cons_of_not_governs hn⟩

/-! ## A visit -/

theorem isTextual_iff {r : Reference} : c.isTextual r = true ↔ ∃ k, r = .named k ∧
    (c.kind? k = some (.primitive .string) ∨ ∃ e, c.kind? k = some (.enumeration e)) := by
  cases r with
  | named k =>
    simp only [isTextual, Reference.named.injEq, exists_eq_left']
    split <;> simp_all
  | collection => simp [isTextual]

/-- The first element with a key that no other has. -/
theorem find?_key_eq_some_iff {α β : Type} [DecidableEq β] {key : α → β} {l : List α}
    (hn : (l.map key).Nodup) {k : β} {a : α} :
    l.find? (fun x => key x = k) = some a ↔ a ∈ l ∧ key a = k := by
  constructor
  · intro ha
    exact ⟨List.mem_of_find?_eq_some ha, by simpa using List.find?_some ha⟩
  · rintro ⟨ha, hk⟩
    rcases hx : l.find? (fun x => key x = k) with _ | x
    · exact absurd (List.find?_eq_none.1 hx a ha) (by simpa using hk)
    · have hxk : key x = k := by simpa using List.find?_some hx
      rw [List.inj_on_of_nodup_map hn ha (List.mem_of_find?_eq_some hx) (hk.trans hxk.symm)]

theorem discriminatorFault?_eq_none_iff {d : String}
    (hn : ((c.effectiveProperties h).map Property.name).Nodup) :
    c.discriminatorFault? h d = none ↔
      ∃ p ∈ c.effectiveProperties h, p.name = d ∧ c.Discriminates p := by
  unfold discriminatorFault?
  split
  · rename_i hp
    simp only [reduceCtorEq, false_iff, not_exists, not_and]
    intro p hp' hd
    rw [(find?_key_eq_some_iff hn).2 ⟨hp', hd⟩] at hp
    simp at hp
  · rename_i p hp
    have hiff : (∃ p ∈ c.effectiveProperties h, p.name = d ∧ c.Discriminates p) ↔
        c.Discriminates p := by
      constructor
      · rintro ⟨q, hq, hd, hdisc⟩
        obtain rfl := Option.some.inj (hp.symm.trans ((find?_key_eq_some_iff hn).2 ⟨hq, hd⟩))
        exact hdisc
      · exact fun hdisc => ⟨p, List.mem_of_find?_eq_some hp, by simpa using List.find?_some hp, hdisc⟩
    rw [hiff, Discriminates, ← isTextual_iff]
    cases p.required <;> cases p.nullable <;> cases c.isTextual p.type <;> simp

/-- What a type must satisfy by itself to be visited. -/
structure Fits (c : Catalogue) (h : Handle) : Prop where
  agree : ∀ r d e, c.Governs r h → c.Names r d → c.Names h e → e = d
  discriminable : ∀ d, c.Governs h h → c.Names h d →
    ∃ p ∈ c.effectiveProperties h, p.name = d ∧ c.Discriminates p
  inside : ∀ w, c.word? h = some w → ∃ r, c.Governs r h
  covered : ∀ r o, c.Governs r h → c.object? h = some o → o.isAbstract = false →
    (∀ k, c.base? k ≠ some h) → ∃ w, c.word? h = some w

/-- Two types do not share a hierarchy and a word. -/
def Apart (c : Catalogue) (h k : Handle) : Prop :=
  ∀ r w, c.Governs r h → c.Governs r k → c.word? h = some w → c.word? k ≠ some w

theorem Apart.symm (hk : c.Apart h r) : c.Apart r h :=
  fun _ w g g' hw hw' => hk _ w g' g hw' hw

theorem base_eq (ho : c.object? h = some o) : o.base = c.base? h := by
  rw [base?, ho]
  rfl

theorem names_iff (ho : c.object? h = some o) {d : String} : c.Names h d ↔ o.discriminator = some d := by
  simp [Names, ho]

/-- A type that governs itself starts a hierarchy, as nothing visited belongs to its own. -/
theorem governing_of_self (g : Grown c done f) (hh : h ∉ done)
    (hb : ∀ b, c.base? h = some b → b ∈ done) (ho : c.object? h = some o) (gs : c.Governs h h) :
    (∀ y, c.governing f h o = .ok (some y) → Describes c done h y) ∧
      ((∀ d, c.Names h d → c.discriminatorFault? h d = none) ↔
        ∃ y, c.governing f h o = .ok (some y)) := by
  have hin : (c.base? h).bind f.hierarchyOf? = none := by
    rcases hb' : c.base? h with _ | b
    · rfl
    · refine g.hierarchyOf?_eq_none fun r gb => ?_
      have e := gs.unique (gb.of_inherits (.of_base hb' (.refl b)))
      exact hh (g.upward b (hb b hb') h (e ▸ gb.1))
  obtain ⟨d, hd⟩ := gs.2.1
  unfold governing
  simp only [base_eq ho, hin, (names_iff ho).1 hd]
  have hnew : Describes c done h ⟨h, d, []⟩ :=
    { root := rfl
      property := hd
      ascending := Table.ascending_nil
      variants := fun w k => by
        simp only [Table.find?_nil, reduceCtorEq, false_iff, not_and]
        exact fun hk gk => absurd (g.upward k hk h gk.1) hh }
  have hdisc : (∀ e, c.Names h e → c.discriminatorFault? h e = none) ↔
      c.discriminatorFault? h d = none :=
    ⟨fun H => H d hd, fun H e he => hd.unique he ▸ H⟩
  rw [hdisc]
  rcases c.discriminatorFault? h d with _ | fault
  · exact ⟨fun y hy => by cases hy; exact hnew, fun _ => ⟨_, rfl⟩, fun _ => rfl⟩
  · simp

/-- A type whose base is governed belongs to the hierarchy of its base. -/
theorem governing_of_base (g : Grown c done f) (ho : c.object? h = some o) {b : Handle}
    (hb : c.base? h = some b) (hd : b ∈ done) (gb : c.Governs r b) :
    (∀ y, c.governing f h o = .ok (some y) → Describes c done r y) ∧
      ((∀ d e, c.Names r d → c.Names h e → e = d) ↔ ∃ y, c.governing f h o = .ok (some y)) := by
  obtain ⟨z, hz, hdesc⟩ := g.hierarchyOf? hd gb
  have hin : (c.base? h).bind f.hierarchyOf? = some z := by rw [hb]; exact hz
  have hag : (∀ d e, c.Names r d → c.Names h e → e = d) ↔ ∀ e, c.Names h e → e = z.property := by
    constructor
    · exact fun H e he => H _ e hdesc.property he
    · intro H d e hd he
      rw [H e he, hdesc.property.unique hd]
  unfold governing
  rw [base_eq ho, hin, hag]
  simp only [names_iff ho]
  rcases o.discriminator with _ | own
  · simp only [reduceCtorEq, false_implies, implies_true, true_iff]
    exact ⟨fun y hy => by cases hy; exact hdesc, z, rfl⟩
  · simp only [Option.some.injEq, forall_eq']
    split
    · rename_i e
      exact ⟨fun y hy => by cases hy; exact hdesc, fun _ => ⟨z, rfl⟩, fun _ => e⟩
    · rename_i e
      simp [e]

/-- The hierarchy found for a governed type that is visited after its base, and when it is found. -/
theorem governing_spec (g : Grown c done f) (hh : h ∉ done)
    (hb : ∀ b, c.base? h = some b → b ∈ done) (ho : c.object? h = some o) (gr : c.Governs r h) :
    (∀ y, c.governing f h o = .ok (some y) → Describes c done r y) ∧
    ((∀ r d e, c.Governs r h → c.Names r d → c.Names h e → e = d) ∧
      (∀ d, c.Governs h h → c.Names h d → c.discriminatorFault? h d = none) ↔
      ∃ y, c.governing f h o = .ok (some y)) := by
  rcases governs_iff.1 gr with ⟨rfl, gs⟩ | ⟨b, hb', gb⟩
  · obtain ⟨hdesc, hfound⟩ := governing_of_self g hh hb ho gs
    refine ⟨hdesc, ?_⟩
    rw [← hfound]
    exact ⟨fun H d hd => H.2 d gs hd, fun H => ⟨fun r' d e g' hd he => (g'.unique gs ▸ he.unique) hd,
      fun d _ hd => H d hd⟩⟩
  · obtain ⟨hdesc, hfound⟩ := governing_of_base g ho hb' (hb b hb') gb
    have hself : ¬ c.Governs h h := fun gs => by
      obtain rfl := gs.unique gr
      exact hh (g.upward b (hb b hb') h gb.1)
    refine ⟨hdesc, ?_⟩
    rw [← hfound]
    exact ⟨fun H d e hd he => H.1 r d e gr hd he, fun H => ⟨fun r' d e g' hd he =>
      H d e (g'.unique gr ▸ hd) he, fun _ gs => absurd gs hself⟩⟩

/-- A type that is governed finds no hierarchy only by an error. -/
theorem governing_ne_none (g : Grown c done f) (hb : ∀ b, c.base? h = some b → b ∈ done)
    (ho : c.object? h = some o) (gr : c.Governs r h) : c.governing f h o ≠ .ok none := by
  intro hg
  unfold governing at hg
  rw [base_eq ho] at hg
  split at hg
  · split at hg <;> simp at hg
  · split at hg <;> simp at hg
  · -- no discriminator of its own, so the base is governed
    rename_i hd
    rcases governs_iff.1 gr with ⟨rfl, ⟨-, ⟨d, o', ho', hd'⟩, -⟩⟩ | ⟨b, hb', gb⟩
    · obtain rfl := Option.some.inj (ho.symm.trans ho')
      simp [hd] at hd'
    · obtain ⟨z, hz, -⟩ := g.hierarchyOf? (hb b hb') gb
      rw [hb'] at hg
      simp [hz] at hg

/-- A type that nothing governs finds no hierarchy. -/
theorem governing_of_not_governed (g : Grown c done f) (hg : c.Grounded h)
    (ho : c.object? h = some o) (gr : ∀ r, ¬ c.Governs r h) : c.governing f h o = .ok none := by
  have hd : o.discriminator = none := by
    rcases hd : o.discriminator with _ | d
    · rfl
    · obtain ⟨r, hr⟩ := hg.exists_governs ⟨h, d, .refl h, o, ho, hd⟩
      exact absurd hr (gr r)
  have hin : (c.base? h).bind f.hierarchyOf? = none := by
    rcases hb : c.base? h with _ | b
    · rfl
    · exact g.hierarchyOf?_eq_none fun r hr => gr r (hr.of_inherits (.of_base hb (.refl b)))
  rw [governing, base_eq ho, hd, hin]

/-- A type without a word adds none to its hierarchy. -/
theorem Describes.cons_of_no_word {y : Hierarchy} (hy : Describes c done r y)
    (hw : c.word? h = none) : Describes c (h :: done) r y where
  root := hy.root
  property := hy.property
  ascending := hy.ascending
  variants w k := by
    rw [hy.variants, List.mem_cons]
    constructor
    · rintro ⟨hk, hg⟩
      exact ⟨.inr hk, hg⟩
    · rintro ⟨rfl | hk, hg⟩
      · simp [hw] at hg
      · exact ⟨hk, hg⟩

/-- A type with a word that is free adds it to its hierarchy. -/
theorem Describes.cons_of_word {y : Hierarchy} (hy : Describes c done r y) (gr : c.Governs r h)
    {v : String} (hw : c.word? h = some v) (hfree : Table.find? y.variants v = none) :
    Describes c (h :: done) r { y with variants := Table.insert y.variants v h } where
  root := hy.root
  property := hy.property
  ascending := Table.ascending_insert hy.ascending _ _
  variants w k := by
    rw [Table.find?_insert]
    split
    · rename_i e
      subst e
      simp only [Option.some.injEq, List.mem_cons]
      constructor
      · rintro rfl
        exact ⟨.inl rfl, gr, hw⟩
      · rintro ⟨rfl | hk, gk, hkw⟩
        · rfl
        · have := (hy.variants w k).2 ⟨hk, gk, hkw⟩
          simp [hfree] at this
    · rename_i e
      rw [hy.variants, List.mem_cons]
      constructor
      · rintro ⟨hk, hg⟩
        exact ⟨.inr hk, hg⟩
      · rintro ⟨rfl | hk, gk, hkw⟩
        · rw [hw] at hkw
          exact absurd (Option.some.inj hkw).symm e
        · exact ⟨hk, gk, hkw⟩

/-- The visited types share no word with a type whose words are free in its hierarchy. -/
theorem Describes.apart_iff {y : Hierarchy} (hy : Describes c done r y) (gr : c.Governs r h) :
    (∀ k ∈ done, c.Apart k h) ↔ ∀ w, c.word? h = some w → Table.find? y.variants w = none := by
  constructor
  · intro H w hw
    rw [Option.eq_none_iff_forall_ne_some]
    intro k hk
    obtain ⟨hkd, gk, hkw⟩ := (hy.variants w k).1 hk
    exact H k hkd r w gk gr hkw hw
  · intro H k hk r' w gk gr' hkw hw
    obtain rfl := gr'.unique gr
    exact absurd ((hy.variants w k).2 ⟨hk, gk, hkw⟩) (by simp [H w hw])

/-- Adding the word of a governed type to its hierarchy, and when that succeeds. -/
theorem withWord_spec {y : Hierarchy} (hy : Describes c done r y) (gr : c.Governs r h)
    (ho : c.object? h = some o) :
    (∀ y', c.withWord y h o = .ok y' → Describes c (h :: done) r y') ∧
    ((∀ k ∈ done, c.Apart k h) ∧
      (o.isAbstract = false → (∀ k, c.base? k ≠ some h) → ∃ w, c.word? h = some w) ↔
      ∃ y', c.withWord y h o = .ok y') := by
  have hword : c.word? h = o.discriminatorValue := by rw [word?, ho]; rfl
  rw [hy.apart_iff gr, hword, withWord]
  rcases hv : o.discriminatorValue with _ | v
  · have hdesc := hy.cons_of_no_word (hword.trans hv)
    have hempty : (c.children h).isEmpty = true ↔ ∀ k, c.base? k ≠ some h := by
      rw [List.isEmpty_iff, List.eq_nil_iff_forall_not_mem]
      simp only [mem_children, ne_eq]
    simp only [reduceCtorEq, false_implies, implies_true, exists_false, true_and, imp_false]
    split
    · rename_i hb
      simp only [Bool.and_eq_true, Bool.not_eq_true', hempty] at hb
      simpa using hb
    · rename_i hb
      simp only [Bool.and_eq_true, Bool.not_eq_true', hempty, not_and] at hb
      exact ⟨fun y' e => by cases e; exact hdesc, fun _ => ⟨y, rfl⟩, fun _ => hb⟩
  · simp only [Option.some.injEq, forall_eq', exists_eq', implies_true, and_true]
    split
    · rename_i first hfirst
      simp [hfirst]
    · rename_i hnone
      refine ⟨fun y' e => ?_, fun _ => ⟨_, rfl⟩, fun _ => hnone⟩
      cases e
      exact hy.cons_of_word gr (hword.trans hv) hnone

/-- What a visit does that succeeds: it leaves the forest as it is when nothing governs the type, and
else puts the hierarchy of the type in, which now holds its word. -/
theorem visit_eq_ok (g : Grown c done f) (hg : c.Grounded h) (hh : h ∉ done)
    (hb : ∀ b, c.base? h = some b → b ∈ done) (ho : c.object? h = some o) {f' : Forest}
    (hv : c.visit f h = .ok f') :
    (f' = f ∧ ∀ r, ¬ c.Governs r h) ∨
      ∃ r y, c.Governs r h ∧ Describes c (h :: done) r y ∧ f' = f.put y h := by
  simp only [visit, ho] at hv
  by_cases gov : ∃ r, c.Governs r h
  · obtain ⟨r, gr⟩ := gov
    obtain ⟨_ | y, hgov, hv⟩ := Outcome.bind_eq_ok_iff.1 hv
    · exact absurd hgov (governing_ne_none g hb ho gr)
    · obtain ⟨y', hw, hv⟩ := Outcome.bind_eq_ok_iff.1 hv
      have hy := (withWord_spec ((governing_spec g hh hb ho gr).1 y hgov) gr ho).1 y' hw
      exact .inr ⟨r, y', gr, hy, (Outcome.pure_eq_ok_iff.1 hv).symm⟩
  · rw [not_exists] at gov
    rw [governing_of_not_governed g hg ho gov] at hv
    rcases hvalue : o.discriminatorValue with _ | v
    · rw [hvalue] at hv
      exact .inl ⟨(Except.ok.inj hv).symm, gov⟩
    · simp [hvalue, bind, Except.bind, throw, throwThe, MonadExceptOf.throw] at hv

/-- **A step of the walk.** A visit keeps the invariant. -/
theorem Grown.visit (g : Grown c done f) (hg : c.Grounded h) (hh : h ∉ done)
    (hb : ∀ b, c.base? h = some b → b ∈ done) (ho : c.object? h = some o) {f' : Forest}
    (hv : c.visit f h = .ok f') : Grown c (h :: done) f' := by
  obtain ⟨rfl, gov⟩ | ⟨r, y, gr, hy, rfl⟩ := visit_eq_ok g hg hh hb ho hv
  · exact g.cons_of_not_governed hb gov
  · exact g.put hb gr hy

/-- Visiting an object type for the first time and after its base succeeds exactly when the type fits
in and is apart from the types visited before. -/
theorem exists_visit_iff (g : Grown c done f) (hg : c.Grounded h) (hh : h ∉ done)
    (hb : ∀ b, c.base? h = some b → b ∈ done) (ho : c.object? h = some o)
    (hn : ((c.effectiveProperties h).map Property.name).Nodup) :
    c.Fits h ∧ (∀ k ∈ done, c.Apart k h) ↔ ∃ f', c.visit f h = .ok f' := by
  have hword : c.word? h = o.discriminatorValue := by rw [word?, ho]; rfl
  simp only [Catalogue.visit, ho]
  by_cases gov : ∃ r, c.Governs r h
  · obtain ⟨r, gr⟩ := gov
    obtain ⟨hgov, hgoviff⟩ := governing_spec g hh hb ho gr
    have hfits : c.Fits h ↔
        ((∀ r d e, c.Governs r h → c.Names r d → c.Names h e → e = d) ∧
          (∀ d, c.Governs h h → c.Names h d → c.discriminatorFault? h d = none)) ∧
        (o.isAbstract = false → (∀ k, c.base? k ≠ some h) → ∃ w, c.word? h = some w) := by
      simp only [discriminatorFault?_eq_none_iff hn]
      constructor
      · exact fun F => ⟨⟨F.agree, F.discriminable⟩, F.covered r o gr ho⟩
      · rintro ⟨⟨ha, hd⟩, hcov⟩
        refine ⟨ha, hd, fun _ _ => ⟨r, gr⟩, fun r' o' _ ho' => ?_⟩
        obtain rfl := Option.some.inj (ho.symm.trans ho')
        exact hcov
    rw [hfits, hgoviff]
    rcases hgy : c.governing f h o with e | _ | y
    · simp [bind, Except.bind]
    · exact absurd hgy (governing_ne_none g hb ho gr)
    · have hwiff := (withWord_spec (hgov y hgy) gr ho).2
      simp only [bind, Except.bind, Except.ok.injEq, Option.some.injEq, exists_eq', true_and]
      rw [and_comm, hwiff]
      rcases hyw : c.withWord y h o with e | y'
      · simp
      · simp [pure, Except.pure]
  · rw [not_exists] at gov
    rw [governing_of_not_governed g hg ho gov]
    have hapart : ∀ k ∈ done, c.Apart k h := fun k _ r w _ gr => absurd gr (gov r)
    have hfits : c.Fits h ↔ o.discriminatorValue = none := by
      rw [← hword, Option.eq_none_iff_forall_ne_some]
      constructor
      · exact fun F w hw => absurd (F.inside w hw) (by simpa using gov)
      · exact fun H => ⟨fun r _ _ gr => absurd gr (gov r), fun _ gr => absurd gr (gov h),
          fun w hw => absurd hw (H w), fun r _ gr => absurd gr (gov r)⟩
    rw [hfits]
    rcases o.discriminatorValue with _ | v
    · simpa [bind, Except.bind, pure, Except.pure] using hapart
    · simp [bind, Except.bind, throw, throwThe, MonadExceptOf.throw]

/-! ## The walk -/

/-- **A walk keeps** what every visit keeps that comes for the first time and after the base. -/
theorem foldlM_visit_keeps {P : List Handle → Forest → Prop}
    (hP : ∀ {done f h o f'}, P done f → c.Grounded h → h ∉ done →
      (∀ b, c.base? h = some b → b ∈ done) → c.object? h = some o → c.visit f h = .ok f' →
        P (h :: done) f')
    {l : List Handle} (p : P done f) (hl : c.Orderly done l)
    (hobj : ∀ h ∈ l, c.Grounded h ∧ ∃ o, c.object? h = some o) {f' : Forest}
    (hf : l.foldlM c.visit f = .ok f') : P (l.reverse ++ done) f' := by
  induction l generalizing done f with
  | nil =>
    obtain rfl := Outcome.pure_eq_ok_iff.1 hf
    exact p
  | cons h l ih =>
    obtain ⟨hh, hb, hl⟩ := hl
    obtain ⟨⟨hg, o, ho⟩, hobj⟩ := List.forall_mem_cons.1 hobj
    rw [List.foldlM_cons] at hf
    obtain ⟨f₁, hv, hf⟩ := Outcome.bind_eq_ok_iff.1 hf
    rw [List.reverse_cons, List.append_assoc]
    exact ih (hP p hg hh hb ho hv) hl hobj hf

/-- A walk succeeds exactly when each type it visits fits in, and they are all apart. -/
theorem exists_foldlM_visit_iff {l : List Handle} (g : Grown c done f) (hl : c.Orderly done l)
    (hobj : ∀ h ∈ l, c.Grounded h ∧ ∃ o, c.object? h = some o)
    (hn : ∀ h ∈ l, ((c.effectiveProperties h).map Property.name).Nodup) :
    (∀ h ∈ l, c.Fits h) ∧ l.Pairwise c.Apart ∧ (∀ k ∈ done, ∀ h ∈ l, c.Apart k h) ↔
      ∃ f', l.foldlM c.visit f = .ok f' := by
  induction l generalizing done f with
  | nil => simp [pure, Except.pure]
  | cons h l ih =>
    obtain ⟨hh, hb, hl⟩ := hl
    obtain ⟨⟨hg, o, ho⟩, hobj⟩ := List.forall_mem_cons.1 hobj
    obtain ⟨hnh, hn⟩ := List.forall_mem_cons.1 hn
    have hviff := exists_visit_iff g hg hh hb ho hnh
    have key : (∀ k ∈ h :: l, c.Fits k) ∧ (h :: l).Pairwise c.Apart ∧
        (∀ k ∈ done, ∀ x ∈ h :: l, c.Apart k x) ↔
        (c.Fits h ∧ ∀ k ∈ done, c.Apart k h) ∧ (∀ k ∈ l, c.Fits k) ∧ l.Pairwise c.Apart ∧
          ∀ k ∈ h :: done, ∀ x ∈ l, c.Apart k x := by
      simp only [List.forall_mem_cons, List.pairwise_cons]
      exact ⟨fun ⟨⟨hF, hFs⟩, ⟨hA, hP⟩, hD⟩ =>
          ⟨⟨hF, fun k hk => (hD k hk).1⟩, hFs, hP, hA, fun k hk => (hD k hk).2⟩,
        fun ⟨⟨hF, hD⟩, hFs, hP, hA, hD'⟩ =>
          ⟨⟨hF, hFs⟩, ⟨hA, hP⟩, fun k hk => ⟨hD k hk, hD' k hk⟩⟩⟩
    rw [key, hviff, List.foldlM_cons]
    rcases hvis : c.visit f h with e | f₁
    · simp [bind, Except.bind]
    · rw [ih (g.visit hg hh hb ho hvis) hl hobj hn]
      simp only [Except.ok.injEq, exists_eq', true_and]
      rfl

/-- The forest that is made of a catalogue, whatever is wrong with its bases, holds what the walk
visits. -/
theorem grown_of_resolveForest (hf : c.resolveForest = .ok f) : Grown c c.topDown.reverse f := by
  have := foldlM_visit_keeps (P := Grown c)
    (fun g hg hh hb ho hv => g.visit hg hh hb ho hv) grown_nil (orderly_topDown c)
    (fun h hh => ⟨grounded_of_mem_topDown hh, exists_object?_of_mem_topDown hh⟩) hf
  rwa [List.append_nil] at this

/-- **The walk over a catalogue** succeeds exactly when every object type fits in, and any two are
apart. -/
theorem exists_resolveForest_iff (hc : c.Acyclic) (hb : c.BasesAreObjects)
    (hn : ∀ h o, c.object? h = some o → ((c.effectiveProperties h).map Property.name).Nodup) :
    (∀ h ∈ c.topDown, c.Fits h) ∧ (∀ h k, h ≠ k → c.Apart h k) ↔
      ∃ f', c.resolveForest = .ok f' := by
  have hiff := exists_foldlM_visit_iff grown_nil (orderly_topDown c)
    (fun h hh => ⟨grounded_of_mem_topDown hh, exists_object?_of_mem_topDown hh⟩) fun h hh => by
      obtain ⟨o, ho⟩ := exists_object?_of_mem_topDown hh
      exact hn h o ho
  rw [resolveForest, ← hiff]
  simp only [List.not_mem_nil, false_implies, implies_true, and_true]
  refine and_congr_right fun _ => ⟨fun H => ?_, fun H h k hne r w gh gk hw hw' => ?_⟩
  · exact (nodup_topDown c).imp fun {h k} hne => H h k hne
  · obtain ⟨o, ho, -⟩ := Option.bind_eq_some_iff.1 hw
    obtain ⟨o', ho', -⟩ := Option.bind_eq_some_iff.1 hw'
    have hmem := (mem_topDown_iff hc hb).2 ⟨o, ho⟩
    have hmem' := (mem_topDown_iff hc hb).2 ⟨o', ho'⟩
    have : Std.Symm c.Apart := ⟨fun _ _ => Apart.symm⟩
    exact H.forall hmem hmem' hne r w gh gk hw hw'

end Catalogue

end Marshal
