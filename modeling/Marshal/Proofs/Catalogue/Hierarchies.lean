import Marshal.Proofs.Catalogue.Forest
import Marshal.Proofs.Catalogue.Reachable

/-!
# The hierarchies of any catalogue

What the walk visits and what forest it makes, for catalogues with cycles too, and sealed or not. The
walk from a root is the run of a queue (`Drains`): it comes to an end after `size` generations. The
forest has one hierarchy for each visited type that is the topmost on its path to name a
discriminator, and no other (`Tidy`); what it says of each type is collected in `Resolved`.
-/

namespace Marshal.Catalogue

variable {c : Catalogue}

/-! ## The walk as the run of a queue -/

/-- A run of a queue until it is empty: the first type is visited, and the types that have it as
their base go to the end. -/
inductive Drains (c : Catalogue) : List Handle → List Handle → Prop where
  | nil : Drains c [] []
  | cons {h : Handle} {queue visited : List Handle} :
    Drains c (queue ++ c.children h) visited → Drains c (h :: queue) (h :: visited)

/-- A whole level is visited before anything that it puts into the queue. -/
theorem Drains.level {level later visited : List Handle}
    (hd : c.Drains (later ++ level.flatMap c.children) visited) :
    c.Drains (level ++ later) (level ++ visited) := by
  induction level generalizing later with
  | nil => simpa using hd
  | cons h level ih =>
    refine .cons (?_ : c.Drains (level ++ later ++ c.children h) (level ++ visited))
    rw [List.append_assoc]
    refine ih ?_
    rwa [List.append_assoc, ← List.flatMap_cons]

/-- **The generations are what the queue visits**, when there is fuel for all that is below. -/
theorem drains_generations {fuel : Nat} {level : List Handle}
    (hlen : ∀ r ∈ level, ∀ h, c.Inherits h r →
      c.Grounded h ∧ (c.lineage h).length < (c.lineage r).length + fuel) :
    c.Drains level (c.generations fuel level) := by
  induction fuel generalizing level with
  | zero =>
    cases level with
    | nil => exact .nil
    | cons r level => exact absurd (hlen r List.mem_cons_self r (.refl r)).2 (by omega)
  | succ fuel ih =>
    have hnext : c.Drains (level.flatMap c.children)
        (c.generations fuel (level.flatMap c.children)) := by
      refine ih fun k hk h hi => ?_
      obtain ⟨r, hr, hb⟩ := mem_nextLevel.1 hk
      have hkr : c.Inherits k r := .of_base hb (.refl r)
      have hkl := (hlen r hr k hkr).1.length_lineage_of_base hb
      obtain ⟨hg, hl⟩ := hlen r hr h (hi.trans hkr)
      exact ⟨hg, by omega⟩
    rw [generations_succ]
    have hd := @Drains.level c level [] _ hnext
    rwa [List.append_nil] at hd

/-- **The queue that starts with a root comes to an end.** -/
theorem drains_of_mem_roots {r : Handle} (hr : r ∈ c.roots) :
    c.Drains [r] (c.generations c.size [r]) := by
  obtain ⟨o, ho, -⟩ := mem_roots.1 hr
  have hb := base?_of_mem_roots hr
  refine drains_generations fun r' hr' h hi => ?_
  obtain rfl := List.mem_singleton.1 hr'
  have hlen := length_lineage_le_size ho hb hi
  have hpos := List.length_pos_of_ne_nil (lineage_ne_nil c r')
  exact ⟨grounded_of_root hi hb, by omega⟩

/-! ## No hierarchy without a reason -/

/-- The hierarchies of a forest have different roots, which are visited types that govern. -/
structure Tidy (c : Catalogue) (done : List Handle) (f : Forest) : Prop where
  nodup : (f.hierarchies.map Hierarchy.root).Nodup
  governs : ∀ y ∈ f.hierarchies, y.root ∈ done ∧ c.Governs y.root y.root

variable {done : List Handle} {f : Forest} {h : Handle} {o : ObjectType}

theorem tidy_nil : Tidy c [] .empty where
  nodup := List.nodup_nil
  governs := by simp [Forest.empty]

theorem Tidy.mono (t : Tidy c done f) (h : Handle) : Tidy c (h :: done) f where
  nodup := t.nodup
  governs y hy := ⟨List.mem_cons_of_mem _ (t.governs y hy).1, (t.governs y hy).2⟩

/-- Putting in a hierarchy adds no root but its own, and that only where it is missing. -/
theorem Tidy.put (t : Tidy c done f) {y : Hierarchy} (hroot : y.root ∈ done)
    (gr : c.Governs y.root y.root) (h : Handle) : Tidy c done (f.put y h) := by
  rw [Forest.put]
  by_cases ha : (f.hierarchies.any fun z => z.root = y.root) = true
  · simp only [ha, if_true]
    constructor
    · have hroots : (f.hierarchies.map fun z => if z.root = y.root then y else z).map Hierarchy.root =
          f.hierarchies.map Hierarchy.root := by
        rw [List.map_map]
        refine List.map_congr_left fun z _ => ?_
        by_cases hz : z.root = y.root <;> simp [hz]
      rw [hroots]
      exact t.nodup
    · intro z hz
      obtain ⟨x, hx, rfl⟩ := List.mem_map.1 hz
      split
      · exact ⟨hroot, gr⟩
      · exact t.governs x hx
  · simp only [if_neg ha]
    constructor
    · rw [List.map_append]
      refine List.nodup_append.2 ⟨t.nodup, List.nodup_singleton _, fun a ha' b hb => ?_⟩
      obtain ⟨z, hz, rfl⟩ := List.mem_map.1 ha'
      obtain rfl := List.mem_singleton.1 hb
      simp only [List.any_eq_true, decide_eq_true_eq, not_exists, not_and] at ha
      exact ha z hz
    · intro z hz
      rcases List.mem_append.1 hz with hz | hz
      · exact t.governs z hz
      · obtain rfl := List.mem_singleton.1 hz
        exact ⟨hroot, gr⟩

/-- **A visit leaves no hierarchy without a reason.** -/
theorem Tidy.visit (t : Tidy c done f) (g : Grown c done f) (hg : c.Grounded h) (hh : h ∉ done)
    (hb : ∀ b, c.base? h = some b → b ∈ done) (ho : c.object? h = some o) {f' : Forest}
    (hv : c.visit f h = .ok f') : Tidy c (h :: done) f' := by
  obtain ⟨rfl, -⟩ | ⟨r, y, gr, hy, rfl⟩ := visit_eq_ok g hg hh hb ho hv
  · exact t.mono h
  · have hr : r ∈ h :: done := upward_cons g.upward hb h List.mem_cons_self r gr.1
    exact (t.mono h).put (by rwa [hy.root]) (by rw [hy.root]; exact gr.self) h

theorem tidy_of_resolveForest (hf : c.resolveForest = .ok f) : Tidy c c.topDown.reverse f := by
  have := foldlM_visit_keeps (P := fun done f => Tidy c done f ∧ Grown c done f)
    (fun ⟨t, g⟩ hg hh hb ho hv => ⟨t.visit g hg hh hb ho hv, g.visit hg hh hb ho hv⟩)
    ⟨tidy_nil, grown_nil⟩ (orderly_topDown c)
    (fun h hh => ⟨grounded_of_mem_topDown hh, exists_object?_of_mem_topDown hh⟩) hf
  rw [List.append_nil] at this
  exact this.1

/-! ## What the forest says -/

/-- **What the forest of a catalogue says** of the types that are visited. -/
structure Resolved (c : Catalogue) (f : Forest) : Prop where
  /-- No two hierarchies have one root. -/
  nodup : (f.hierarchies.map Hierarchy.root).Nodup
  /-- The roots are the visited types that name a discriminator and have no ancestor that does. -/
  rooted : ∀ r, (∃ y ∈ f.hierarchies, y.root = r) ↔
    r ∈ c.topDown ∧ (∃ d, c.Names r d) ∧ ∀ a d, c.Below r a → ¬ c.Names a d
  /-- A hierarchy has the discriminator that its root names. -/
  property : ∀ y ∈ f.hierarchies, c.Names y.root y.property
  /-- A visited type belongs to a hierarchy as soon as it or an ancestor names a discriminator. -/
  belongs : ∀ h ∈ c.topDown,
    (∃ y, f.hierarchyOf? h = some y) ↔ ∃ a d, c.Inherits h a ∧ c.Names a d
  /-- It belongs to the hierarchy of the topmost of those that do. -/
  member : ∀ h y, f.hierarchyOf? h = some y ↔
    y ∈ f.hierarchies ∧ h ∈ c.topDown ∧ c.Governs y.root h
  /-- The words of a hierarchy stand in order. -/
  ascending : ∀ y ∈ f.hierarchies, Table.Ascending y.variants
  /-- They are those of the types at and below the root. -/
  variants : ∀ y ∈ f.hierarchies, ∀ w k, Table.find? y.variants w = some k ↔
    c.Inherits k y.root ∧ c.word? k = some w
  /-- No two of these types have one word. -/
  distinct : ∀ y ∈ f.hierarchies, ∀ h k w, c.Inherits h y.root → c.Inherits k y.root →
    c.word? h = some w → c.word? k = some w → h = k
  /-- The words that select a declared type are those of the types at and below it. -/
  selected : ∀ h, Table.Ascending ((c.withForest f).variantsFor h) ∧
    ∀ w k, Table.find? ((c.withForest f).variantsFor h) w = some k ↔
      ∃ y, f.hierarchyOf? h = some y ∧ Table.find? y.variants w = some k ∧ c.Inherits k h

theorem variantsFor_withForest (h : Handle) : (c.withForest f).variantsFor h =
    match f.hierarchyOf? h with
    | some y => y.variants.filter fun v => c.isSubtype v.2 h
    | none => [] := by
  simp only [variantsFor, isSubtype, lineage_withForest]
  rfl

/-- A type below one that is visited is visited. -/
theorem mem_topDown_of_inherits {r : Handle} (hr : r ∈ c.topDown) (hi : c.Inherits h r) :
    h ∈ c.topDown := by
  obtain ⟨top, o, htop, ho, hb⟩ := mem_topDown_iff_root.1 hr
  exact mem_topDown_iff_root.2 ⟨top, o, hi.trans htop, ho, hb⟩

/-- **The forest that is made of a catalogue says what it should.** -/
theorem resolved_of_resolveForest (hf : c.resolveForest = .ok f) : c.Resolved f := by
  have G := grown_of_resolveForest hf
  have T := tidy_of_resolveForest hf
  have hrooted : ∀ {r y}, f.rootedAt? r = some y ↔ y ∈ f.hierarchies ∧ y.root = r :=
    find?_key_eq_some_iff T.nodup
  have hgoverns : ∀ y ∈ f.hierarchies, y.root ∈ c.topDown ∧ c.Governs y.root y.root := by
    simpa only [List.mem_reverse] using T.governs
  have hdescribes : ∀ y ∈ f.hierarchies, Describes c c.topDown.reverse y.root y := fun y hy => by
    obtain ⟨hr, gr⟩ := T.governs y hy
    obtain ⟨z, hz, hdesc⟩ := G.rooted y.root hr gr
    obtain rfl := Option.some.inj ((hrooted.2 ⟨hy, rfl⟩).symm.trans hz)
    exact hdesc
  have hmember : ∀ h y, f.hierarchyOf? h = some y ↔
      y ∈ f.hierarchies ∧ h ∈ c.topDown ∧ c.Governs y.root h := fun h y => by
    rw [Forest.hierarchyOf?_eq_some_iff]
    simp only [G.member, hrooted, List.mem_reverse]
    constructor
    · rintro ⟨r, hr, hy, rfl⟩
      exact ⟨hy, hr⟩
    · rintro ⟨hy, hr⟩
      exact ⟨_, hr, hy, rfl⟩
  have hvariants : ∀ y ∈ f.hierarchies, ∀ w k, Table.find? y.variants w = some k ↔
      c.Inherits k y.root ∧ c.word? k = some w := fun y hy w k => by
    obtain ⟨hr, gr⟩ := hgoverns y hy
    rw [(hdescribes y hy).variants, List.mem_reverse]
    constructor
    · rintro ⟨-, gk, hw⟩
      exact ⟨gk.1, hw⟩
    · rintro ⟨hi, hw⟩
      exact ⟨mem_topDown_of_inherits hr hi, gr.of_inherits hi, hw⟩
  exact
    { nodup := T.nodup
      rooted := fun r => by
        constructor
        · rintro ⟨y, hy, rfl⟩
          exact ⟨(hgoverns y hy).1, (hgoverns y hy).2.2⟩
        · rintro ⟨hr, hd, htop⟩
          obtain ⟨y, hy, -⟩ := G.rooted r (List.mem_reverse.2 hr) ⟨.refl r, hd, htop⟩
          exact ⟨y, hrooted.1 hy⟩
      property := fun y hy => (hdescribes y hy).property
      belongs := fun h hh => by
        constructor
        · rintro ⟨y, hy⟩
          obtain ⟨-, -, hi, ⟨d, hd⟩, -⟩ := (hmember h y).1 hy
          exact ⟨y.root, d, hi, hd⟩
        · intro hn
          obtain ⟨r, gr⟩ := (grounded_of_mem_topDown hh).exists_governs hn
          obtain ⟨y, hy, -⟩ := G.hierarchyOf? (List.mem_reverse.2 hh) gr
          exact ⟨y, hy⟩
      member := hmember
      ascending := fun y hy => (hdescribes y hy).ascending
      variants := hvariants
      distinct := fun y hy h k w hh hk hw hw' =>
        Option.some.inj (((hvariants y hy w h).2 ⟨hh, hw⟩).symm.trans
          ((hvariants y hy w k).2 ⟨hk, hw'⟩))
      selected := fun h => by
        rw [variantsFor_withForest]
        rcases hy : f.hierarchyOf? h with _ | y
        · exact ⟨Table.ascending_nil, by simp [Table.find?]⟩
        · have hyf := ((hmember h y).1 hy).1
          have hasc := (hdescribes y hyf).ascending
          refine ⟨hasc.filter _, fun w k => ?_⟩
          simp only [Table.find?_eq_some_iff (hasc.filter _), List.mem_filter, Option.some.injEq,
            exists_eq_left', ← Table.find?_eq_some_iff hasc]
          refine and_congr_right fun hk => ?_
          have hvisited := mem_topDown_of_inherits (hgoverns y hyf).1 ((hvariants y hyf w k).1 hk).1
          exact (grounded_of_mem_topDown hvisited).isSubtype_iff }

/-- **The hierarchies of any catalogue**, whatever its bases are. The queue that starts with a root
comes to an end; the types it visits, each of them once, are those whose bases come to an end at an
object type without a base; and a forest, when one is made, holds their hierarchies. -/
theorem resolveForest_hierarchies (c : Catalogue) :
    (∀ r ∈ c.roots, c.Drains [r] (c.generations c.size [r])) ∧
    c.topDown.Nodup ∧
    (∀ h, h ∈ c.topDown ↔ ∃ r o, c.Inherits h r ∧ c.object? r = some o ∧ o.base = none) ∧
    ∀ f, c.resolveForest = .ok f → c.Resolved f :=
  ⟨fun _ => drains_of_mem_roots, nodup_topDown c, fun _ => mem_topDown_iff_root,
    fun _ => resolved_of_resolveForest⟩

/-- Pets, and three types whose bases run in a circle or into it. -/
def tangle : Catalogue :=
  .ofEntities [
    ⟨"Pet", .object
      { properties := [{ name := "kind", wire := "kind", type := .named ⟨0⟩, required := true }]
        discriminator := some "kind"
        isAbstract := true }⟩,
    ⟨"Cat", .object { base := some ⟨8⟩, discriminatorValue := some "cat" }⟩,
    ⟨"Loop", .object { base := some ⟨11⟩, discriminator := some "turn" }⟩,
    ⟨"Knot", .object { base := some ⟨10⟩ }⟩,
    ⟨"Strand", .object { base := some ⟨10⟩, discriminatorValue := some "strand" }⟩]

theorem reachable_tangle : tangle.Reachable :=
  .ofEntities (by decide)

/-- Only the pets are visited, and they make up the one hierarchy. -/
theorem resolveForest_hierarchies_tangle : tangle.Reachable ∧ tangle.topDown = [⟨8⟩, ⟨9⟩] ∧
    tangle.Drains [⟨8⟩] [⟨8⟩, ⟨9⟩] ∧ ∃ f, tangle.resolveForest = .ok f ∧ tangle.Resolved f ∧
      f.hierarchies = [⟨⟨8⟩, "kind", [("cat", ⟨9⟩)]⟩] := by
  obtain ⟨hdrains, -, -, hresolved⟩ := resolveForest_hierarchies tangle
  refine ⟨reachable_tangle, by decide, hdrains ⟨8⟩ (by decide), _, rfl, hresolved _ rfl, rfl⟩

end Marshal.Catalogue
