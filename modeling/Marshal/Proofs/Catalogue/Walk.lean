import Marshal.Proofs.Catalogue.Lineage

/-!
# The walk from top to bottom

The walk over a catalogue is orderly: it visits each type once, and after its base
(`orderly_topDown`). It visits the types whose bases come to an end at an object type
(`mem_topDown_iff_root`), and so passes over cycles and what is below them. Where there are no cycles
and bases are object types it visits every object type (`mem_topDown_iff`).
-/

namespace Marshal.Catalogue

variable {c : Catalogue}

/-! ## Positions in lineages -/

/-- A type has one topmost ancestor. -/
theorem top_unique {h r r' : Handle} (hr : c.Inherits h r) (hr' : c.Inherits h r')
    (hb : c.base? r = none) (hb' : c.base? r' = none) : r = r' := by
  rcases hr.total hr' with hi | hi
  · exact (eq_of_inherits_of_base?_eq_none hb hi).symm
  · exact eq_of_inherits_of_base?_eq_none hb' hi

theorem Grounded.length_lineage_of_base {h b : Handle} (hh : c.Grounded h)
    (hb : c.base? h = some b) : (c.lineage h).length = (c.lineage b).length + 1 := by
  rw [hh.lineage_of_base hb, List.length_cons]

theorem Grounded.length_lineage_le {h a : Handle} (hh : c.Grounded h) (ha : c.Inherits h a) :
    (c.lineage a).length ≤ (c.lineage h).length := by
  induction ha using Relation.ReflTransGen.head_induction_on with
  | refl => exact le_refl _
  | head hb _ ih =>
    have := hh.length_lineage_of_base hb
    have := ih (hh.of_base hb)
    omega

/-- The rule that bases are object types. -/
def BasesAreObjects (c : Catalogue) : Prop :=
  ∀ h b, c.base? h = some b → ∃ o, c.object? b = some o

theorem object?_of_inherits (hb : c.BasesAreObjects) {h a : Handle} {o : ObjectType}
    (ho : c.object? h = some o) (ha : c.Inherits h a) : ∃ o', c.object? a = some o' := by
  rcases Relation.ReflTransGen.cases_tail ha with rfl | ⟨k, -, hk⟩
  · exact ⟨o, ho⟩
  · exact hb k a hk

/-- A type whose bases come to an end at an object type is an object type, and so is each of its
bases. -/
theorem exists_object?_of_root {h r : Handle} {o : ObjectType} (ho : c.object? r = some o)
    (hi : c.Inherits h r) : ∃ o', c.object? h = some o' := by
  rcases inherits_iff.1 hi with rfl | ⟨b, hb, -⟩
  · exact ⟨o, ho⟩
  · obtain ⟨o', ho', -⟩ := base?_eq_some_iff.1 hb
    exact ⟨o', ho'⟩

theorem grounded_of_root {h r : Handle} (hi : c.Inherits h r) (hb : c.base? r = none) :
    c.Grounded h :=
  grounded_iff.2 ⟨r, hi, hb⟩

theorem length_lineage_le_size {h r : Handle} {o : ObjectType} (ho : c.object? r = some o)
    (hb : c.base? r = none) (hi : c.Inherits h r) : (c.lineage h).length ≤ c.size := by
  refine length_le_size (nodup_lineage c h) fun a ha => ?_
  have har : c.Inherits a r := by
    rcases (inherits_of_mem_lineage ha).total hi with hi | hi
    · exact hi
    · rw [eq_of_inherits_of_base?_eq_none hb hi]
      exact .refl r
  obtain ⟨o', ho'⟩ := exists_object?_of_root ho har
  exact lt_size_of_object? ho'

theorem mem_roots {r : Handle} : r ∈ c.roots ↔ ∃ o, c.object? r = some o ∧ o.base = none := by
  rw [roots, List.mem_filter, mem_objects, decide_eq_true_iff]
  constructor
  · rintro ⟨⟨o, ho⟩, hb⟩
    exact ⟨o, ho, by simpa [base?, ho] using hb⟩
  · rintro ⟨o, ho, hb⟩
    exact ⟨⟨o, ho⟩, by simpa [base?, ho] using hb⟩

theorem base?_of_mem_roots {r : Handle} (hr : r ∈ c.roots) : c.base? r = none := by
  obtain ⟨o, ho, hb⟩ := mem_roots.1 hr
  rw [base?, ho]
  exact hb

/-- An object type has a topmost ancestor, and that is a root. -/
theorem exists_root (hc : c.Acyclic) (hb : c.BasesAreObjects) {h : Handle} {o : ObjectType}
    (ho : c.object? h = some o) : ∃ r ∈ c.roots, c.Inherits h r := by
  obtain ⟨r, hi, hbr⟩ := grounded_iff.1 (hc.grounded h)
  obtain ⟨o', ho'⟩ := object?_of_inherits hb ho hi
  exact ⟨r, mem_roots.2 ⟨o', ho', by simpa [base?, ho'] using hbr⟩, hi⟩

/-! ## Generations -/

theorem generations_nil (c : Catalogue) (fuel : Nat) : c.generations fuel [] = [] := by
  cases fuel <;> rfl

theorem generations_succ (c : Catalogue) (fuel : Nat) (level : List Handle) :
    c.generations (fuel + 1) level = level ++ c.generations fuel (level.flatMap c.children) := by
  cases level with
  | nil => rw [generations_nil, List.flatMap_nil, generations_nil, List.append_nil]
  | cons h level => rw [generations]; simp

theorem mem_nextLevel {level : List Handle} {k : Handle} :
    k ∈ level.flatMap c.children ↔ ∃ h ∈ level, c.base? k = some h := by
  simp only [List.mem_flatMap, mem_children]

theorem inherits_of_mem_generations {fuel : Nat} {level : List Handle} {h : Handle}
    (hh : h ∈ c.generations fuel level) : ∃ r ∈ level, c.Inherits h r := by
  induction fuel generalizing level with
  | zero => simp [generations] at hh
  | succ fuel ih =>
    rw [generations_succ, List.mem_append] at hh
    rcases hh with hh | hh
    · exact ⟨h, hh, .refl h⟩
    · obtain ⟨k, hk, hi⟩ := ih hh
      obtain ⟨r, hr, hb⟩ := mem_nextLevel.1 hk
      exact ⟨r, hr, hi.trans (.of_base hb (.refl r))⟩

theorem mem_generations {fuel : Nat} {level : List Handle} {h r : Handle} (hh : c.Grounded h)
    (hr : r ∈ level) (hi : c.Inherits h r)
    (hlen : (c.lineage h).length < (c.lineage r).length + fuel) : h ∈ c.generations fuel level := by
  induction fuel generalizing level r with
  | zero =>
    have := hh.length_lineage_le hi
    omega
  | succ fuel ih =>
    rw [generations_succ, List.mem_append]
    rcases Relation.ReflTransGen.cases_tail hi with rfl | ⟨k, hk, hb⟩
    · exact .inl hr
    · have := (hh.of_inherits hk).length_lineage_of_base hb
      exact .inr (ih (mem_nextLevel.2 ⟨r, hr, hb⟩) hk (by omega))

/-! ## Orderly visits -/

/-- Visiting a list after the types in `done` meets each type for the first time, and after its
base. -/
def Orderly (c : Catalogue) : List Handle → List Handle → Prop
  | _, [] => True
  | done, h :: rest =>
    h ∉ done ∧ (∀ b, c.base? h = some b → b ∈ done) ∧ c.Orderly (h :: done) rest

theorem orderly_append {done l₁ l₂ : List Handle} :
    c.Orderly done (l₁ ++ l₂) ↔ c.Orderly done l₁ ∧ c.Orderly (l₁.reverse ++ done) l₂ := by
  induction l₁ generalizing done with
  | nil => simp [Orderly]
  | cons h l₁ ih =>
    rw [List.cons_append, Orderly, ih, Orderly, List.reverse_cons, List.append_assoc]
    simp only [List.singleton_append, and_assoc]

/-- Types whose bases have been visited can be visited in any order. -/
theorem orderly_of_bases {done level : List Handle} (hn : level.Nodup)
    (hnot : ∀ h ∈ level, h ∉ done)
    (hb : ∀ h ∈ level, ∀ b, c.base? h = some b → b ∈ done) : c.Orderly done level := by
  induction level generalizing done with
  | nil => exact trivial
  | cons h level ih =>
    obtain ⟨hh, hn⟩ := List.nodup_cons.1 hn
    refine ⟨hnot h List.mem_cons_self, hb h List.mem_cons_self, ih hn (fun k hk hkd => ?_)
      fun k hk b hkb => List.mem_cons_of_mem _ (hb k (List.mem_cons_of_mem _ hk) b hkb)⟩
    rcases List.mem_cons.1 hkd with rfl | hkd
    · exact hh hk
    · exact hnot k (List.mem_cons_of_mem _ hk) hkd

/-- A generation that can be visited after the types in `done`: all on one level, their bases
visited, and nothing visited that is below one of them. -/
structure Generation (c : Catalogue) (n : Nat) (done level : List Handle) : Prop where
  nodup : level.Nodup
  grounded : ∀ h ∈ level, c.Grounded h
  length : ∀ h ∈ level, (c.lineage h).length = n
  bases : ∀ h ∈ level, ∀ b, c.base? h = some b → b ∈ done
  unvisited : ∀ x ∈ done, ∀ h ∈ level, ¬ c.Inherits x h

namespace Generation

variable {n : Nat} {done level : List Handle}

theorem orderly (g : Generation c n done level) : c.Orderly done level :=
  orderly_of_bases g.nodup (fun h hh hd => g.unvisited h hd h hh (.refl h)) g.bases

/-- After a generation the next one can be visited. -/
theorem next (g : Generation c n done level) :
    Generation c (n + 1) (level.reverse ++ done) (level.flatMap c.children) where
  nodup := by
    refine List.nodup_flatMap.2 ⟨fun h _ => nodup_children c h, g.nodup.imp fun {h k} hne => ?_⟩
    refine List.disjoint_left.2 ?_
    intro x hx hx'
    exact hne (Option.some.inj ((mem_children.1 hx).symm.trans (mem_children.1 hx')))
  grounded k hk := by
    obtain ⟨h, hh, hb⟩ := mem_nextLevel.1 hk
    exact (g.grounded h hh).of_extension hb
  length k hk := by
    obtain ⟨h, hh, hb⟩ := mem_nextLevel.1 hk
    rw [((g.grounded h hh).of_extension hb).length_lineage_of_base hb, g.length h hh]
  bases k hk b hkb := by
    obtain ⟨h, hh, hb⟩ := mem_nextLevel.1 hk
    obtain rfl : h = b := Option.some.inj (hb.symm.trans hkb)
    exact List.mem_append_left _ (List.mem_reverse.2 hh)
  unvisited x hx k hk hi := by
    obtain ⟨h, hh, hb⟩ := mem_nextLevel.1 hk
    rcases List.mem_append.1 hx with hx | hx
    · have hx := List.mem_reverse.1 hx
      have := (g.grounded x hx).length_lineage_le hi
      rw [((g.grounded h hh).of_extension hb).length_lineage_of_base hb, g.length h hh,
        g.length x hx] at this
      omega
    · exact g.unvisited x hx h hh (hi.trans (.of_base hb (.refl h)))

end Generation

theorem orderly_generations {n fuel : Nat} {done level : List Handle}
    (g : Generation c n done level) : c.Orderly done (c.generations fuel level) := by
  induction fuel generalizing n done level with
  | zero => exact trivial
  | succ fuel ih =>
    rw [generations_succ, orderly_append]
    exact ⟨g.orderly, ih g.next⟩

theorem orderly_roots {done rs : List Handle} (hn : rs.Nodup)
    (hb : ∀ r ∈ rs, c.base? r = none) (hd : ∀ x ∈ done, ∀ r ∈ rs, ¬ c.Inherits x r) :
    c.Orderly done (rs.flatMap fun r => c.generations c.size [r]) := by
  induction rs generalizing done with
  | nil => exact trivial
  | cons r rs ih =>
    obtain ⟨hr, hn⟩ := List.nodup_cons.1 hn
    have hbr := hb r List.mem_cons_self
    rw [List.flatMap_cons, orderly_append]
    constructor
    · refine orderly_generations (n := 1) ⟨List.nodup_singleton r, ?_, ?_, ?_, ?_⟩
      · simpa using grounded_of_root (.refl r) hbr
      · simp [lineage_of_base?_eq_none hbr]
      · simp [hbr]
      · simpa using fun x hx => hd x hx r List.mem_cons_self
    · refine ih hn (fun k hk => hb k (List.mem_cons_of_mem _ hk)) fun x hx k hk hi => ?_
      rcases List.mem_append.1 hx with hx | hx
      · obtain ⟨r', hr', hi'⟩ := inherits_of_mem_generations (List.mem_reverse.1 hx)
        obtain rfl := List.mem_singleton.1 hr'
        exact hr (top_unique hi' hi hbr (hb k (List.mem_cons_of_mem _ hk)) ▸ hk)
      · exact hd x hx k (List.mem_cons_of_mem _ hk) hi

/-- **The walk visits each type once, and after its base.** -/
theorem orderly_topDown (c : Catalogue) : c.Orderly [] c.topDown :=
  orderly_roots ((nodup_objects c).filter _) (fun _ hr => base?_of_mem_roots hr) (by simp)

theorem Orderly.nodup {done l : List Handle} (hl : c.Orderly done l) :
    l.Nodup ∧ ∀ h ∈ l, h ∉ done := by
  induction l generalizing done with
  | nil => simp
  | cons h l ih =>
    obtain ⟨hh, -, hl⟩ := hl
    obtain ⟨hn, hd⟩ := ih hl
    refine ⟨List.nodup_cons.2 ⟨fun hm => hd h hm List.mem_cons_self, hn⟩, fun k hk => ?_⟩
    rcases List.mem_cons.1 hk with rfl | hk
    · exact hh
    · exact fun hkd => hd k hk (List.mem_cons_of_mem _ hkd)

theorem nodup_topDown (c : Catalogue) : c.topDown.Nodup := (orderly_topDown c).nodup.1

/-- **The walk visits the types whose bases come to an end** at an object type without a base. -/
theorem mem_topDown_iff_root {h : Handle} :
    h ∈ c.topDown ↔ ∃ r o, c.Inherits h r ∧ c.object? r = some o ∧ o.base = none := by
  rw [topDown, List.mem_flatMap]
  constructor
  · rintro ⟨r, hr, hh⟩
    obtain ⟨r', hr', hi⟩ := inherits_of_mem_generations hh
    obtain rfl := List.mem_singleton.1 hr'
    obtain ⟨o, ho, hb⟩ := mem_roots.1 hr
    exact ⟨r', o, hi, ho, hb⟩
  · rintro ⟨r, o, hi, ho, hb⟩
    have hr := mem_roots.2 ⟨o, ho, hb⟩
    have hbr := base?_of_mem_roots hr
    have hlen := length_lineage_le_size ho hbr hi
    have hpos := List.length_pos_of_ne_nil (lineage_ne_nil c r)
    exact ⟨r, hr, mem_generations (grounded_of_root hi hbr) (List.mem_singleton_self r) hi (by omega)⟩

theorem grounded_of_mem_topDown {h : Handle} (hh : h ∈ c.topDown) : c.Grounded h := by
  obtain ⟨r, o, hi, ho, hb⟩ := mem_topDown_iff_root.1 hh
  exact grounded_of_root hi (base?_of_mem_roots (mem_roots.2 ⟨o, ho, hb⟩))

theorem exists_object?_of_mem_topDown {h : Handle} (hh : h ∈ c.topDown) :
    ∃ o, c.object? h = some o := by
  obtain ⟨r, o, hi, ho, -⟩ := mem_topDown_iff_root.1 hh
  exact exists_object?_of_root ho hi

/-- Where nothing is wrong with the bases the walk visits the object types. -/
theorem mem_topDown_iff (hc : c.Acyclic) (hb : c.BasesAreObjects) {h : Handle} :
    h ∈ c.topDown ↔ ∃ o, c.object? h = some o := by
  refine ⟨exists_object?_of_mem_topDown, fun ⟨o, ho⟩ => ?_⟩
  obtain ⟨r, hr, hi⟩ := exists_root hc hb ho
  obtain ⟨o', ho', hbr⟩ := mem_roots.1 hr
  exact mem_topDown_iff_root.2 ⟨r, o', hi, ho', hbr⟩

end Marshal.Catalogue
