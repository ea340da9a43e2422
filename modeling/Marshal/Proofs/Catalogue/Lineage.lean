import Marshal.Catalogue.Hierarchy
import Mathlib.Data.List.Nodup
import Mathlib.Data.List.Perm.Subperm
import Mathlib.Logic.Relation
import Mathlib.Order.WellFounded

/-!
# Lineages

The bases of object types as a relation. In a catalogue whose bases form no cycle the lineage of a
type is the type followed by the lineage of its base (`lineage_of_base`), and its members are what
the type inherits from (`mem_lineage_iff`). The test for cycles finds exactly the cycles
(`acyclic_iff`). In any catalogue, cycles or not, a lineage is the one way up from a type (`Ascent`),
and the bound on its length never cuts it short: `Climb` says why.
-/

namespace Marshal.Catalogue

variable {c : Catalogue}

/-! ## Handles -/

theorem lt_size_of_slot? {h : Handle} {s : Slot} (hs : c.slot? h = some s) : h.index < c.size := by
  unfold slot? at hs
  exact (Array.getElem?_eq_some_iff.1 hs).1

theorem lt_size_of_kind? {h : Handle} {k : Kind} (hk : c.kind? h = some k) : h.index < c.size := by
  obtain ⟨s, hs, -⟩ := Option.bind_eq_some_iff.1 hk
  exact lt_size_of_slot? hs

theorem object?_eq_some_iff {h : Handle} {o : ObjectType} :
    c.object? h = some o ↔ c.kind? h = some (.object o) := by
  unfold object?
  rcases c.kind? h with _ | k
  · simp
  · cases k <;> simp [Kind.object?]

theorem lt_size_of_object? {h : Handle} {o : ObjectType} (ho : c.object? h = some o) :
    h.index < c.size :=
  lt_size_of_kind? (object?_eq_some_iff.1 ho)

theorem base?_eq_some_iff {h b : Handle} :
    c.base? h = some b ↔ ∃ o, c.object? h = some o ∧ o.base = some b := by
  unfold base?
  rw [Option.bind_eq_some_iff]

theorem lt_size_of_base? {h b : Handle} (hb : c.base? h = some b) : h.index < c.size := by
  obtain ⟨o, ho, -⟩ := base?_eq_some_iff.1 hb
  exact lt_size_of_object? ho

theorem mem_handles {h : Handle} : h ∈ c.handles ↔ h.index < c.size := by
  cases h
  simp [handles]

theorem nodup_handles (c : Catalogue) : c.handles.Nodup :=
  List.nodup_range.map fun _ _ h => congrArg Handle.index h

theorem mem_handlesWhere {p : Kind → Bool} {h : Handle} :
    h ∈ c.handlesWhere p ↔ ∃ k, c.kind? h = some k ∧ p k = true := by
  rw [handlesWhere, List.mem_filter, mem_handles, Option.any_eq_true_iff_get]
  constructor
  · rintro ⟨-, hk, hp⟩
    exact ⟨_, (Option.some_get hk).symm, hp⟩
  · rintro ⟨k, hk, hp⟩
    exact ⟨lt_size_of_kind? hk, by simp [hk], by simpa [hk] using hp⟩

theorem mem_objects {h : Handle} : h ∈ c.objects ↔ ∃ o, c.object? h = some o := by
  rw [objects, mem_handlesWhere]
  constructor
  · rintro ⟨k, hk, hp⟩
    obtain ⟨o, ho⟩ := Option.isSome_iff_exists.1 hp
    exact ⟨o, by rw [object?, hk]; exact ho⟩
  · rintro ⟨o, ho⟩
    exact ⟨_, object?_eq_some_iff.1 ho, rfl⟩

theorem mem_enumerations {h : Handle} :
    h ∈ c.enumerations ↔ ∃ e, c.kind? h = some (.enumeration e) := by
  rw [enumerations, mem_handlesWhere]
  constructor
  · rintro ⟨k, hk, hp⟩
    cases k with
    | enumeration e => exact ⟨e, hk⟩
    | primitive => simp [Kind.enumeration?] at hp
    | object => simp [Kind.enumeration?] at hp
  · rintro ⟨e, he⟩
    exact ⟨_, he, rfl⟩

theorem nodup_objects (c : Catalogue) : c.objects.Nodup := (nodup_handles c).filter _

theorem nodup_enumerations (c : Catalogue) : c.enumerations.Nodup := (nodup_handles c).filter _

theorem mem_children {h k : Handle} : k ∈ c.children h ↔ c.base? k = some h := by
  rw [children, List.mem_filter, mem_handles, decide_eq_true_iff]
  exact ⟨And.right, fun hb => ⟨lt_size_of_base? hb, hb⟩⟩

theorem nodup_children (c : Catalogue) (h : Handle) : (c.children h).Nodup :=
  (nodup_handles c).filter _

/-- There are no more handles than slots. -/
theorem length_le_size {hs : List Handle} (hn : hs.Nodup) (hlt : ∀ h ∈ hs, h.index < c.size) :
    hs.length ≤ c.size := by
  have hsub : hs ⊆ c.handles := fun h hh => mem_handles.2 (hlt h hh)
  simpa [handles] using (hn.subperm hsub).length_le

/-! ## Inheritance as a relation -/

/-- The second type is the base of the first. -/
def Extends (c : Catalogue) (h b : Handle) : Prop := c.base? h = some b

/-- The second type is the first or one of its ancestors. -/
def Inherits (c : Catalogue) : Handle → Handle → Prop := Relation.ReflTransGen c.Extends

/-- The second type is an ancestor of the first. -/
def Below (c : Catalogue) : Handle → Handle → Prop := Relation.TransGen c.Extends

/-- No type is its own ancestor. -/
def Acyclic (c : Catalogue) : Prop := ∀ h, ¬ c.Below h h

/-- The bases of a type lead into no cycle. -/
def Grounded (c : Catalogue) (h : Handle) : Prop := ∀ a, c.Inherits h a → ¬ c.Below a a

theorem Inherits.refl (h : Handle) : c.Inherits h h := Relation.ReflTransGen.refl

theorem Inherits.trans {h a b : Handle} (ha : c.Inherits h a) (hb : c.Inherits a b) :
    c.Inherits h b :=
  Relation.ReflTransGen.trans ha hb

theorem Inherits.of_base {h b a : Handle} (hb : c.base? h = some b) (ha : c.Inherits b a) :
    c.Inherits h a :=
  Relation.ReflTransGen.head hb ha

theorem inherits_iff {h a : Handle} :
    c.Inherits h a ↔ a = h ∨ ∃ b, c.base? h = some b ∧ c.Inherits b a := by
  constructor
  · intro hi
    rcases Relation.ReflTransGen.cases_head hi with rfl | ⟨b, hb, hi⟩
    · exact .inl rfl
    · exact .inr ⟨b, hb, hi⟩
  · rintro (rfl | ⟨b, hb, hi⟩)
    · exact .refl a
    · exact .of_base hb hi

theorem below_iff {h a : Handle} : c.Below h a ↔ ∃ b, c.base? h = some b ∧ c.Inherits b a :=
  Relation.TransGen.head'_iff

theorem inherits_iff_below {h a : Handle} : c.Inherits h a ↔ a = h ∨ c.Below h a := by
  rw [inherits_iff, below_iff]

theorem rightUnique_extends (c : Catalogue) : Relator.RightUnique c.Extends :=
  fun _ _ _ hb hb' => Option.some.inj (hb.symm.trans hb')

/-- Of two ancestors of a type one is above the other. -/
theorem Inherits.total {h a b : Handle} (ha : c.Inherits h a) (hb : c.Inherits h b) :
    c.Inherits a b ∨ c.Inherits b a :=
  Relation.ReflTransGen.total_of_right_unique (rightUnique_extends c) ha hb

theorem eq_of_inherits_of_base?_eq_none {h a : Handle} (hh : c.base? h = none)
    (ha : c.Inherits h a) : a = h := by
  rcases inherits_iff.1 ha with rfl | ⟨b, hb, -⟩
  · rfl
  · simp [hh] at hb

theorem Acyclic.grounded (hc : c.Acyclic) (h : Handle) : c.Grounded h := fun a _ => hc a

theorem Grounded.of_inherits {h a : Handle} (hh : c.Grounded h) (ha : c.Inherits h a) :
    c.Grounded a :=
  fun x hx => hh x (ha.trans hx)

theorem Grounded.of_base {h b : Handle} (hh : c.Grounded h) (hb : c.base? h = some b) :
    c.Grounded b :=
  hh.of_inherits (.of_base hb (.refl b))

/-- A type on a cycle reaches only types on the cycle. -/
theorem below_self_of_inherits {h a : Handle} (hh : c.Below h h) (ha : c.Inherits h a) :
    c.Below a a := by
  induction ha with
  | refl => exact hh
  | @tail a b _ hab ih =>
    obtain ⟨x, hx, hxa⟩ := below_iff.1 ih
    obtain rfl : x = b := Option.some.inj (hx.symm.trans hab)
    exact Relation.TransGen.tail' hxa hab

theorem Grounded.of_extension {h b : Handle} (hh : c.Grounded b) (hb : c.base? h = some b) :
    c.Grounded h := by
  intro a ha hcycle
  rcases inherits_iff.1 ha with rfl | ⟨b', hb', hi⟩
  · exact hh b (.refl b) (below_self_of_inherits hcycle (.of_base hb (.refl b)))
  · obtain rfl := Option.some.inj (hb.symm.trans hb')
    exact hh a hi hcycle

/-! ## The walk up a chain of bases -/

/-- The state of a walk up the bases: the types passed are distinct and declared, and with the fuel
that is left they make up the whole catalogue. -/
structure Climb (c : Catalogue) (fuel : Nat) (seen : List Handle) (h : Handle) : Prop where
  nodup : (h :: seen).Nodup
  declared : ∀ s ∈ seen, s.index < c.size
  fuel : c.size ≤ fuel + seen.length

namespace Climb

variable {fuel : Nat} {seen : List Handle} {h b : Handle}

theorem start (c : Catalogue) (h : Handle) : Climb c c.size [] h :=
  ⟨List.nodup_singleton h, by simp, by simp⟩

/-- Fuel only runs out where the walk ends anyway. -/
theorem base?_eq_none (w : Climb c 0 seen h) : c.base? h = none := by
  by_contra hb
  obtain ⟨b, hb⟩ := Option.ne_none_iff_exists'.1 hb
  have hlen := length_le_size (c := c) w.nodup fun s hs => by
    rcases List.mem_cons.1 hs with rfl | hs
    · exact lt_size_of_base? hb
    · exact w.declared s hs
  have := w.fuel
  simp only [List.length_cons] at hlen
  omega

theorem step (w : Climb c (fuel + 1) seen h) (hb : c.base? h = some b) (hn : b ∉ h :: seen) :
    Climb c fuel (h :: seen) b where
  nodup := List.nodup_cons.2 ⟨hn, w.nodup⟩
  declared s hs := by
    rcases List.mem_cons.1 hs with rfl | hs
    · exact lt_size_of_base? hb
    · exact w.declared s hs
  fuel := by
    have := w.fuel
    simp only [List.length_cons]
    omega

end Climb

theorem ascend_of_base?_eq_none {h : Handle} (hb : c.base? h = none) (fuel : Nat)
    (seen : List Handle) : c.ascend fuel seen h = [h] := by
  cases fuel <;> simp [ascend, hb]

/-! ## The way up from a type -/

section Ascent

variable {seen chain chain' rest : List Handle} {h b : Handle} {fuel : Nat}

/-- **The whole way up from a type**, when the types in `seen` have been passed already. No type comes
twice, and each is followed by its base. The way only ends at what is no object type, at a type without
a base, or where the base has been passed. -/
structure Ascent (c : Catalogue) (seen : List Handle) (h : Handle) (chain : List Handle) : Prop where
  start : chain.head? = some h
  nodup : chain.Nodup
  fresh : ∀ a ∈ chain, a ∉ seen
  climbs : chain.IsChain c.Extends
  ends : ∀ top, chain.getLast? = some top →
    c.object? top = none ∨ (∃ o, c.object? top = some o ∧ o.base = none) ∨
      ∃ b ∈ seen ++ chain, c.base? top = some b

theorem base?_eq_none_iff :
    c.base? h = none ↔ c.object? h = none ∨ ∃ o, c.object? h = some o ∧ o.base = none := by
  unfold base?
  rcases c.object? h with _ | o <;> simp

theorem ascent_singleton_iff :
    c.Ascent seen h [h] ↔ h ∉ seen ∧ ∀ b, c.base? h = some b → b ∈ h :: seen := by
  have hends : (∀ b, c.base? h = some b → b ∈ h :: seen) ↔
      c.base? h = none ∨ ∃ b ∈ seen ++ [h], c.base? h = some b := by
    rcases c.base? h with _ | b <;> simp [or_comm]
  rw [hends, base?_eq_none_iff, or_assoc]
  constructor
  · intro ha
    exact ⟨ha.fresh h (by simp), ha.ends h rfl⟩
  · rintro ⟨hfresh, hend⟩
    refine ⟨rfl, List.nodup_singleton h, by simpa using hfresh, by simp, fun top htop => ?_⟩
    obtain rfl : h = top := by simpa using htop
    exact hend

theorem ascent_cons_iff : c.Ascent seen h (h :: b :: rest) ↔
    c.base? h = some b ∧ h ∉ seen ∧ c.Ascent (h :: seen) b (b :: rest) := by
  have hpassed : ∀ top, (∃ x ∈ seen ++ h :: b :: rest, c.base? top = some x) ↔
      ∃ x ∈ h :: seen ++ b :: rest, c.base? top = some x := by
    simp [or_left_comm]
  constructor
  · rintro ⟨-, hnodup, hfresh, hclimbs, hends⟩
    obtain ⟨hb, hclimbs⟩ := List.isChain_cons_cons.1 hclimbs
    obtain ⟨hnot, hnodup⟩ := List.nodup_cons.1 hnodup
    obtain ⟨hh, hfresh⟩ := List.forall_mem_cons.1 hfresh
    refine ⟨hb, hh, rfl, hnodup, fun a ha => ?_, hclimbs, fun top htop => ?_⟩
    · rw [List.mem_cons, not_or]
      exact ⟨fun e => hnot (e ▸ ha), hfresh a ha⟩
    · rw [← hpassed]
      exact hends top (by simpa [List.getLast?_cons_cons] using htop)
  · rintro ⟨hb, hh, -, hnodup, hfresh, hclimbs, hends⟩
    have hnot : h ∉ b :: rest := fun hm => hfresh h hm List.mem_cons_self
    refine ⟨rfl, List.nodup_cons.2 ⟨hnot, hnodup⟩, List.forall_mem_cons.2 ⟨hh, fun a ha hm => ?_⟩,
      List.isChain_cons_cons.2 ⟨hb, hclimbs⟩, fun top htop => ?_⟩
    · exact hfresh a ha (List.mem_cons_of_mem _ hm)
    · rw [hpassed]
      exact hends top (by simpa [List.getLast?_cons_cons] using htop)

theorem Ascent.exists_cons (ha : c.Ascent seen h chain) : ∃ rest, chain = h :: rest := by
  have hstart := ha.start
  rcases chain with _ | ⟨x, rest⟩
  · cases hstart
  · obtain rfl := Option.some.inj hstart
    exact ⟨rest, rfl⟩

theorem Ascent.cons (hb : c.base? h = some b) (hh : h ∉ seen) (hrest : c.Ascent (h :: seen) b rest) :
    c.Ascent seen h (h :: rest) := by
  obtain ⟨tail, rfl⟩ := hrest.exists_cons
  exact ascent_cons_iff.2 ⟨hb, hh, hrest⟩

/-- **There is one way up**: a step is to the base, and the way cannot stop before it has to. -/
theorem Ascent.unique (ha : c.Ascent seen h chain) (ha' : c.Ascent seen h chain') :
    chain = chain' := by
  induction chain generalizing seen h chain' with
  | nil => cases ha.start
  | cons x rest ih =>
    obtain rfl := Option.some.inj ha.start
    obtain ⟨rest', rfl⟩ := ha'.exists_cons
    -- a way that stops where the other goes on would pass the base a second time
    have stops : ∀ {b tail}, c.Ascent seen x [x] → ¬ c.Ascent seen x (x :: b :: tail) := by
      intro b tail hstop hgo
      obtain ⟨hb, -, hgo⟩ := ascent_cons_iff.1 hgo
      exact hgo.fresh b List.mem_cons_self ((ascent_singleton_iff.1 hstop).2 b hb)
    rcases rest with _ | ⟨b, rest⟩
    · rcases rest' with _ | ⟨b', rest'⟩
      · rfl
      · exact absurd ha' (stops ha)
    · rcases rest' with _ | ⟨b', rest'⟩
      · exact absurd ha (stops ha')
      · obtain ⟨hb, -, hgo⟩ := ascent_cons_iff.1 ha
        obtain ⟨hb', -, hgo'⟩ := ascent_cons_iff.1 ha'
        obtain rfl := Option.some.inj (hb.symm.trans hb')
        rw [ih hgo hgo']

/-- **A walk goes the whole way up**: what it is allowed is never what ends it. -/
theorem ascent_ascend (w : Climb c fuel seen h) : c.Ascent seen h (c.ascend fuel seen h) := by
  induction fuel generalizing seen h with
  | zero =>
    rw [ascend, ascent_singleton_iff, w.base?_eq_none]
    exact ⟨(List.nodup_cons.1 w.nodup).1, by simp⟩
  | succ fuel ih =>
    have hh := (List.nodup_cons.1 w.nodup).1
    rcases hb : c.base? h with _ | b
    · rw [ascend_of_base?_eq_none hb, ascent_singleton_iff, hb]
      exact ⟨hh, by simp⟩
    · simp only [ascend, hb]
      split
      · rename_i hm
        rw [ascent_singleton_iff, hb]
        exact ⟨hh, fun x hx => Option.some.inj hx ▸ hm⟩
      · rename_i hm
        exact .cons hb hh (ih (w.step hb hm))

theorem ascent_lineage (c : Catalogue) (h : Handle) : c.Ascent [] h (c.lineage h) :=
  ascent_ascend (.start c h)

/-- A walk that is allowed to go further does not. -/
theorem ascend_eq_lineage (hf : c.size ≤ fuel) : c.ascend fuel [] h = c.lineage h := by
  have w : Climb c fuel [] h := ⟨List.nodup_singleton h, by simp, by simpa using hf⟩
  exact (ascent_ascend w).unique (ascent_lineage c h)

theorem Ascent.inherits {a : Handle} (ha : c.Ascent seen h chain) (hm : a ∈ chain) :
    c.Inherits h a := by
  induction chain generalizing seen h with
  | nil => cases hm
  | cons x rest ih =>
    obtain rfl := Option.some.inj ha.start
    rcases List.mem_cons.1 hm with rfl | hm
    · exact .refl a
    · obtain ⟨b, rest, rfl⟩ := List.exists_cons_of_ne_nil (List.ne_nil_of_mem hm)
      obtain ⟨hb, -, hrest⟩ := ascent_cons_iff.1 ha
      exact .of_base hb (ih hrest hm)

/-- More types may have been passed, as long as none of them is on the way. -/
theorem Ascent.widen {seen' : List Handle} (ha : c.Ascent seen h chain) (hs : seen ⊆ seen')
    (hfresh : ∀ a ∈ chain, a ∉ seen') : c.Ascent seen' h chain where
  start := ha.start
  nodup := ha.nodup
  fresh := hfresh
  climbs := ha.climbs
  ends top htop := (ha.ends top htop).imp_right <| Or.imp_right <| by
    rintro ⟨b, hb, hbase⟩
    exact ⟨b, List.mem_append.2 ((List.mem_append.1 hb).imp_left (@hs b)), hbase⟩

theorem nodup_lineage (c : Catalogue) (h : Handle) : (c.lineage h).Nodup := (ascent_lineage c h).nodup

theorem lineage_ne_nil (c : Catalogue) (h : Handle) : c.lineage h ≠ [] := by
  obtain ⟨rest, he⟩ := (ascent_lineage c h).exists_cons
  exact he ▸ List.cons_ne_nil h rest

/-- Everything in a lineage is inherited from. -/
theorem inherits_of_mem_lineage {h a : Handle} (ha : a ∈ c.lineage h) : c.Inherits h a :=
  (ascent_lineage c h).inherits ha

end Ascent

/-! ## Lineages that lead into no cycle -/

theorem lineage_of_base?_eq_none {h : Handle} (hb : c.base? h = none) : c.lineage h = [h] :=
  ascend_of_base?_eq_none hb _ _

/-- **A lineage is the type followed by the lineage of its base.** -/
theorem Grounded.lineage_of_base {h b : Handle} (hh : c.Grounded h) (hb : c.base? h = some b) :
    c.lineage h = h :: c.lineage b := by
  have hnot : h ∉ c.lineage b := fun hm =>
    hh h (.refl h) (below_iff.2 ⟨b, hb, inherits_of_mem_lineage hm⟩)
  have hrest : c.Ascent [h] b (c.lineage b) :=
    (ascent_lineage c b).widen (List.nil_subset _) fun a ha => by
      rw [List.mem_singleton]
      exact fun e => hnot (e ▸ ha)
  exact (ascent_lineage c h).unique (.cons hb List.not_mem_nil hrest)

theorem lineage_of_base (hc : c.Acyclic) {h b : Handle} (hb : c.base? h = some b) :
    c.lineage h = h :: c.lineage b :=
  (hc.grounded h).lineage_of_base hb

/-- What holds of a type when it holds of its base holds of every type whose bases lead into no
cycle. -/
theorem Grounded.induction {P : Handle → Prop}
    (step : ∀ h, c.Grounded h → (∀ b, c.base? h = some b → P b) → P h) {h : Handle}
    (hh : c.Grounded h) : P h := by
  induction hn : (c.lineage h).length using Nat.strongRecOn generalizing h with
  | ind n ih =>
    refine step h hh fun b hb => ih (c.lineage b).length ?_ (hh.of_base hb) rfl
    rw [← hn, hh.lineage_of_base hb, List.length_cons]
    omega

/-- Without cycles what holds of a type when it holds of its base holds of every type. -/
theorem Acyclic.induction (hc : c.Acyclic) {P : Handle → Prop}
    (step : ∀ h, (∀ b, c.base? h = some b → P b) → P h) (h : Handle) : P h :=
  (hc.grounded h).induction fun h _ => step h

/-- **The lineage of a type holds what the type inherits from.** -/
theorem Grounded.mem_lineage_iff {h a : Handle} (hh : c.Grounded h) :
    a ∈ c.lineage h ↔ c.Inherits h a := by
  refine ⟨inherits_of_mem_lineage, fun ha => ?_⟩
  induction ha using Relation.ReflTransGen.head_induction_on with
  | refl =>
    rcases hb : c.base? a with _ | b
    · rw [lineage_of_base?_eq_none hb]
      exact List.mem_singleton_self a
    · rw [hh.lineage_of_base hb]
      exact List.mem_cons_self
  | head hb _ ih =>
    rw [hh.lineage_of_base hb]
    exact List.mem_cons_of_mem _ (ih (hh.of_base hb))

theorem mem_lineage_iff (hc : c.Acyclic) {h a : Handle} : a ∈ c.lineage h ↔ c.Inherits h a :=
  (hc.grounded h).mem_lineage_iff

theorem Grounded.isSubtype_iff {h a : Handle} (hh : c.Grounded h) :
    c.isSubtype h a = true ↔ c.Inherits h a := by
  rw [isSubtype, decide_eq_true_iff, hh.mem_lineage_iff]

theorem isSubtype_iff (hc : c.Acyclic) {h a : Handle} :
    c.isSubtype h a = true ↔ c.Inherits h a :=
  (hc.grounded h).isSubtype_iff

/-- The last type of a lineage has no base. -/
theorem Grounded.base?_getLast_lineage {h : Handle} (hh : c.Grounded h) :
    c.base? ((c.lineage h).getLast (lineage_ne_nil c h)) = none := by
  refine Grounded.induction (P := fun h =>
    c.base? ((c.lineage h).getLast (lineage_ne_nil c h)) = none) (fun h hh ih => ?_) hh
  rcases hb : c.base? h with _ | b
  · simpa only [lineage_of_base?_eq_none hb, List.getLast_singleton] using hb
  · simpa only [hh.lineage_of_base hb, List.getLast_cons (lineage_ne_nil c b)] using ih b hb

/-- **The bases of a type lead into no cycle exactly when they come to an end.** -/
theorem grounded_iff {h : Handle} : c.Grounded h ↔ ∃ r, c.Inherits h r ∧ c.base? r = none := by
  constructor
  · exact fun hh => ⟨_, inherits_of_mem_lineage (List.getLast_mem (lineage_ne_nil c h)),
      hh.base?_getLast_lineage⟩
  · rintro ⟨r, hr, hbr⟩ a ha hcycle
    -- What a type on a cycle reaches is on the cycle too, and has a base.
    have hbelow : ∀ {x}, c.Below x x → c.base? x ≠ none := fun hx hn => by
      obtain ⟨b, hb, -⟩ := below_iff.1 hx
      simp [hn] at hb
    rcases ha.total hr with hi | hi
    · exact hbelow (below_self_of_inherits hcycle hi) hbr
    · obtain rfl := eq_of_inherits_of_base?_eq_none hbr hi
      exact hbelow hcycle hbr

theorem hasCycle_eq (c : Catalogue) (h : Handle) :
    c.hasCycle h = (c.base? ((c.lineage h).getLast (lineage_ne_nil c h))).isSome := by
  rw [hasCycle, List.getLast?_eq_some_getLast (lineage_ne_nil c h)]

/-- **The test for cycles finds exactly the cycles.** -/
theorem acyclic_iff : (∀ h ∈ c.objects, c.hasCycle h = false) ↔ c.Acyclic := by
  constructor
  · intro hall h hh
    obtain ⟨b, hb, -⟩ := below_iff.1 hh
    obtain ⟨o, ho, -⟩ := base?_eq_some_iff.1 hb
    have htop := hall h (mem_objects.2 ⟨o, ho⟩)
    rw [hasCycle_eq] at htop
    obtain ⟨b', hb', -⟩ := below_iff.1 (below_self_of_inherits hh
      (inherits_of_mem_lineage (List.getLast_mem (lineage_ne_nil c h))))
    simp [hb'] at htop
  · intro hc h _
    rw [hasCycle_eq, (hc.grounded _).base?_getLast_lineage, Option.isSome_none]

end Marshal.Catalogue
