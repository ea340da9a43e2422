import Marshal.Proofs.Outcome
import Marshal.Proofs.Wire.Tree

/-!
# Trees that look alike

Decoding sees of a tree only what `Tree` offers. So trees of two kinds that offer the same, and whose
parts, items and entries do so again, are decoded to the same value or with the same error
(`Tree.Likeness.value_eq`).
-/

namespace Marshal

open Decode Outcome

namespace Tree

variable {τ υ : Type} [Tree τ] [Tree υ]

/-- Parts of objects are alike: they have one name, and stand in one place. -/
def PartsAlike (R : τ → υ → Prop) (p : String × Placement × τ) (q : String × Placement × υ) : Prop :=
  p.1 = q.1 ∧ p.2.1 = q.2.1 ∧ R p.2.2 q.2.2

/-- Entries of mappings are alike: they have one key. -/
def EntriesAlike (R : τ → υ → Prop) (p : String × τ) (q : String × υ) : Prop :=
  p.1 = q.1 ∧ R p.2 q.2

/-- **Related trees look alike.** -/
structure Likeness (R : τ → υ → Prop) : Prop where
  isNull : ∀ {t u}, R t u → Tree.isNull t = Tree.isNull u
  scalar : ∀ {t u}, R t u → Tree.scalar t = Tree.scalar u
  parts : ∀ {t u}, R t u → Alike (List.Forall₂ (PartsAlike R)) (Tree.parts t) (Tree.parts u)
  partsEnd : ∀ {t u}, R t u → Tree.partsEnd t = Tree.partsEnd u
  text? : ∀ {t u}, R t u → ∀ name placement,
    Tree.text? t name placement = Tree.text? u name placement
  items : ∀ {t u}, R t u → ∀ layout,
    Alike (List.Forall₂ R) (Tree.items layout t) (Tree.items layout u)
  itemsEnd : ∀ {t u}, R t u → ∀ layout, Tree.itemsEnd layout t = Tree.itemsEnd layout u
  entries : ∀ {t u}, R t u →
    Alike (List.Forall₂ (Alike (EntriesAlike R))) (Tree.entries t) (Tree.entries u)

namespace Likeness

variable {R : τ → υ → Prop} {s : PlanSet} {t : τ} {u : υ} {f : Inner τ} {g : Inner υ}

omit [Tree τ] [Tree υ] in
theorem field_eq
    (hfg : ∀ shape allowed name t u, R t u → f shape allowed name t = g shape allowed name u)
    (plan : TypePlan) (scan : Scan) {p : String × Placement × τ} {q : String × Placement × υ}
    (h : PartsAlike R p q) : field f plan scan p = field g plan scan q := by
  obtain ⟨name, placement, t⟩ := p
  obtain ⟨name', placement', u⟩ := q
  obtain ⟨rfl, rfl, h⟩ : name = name' ∧ placement = placement' ∧ R t u := h
  simp only [field, fun shape allowed name => hfg shape allowed name t u h]

omit [Tree τ] [Tree υ] in
theorem entry_eq {f : String → τ → Except DecodeError Value} {g : String → υ → Except DecodeError Value}
    (hfg : ∀ key t u, R t u → f key t = g key u) (table : List (String × Value))
    {x : Except DecodeError (String × τ)} {y : Except DecodeError (String × υ)}
    (h : Alike (EntriesAlike R) x y) : entry f table x = entry g table y := by
  rw [entry, entry]
  refine h.bind_eq fun (key, t) (key', u) ⟨hkey, htu⟩ => ?_
  obtain rfl : key = key' := hkey
  simp only [hfg key t u htu]

theorem concretePlan_eq (L : Likeness R) (h : R t u) (declared : TypePlan) :
    concretePlan s declared t = concretePlan s declared u := by
  simp only [concretePlan, L.text? h]

theorem object_eq (L : Likeness R)
    (hfg : ∀ shape allowed name t u, R t u → f shape allowed name t = g shape allowed name u)
    (h : R t u) (declared : Handle) : object s f declared t = object s g declared u := by
  rw [object, object]
  refine bind_congr fun declaredPlan => (L.parts h).bind_eq fun ps qs hpq => ?_
  rw [L.concretePlan_eq h]
  refine bind_congr fun plan => ?_
  rw [L.partsEnd h, foldlM_eq_of_forall₂ hpq fun scan p q => field_eq hfg plan scan]

theorem shaped_eq (L : Likeness R) {f : Option (Inner τ)} {g : Option (Inner υ)}
    (hfg : Option.Rel (fun f g => ∀ shape allowed name t u, R t u →
      f shape allowed name t = g shape allowed name u) f g) (h : R t u) (shape : Shape) (name : String) :
    shaped s f shape name t = shaped s g shape name u := by
  rw [shaped.eq_def, shaped.eq_def]
  cases shape with
  | primitive kind => simp only [L.scalar h]
  | enumeration k => simp only [enumeration, L.scalar h]
  | object k =>
    rcases hfg with hfg | _
    · simp only [L.object_eq hfg h]
    · rfl
  | sequence element n layout =>
    rcases hfg with hfg | _
    · refine (L.items h layout).bind_eq fun ts us htu => ?_
      rw [L.itemsEnd h, mapM_eq_of_forall₂ htu (hfg element n name)]
    · rfl
  | mapping element n =>
    rcases hfg with hfg | _
    · refine (L.entries h).bind_eq fun xs ys hxy => ?_
      rw [foldlM_eq_of_forall₂ hxy fun table x y => entry_eq (hfg element n) table]
    · rfl

/-- **Trees that look alike are decoded alike.** -/
theorem value_eq (L : Likeness R) (room : Nat) :
    ∀ shape allowed name t u, R t u →
      value s room shape allowed name t = value s room shape allowed name u := by
  have hnullable : ∀ {f : Option (Inner τ)} {g : Option (Inner υ)},
      Option.Rel (fun f g => ∀ shape allowed name t u, R t u →
        f shape allowed name t = g shape allowed name u) f g →
      ∀ shape allowed name t u, R t u →
        nullable s f shape allowed name t = nullable s g shape allowed name u := by
    intro f g hfg shape allowed name t u h
    rw [nullable, nullable, L.isNull h, L.shaped_eq hfg h]
  induction room with
  | zero => exact hnullable .none
  | succ room ih => exact hnullable (.some ih)

/-- **Documents that look alike are decoded alike.** -/
theorem root_eq (L : Likeness R) (h : R t u) (declared : Handle) :
    root s declared t = root s declared u :=
  L.object_eq (L.value_eq (depthLimit - 1)) h declared

end Likeness

end Tree

end Marshal
