import Marshal.Proofs.Markup.Balance
import Marshal.Proofs.Markup.Fronts

/-!
# Documents with a root

What is skipped is made of elements, each closed in the one around it (`Lexer.closes_of_skip`). In front
of the root no element is open, so nothing there closes one, and a document whose root can be passed is
the tree of that root (`Lexer.exists_opens`).
-/

namespace Marshal.Markup.Lexer

open Text

variable {lx lx₁ lx' : Lexer} {e : Event} {head : Head}

/-! ## Elements that are passed -/

/-- The end tags of the current element and of `depth` elements around it are in front of the lexer,
with what stands in each of them. -/
def Closes : Nat → Lexer → Lexer → Prop
  | 0, lx, lx' => ∃ items, Holds items lx lx'
  | depth + 1, lx, lx' => ∃ items lx₁, Holds items lx lx₁ ∧ Closes depth lx₁ lx'

/-- What stands in front of the rest of an element belongs to it. -/
theorem Closes.of_holds {depth : Nat} (h : Closes depth lx₁ lx')
    (hcons : ∀ {items lx'}, Holds items lx₁ lx' → ∃ items', Holds items' lx lx') :
    Closes depth lx lx' := by
  cases depth with
  | zero =>
    obtain ⟨items, h⟩ := h
    exact hcons h
  | succ depth =>
    obtain ⟨items, lx₂, h, hrest⟩ := h
    obtain ⟨items', h⟩ := hcons h
    exact ⟨items', lx₂, h, hrest⟩

/-- **What is skipped is made of elements**, each closed in the one around it. -/
theorem closes_of_skip {depth : Nat} (h : skip depth lx = .ok () lx') : Closes depth lx lx' := by
  fun_induction skip depth lx
  case case1 => cases h
  case case2 hnext _ _ ih =>
    obtain ⟨inner, lx₂, hinner, hrest⟩ := ih h
    exact hrest.of_holds fun hitems => ⟨_, .start hnext hinner hitems⟩
  case case3 hnext _ =>
    cases h
    exact ⟨[], .close hnext⟩
  case case4 hnext _ _ _ ih => exact ⟨[], _, .close hnext, ih h⟩
  case case5 => cases h
  case case6 hnext _ _ ih => exact (ih h).of_holds fun hitems => ⟨_, .empty hnext hitems⟩
  case case7 hnext _ _ ih | case8 hnext _ _ ih | case9 hnext _ _ ih | case10 hnext _ _ ih =>
    exact (ih h).of_holds fun hitems => ⟨_, .event hnext trivial hitems⟩

/-- **An element that is passed** is one whole element. -/
theorem exists_inside (h : skipHead head lx = .ok () lx') : ∃ c, c.head = head ∧ Inside c lx lx' := by
  rw [skipHead] at h
  by_cases he : head.isEmpty = true
  · rw [if_pos he] at h
    cases h
    refine ⟨⟨head, []⟩, rfl, ?_⟩
    rw [Inside, if_pos he]
    exact ⟨rfl, rfl⟩
  · rw [if_neg he] at h
    obtain ⟨items, hitems⟩ := closes_of_skip h
    refine ⟨⟨head, items⟩, rfl, ?_⟩
    rwa [Inside, if_neg he]

/-! ## In front of the root -/

/-- No element is open at the beginning of a document. -/
theorem opened_ofSymbols (symbols : Piece) : (ofSymbols symbols).opened = [] := by
  unfold ofSymbols
  split
  · split <;> rfl
  · rfl

/-- **A root that is passed is an element**, and the first one in front of the lexer. -/
theorem exists_opens (ho : lx.opened = []) (h : root lx = .ok head lx₁)
    (hskip : skipHead head lx₁ = .ok () lx') : ∃ el, Opens el lx := by
  fun_induction root lx
  case case1 => cases h
  case case2 hnext _ =>
    obtain ⟨hhead, rfl⟩ := headAt_eq_ok_iff.1 h
    rw [skipHead, Head.isEmpty_ofTag hhead, if_neg Bool.false_ne_true] at hskip
    obtain ⟨items, hitems⟩ := closes_of_skip hskip
    exact ⟨_, .start hnext hitems⟩
  case case3 hnext _ => exact ⟨_, .empty hnext⟩
  case case4 => cases h
  case case9 hnext _ _ _ =>
    obtain ⟨⟨name, hname⟩, -⟩ := exists_front_of_next hnext (by simp)
    rw [ho] at hname
    cases hname
  case case5 hnext _ _ ih | case6 hnext _ _ ih | case7 hnext _ _ ih | case8 hnext _ _ ih =>
    obtain ⟨hmoves, -⟩ := exists_front_of_next hnext (by simp)
    obtain ⟨el, hel⟩ := ih (Eq.trans hmoves ho) h
    exact ⟨el, .event hnext trivial hel⟩

end Marshal.Markup.Lexer
