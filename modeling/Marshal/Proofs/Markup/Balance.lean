import Marshal.Proofs.Markup.Walk

/-!
# Reading takes what dropping takes

However an element is read, the lexer stands behind its end tag afterwards, where it would stand had
the element been dropped. For the lexer this is what passing a child, a text or an entry leaves of the
element (`Lexer.skip_of_child_some`, `Lexer.skip_of_text_eq_ok`, `Lexer.skipChildren_of_entry_some`).
A reading that `Consumes` does so for what stands at the cursor of a reader, and moving inside of
objects, sequences and mappings is inverted for the loops over them. Nothing has to be known of how the
document was written.
-/

namespace Marshal

namespace Markup

namespace Lexer

variable {lx lx₁ lx₂ lx' : Lexer} {e : Event} {head : Head}

/-! ## Elements inside of elements -/

theorem headAt_eq_ok_iff {tag : Piece} {isEmpty : Bool} :
    headAt lx tag isEmpty = .ok head lx' ↔ Head.ofTag tag isEmpty = .ok head ∧ lx = lx' := by
  rw [headAt]
  rcases Head.ofTag tag isEmpty with f | head'
  · simp
  · simp

/-- **A child that is passed** leaves the rest of the element to skip. -/
theorem skip_of_child_some (h : child lx = .ok (some head) lx₁)
    (hs : skipHead head lx₁ = .ok () lx₂) : skip 0 lx = skip 0 lx₂ := by
  fun_induction child lx
  case case2 hnext _ _ hhead _ =>
    cases h
    obtain ⟨hof, rfl⟩ := headAt_eq_ok_iff.1 hhead
    rw [skipHead, Head.isEmpty_ofTag hof, if_neg Bool.false_ne_true] at hs
    rw [skip_of_start hnext, ← skip_add hs]
  case case4 hnext _ _ hhead _ =>
    cases h
    obtain ⟨hof, rfl⟩ := headAt_eq_ok_iff.1 hhead
    rw [skipHead, Head.isEmpty_ofTag hof, if_pos rfl] at hs
    cases hs
    rw [skip_of_empty hnext]
  case case8 hnext _ _ ih | case9 hnext _ _ ih | case10 hnext _ _ ih | case11 hnext _ _ ih =>
    rw [skip_of_inert hnext trivial, ih h]
  all_goals cases h

/-- Without another child the element ends. -/
theorem skip_of_child_none (h : child lx = .ok none lx') : skip 0 lx = .ok () lx' := by
  fun_induction child lx
  case case6 hnext _ =>
    cases h
    exact skip_zero_of_close hnext
  case case8 hnext _ _ ih | case9 hnext _ _ ih | case10 hnext _ _ ih | case11 hnext _ _ ih =>
    rw [skip_of_inert hnext trivial, ih h]
  all_goals cases h

/-- **Passing the children** is skipping the rest of the element. -/
theorem skip_of_skipChildren (h : skipChildren lx = .ok () lx') : skip 0 lx = .ok () lx' := by
  fun_induction skipChildren lx
  case case2 hchild =>
    cases h
    exact skip_of_child_none hchild
  case case3 hchild _ hskip _ ih => rw [skip_of_child_some hchild hskip, ih h]
  all_goals cases h

/-- **Reading a text** is skipping the rest of the element. -/
theorem skip_of_text_eq_ok {before s : String} (h : text before lx = .ok s lx') :
    skip 0 lx = .ok () lx' := by
  fun_induction text before lx
  case case3 hnext hclose =>
    cases h
    obtain rfl := eq_close_of_textOfEvent hclose
    exact skip_zero_of_close hnext
  case case4 hnext _ htext _ ih => rw [skip_of_inert hnext (inert_of_textOfEvent htext), ih h]
  all_goals cases h

theorem skipHead_of_headText {s : String} (h : headText head lx = .ok s lx') :
    skipHead head lx = .ok () lx' := by
  rw [headText] at h
  rw [skipHead]
  split at h
  · rename_i he
    cases h
    rw [if_pos he]
  · rename_i he
    rw [if_neg he]
    exact skip_of_text_eq_ok h

/-! ## Entries -/

/-- **An entry without a value** has been passed when it has been entered. -/
theorem skipChildren_of_entry_none {key : Option String} {k : String}
    (h : entry key lx = .ok (k, none) lx') : skipChildren lx = .ok () lx' := by
  fun_induction entry key lx
  case case2 hchild _ =>
    cases h
    exact skipChildren_of_none hchild
  case case4 hchild _ _ _ htext _ ih =>
    rw [skipChildren_of_some hchild (skipHead_of_headText htext), ih h]
  case case8 hchild _ _ _ hskip _ ih => rw [skipChildren_of_some hchild hskip, ih h]
  all_goals cases h

/-- **An entry that is entered at its value** has the rest left to pass once the value was. -/
theorem skipChildren_of_entry_some {key : Option String} {k : String}
    (h : entry key lx = .ok (k, some head) lx₁) (hs : skipHead head lx₁ = .ok () lx₂) :
    skipChildren lx = skipChildren lx₂ := by
  fun_induction entry key lx
  case case4 hchild _ _ _ htext _ ih =>
    rw [skipChildren_of_some hchild (skipHead_of_headText htext), ih h]
  case case6 hchild _ _ _ =>
    cases h
    exact skipChildren_of_some hchild hs
  case case8 hchild _ _ _ hskip _ ih => rw [skipChildren_of_some hchild hskip, ih h]
  all_goals cases h

/-- The lexer passes what is left of an element, of which nothing is if it was one tag. -/
def Passes (isEmpty : Bool) (lx lx' : Lexer) : Prop :=
  if isEmpty then lx' = lx else skip 0 lx = .ok () lx'

theorem skipHead_eq_ok_iff : skipHead head lx = .ok () lx' ↔ Passes head.isEmpty lx lx' := by
  rw [skipHead, Passes]
  split
  · simp [eq_comm]
  · rfl

theorem passes_of_child_none (h : child lx = .ok none lx') : Passes false lx lx' :=
  skip_of_child_none h

theorem Passes.of_child_some (h : child lx = .ok (some head) lx₁)
    (hs : skipHead head lx₁ = .ok () lx₂) (hp : Passes false lx₂ lx') : Passes false lx lx' :=
  (skip_of_child_some h hs).trans hp

end Lexer

/-! ## What stands at the cursor -/

namespace Reader

open Lexer Outcome

variable {α β : Type} {m : Reading Reader α} {r r' : Reader} {lx lx' : Lexer}
  {cursor : Cursor} {stack : List OpenPart} {head : Head} {a : α}

/-- **Reading takes what dropping takes**: it leaves the reader where it is left when what stands at
the cursor is dropped. -/
def Consumes (m : Reading Reader α) : Prop := ∀ r a r', m r = .ok a r' → discard r = .ok () r'

theorem pull_eq_ok {f : Lexer → Lexed α}
    (h : pull f ⟨lx, cursor, stack⟩ = .ok a r') :
    ∃ lx', f lx = .ok a lx' ∧ r' = ⟨lx', cursor, stack⟩ := by
  unfold pull at h
  split at h
  · rename_i hf
    cases h
    exact ⟨_, hf, rfl⟩
  · cases h

theorem discard_element (h : skipHead head lx = .ok () lx') :
    discard ⟨lx, .element head, stack⟩ = .ok () ⟨lx', .vacant, stack⟩ :=
  pull_run h .vacant stack

theorem discard_element_eq_ok {u : Unit} (h : discard ⟨lx, .element head, stack⟩ = .ok u r') :
    ∃ lx', skipHead head lx = .ok () lx' ∧ r' = ⟨lx', .vacant, stack⟩ := by
  have hpull : pull (skipHead head) ⟨lx, .vacant, stack⟩ = .ok u r' := h
  exact pull_eq_ok hpull

theorem Consumes.element (hm : Consumes m) (h : m ⟨lx, .element head, stack⟩ = .ok a r') :
    ∃ lx', skipHead head lx = .ok () lx' ∧ r' = ⟨lx', .vacant, stack⟩ :=
  discard_element_eq_ok (hm _ _ _ h)

theorem Consumes.attribute {v : String} (hm : Consumes m)
    (h : m ⟨lx, .attribute v, stack⟩ = .ok a r') : r' = ⟨lx, .vacant, stack⟩ := by
  have := hm _ _ _ h
  cases this
  rfl

theorem Consumes.null (hm : Consumes m) (h : m ⟨lx, .null, stack⟩ = .ok a r') :
    r' = ⟨lx, .vacant, stack⟩ := by
  have := hm _ _ _ h
  cases this
  rfl

theorem consumes_throw (e : DecodeError) : Consumes (throw e : Reading Reader α) :=
  fun _ _ _ h => by cases h

/-- What is made of a value does not touch the document. -/
theorem Consumes.lift (hm : Consumes m) (f : α → Except DecodeError β) :
    Consumes (do let a ← m; Reading.lift (f a)) := by
  intro r b r' h
  obtain ⟨a, r₁, ha, h⟩ := run_bind_eq_ok_iff.1 h
  rcases hf : f a with e | b' <;> rw [hf] at h <;> cases h
  exact hm r a _ ha

/-- A scalar is the value of an attribute or the text of an element. -/
theorem scalar_eq_ok {token : Token} (h : scalar r = .ok token r') :
    ∃ text, token = .text text ∧
      ((r.cursor = .attribute text ∧ r' = ⟨r.lexer, .vacant, r.stack⟩) ∨
        ∃ head lx', r.cursor = .element head ∧ headText head r.lexer = .ok text lx' ∧
          r' = ⟨lx', .vacant, r.stack⟩) := by
  obtain ⟨lx, cursor, stack⟩ := r
  rcases cursor with _ | _ | value | head
  · cases h
  · cases h
  · cases h
    exact ⟨value, rfl, .inl ⟨rfl, rfl⟩⟩
  · obtain ⟨_, _, htake, h⟩ := run_bind_eq_ok_iff.1 h
    cases htake
    obtain ⟨text, r₁, hpull, h⟩ := run_bind_eq_ok_iff.1 h
    cases h
    obtain ⟨lx', htext, rfl⟩ := pull_eq_ok hpull
    exact ⟨text, rfl, .inr ⟨head, lx', rfl, htext, rfl⟩⟩

theorem scalar_consumes : Consumes scalar := by
  rintro ⟨lx, cursor, stack⟩ token r' h
  obtain ⟨text, -, ⟨rfl, rfl⟩ | ⟨head, lx', rfl, htext, rfl⟩⟩ := scalar_eq_ok h
  · rfl
  · exact discard_element (skipHead_of_headText htext)

theorem peekField_eq_ok {name : String} {placement : Placement} {w : Option String}
    (h : peekField name placement r = .ok w r') : r' = r := by
  obtain ⟨lx, cursor, _ | ⟨part, rest⟩⟩ := r
  · cases h
    rfl
  rcases part with ⟨as, isEmpty⟩ | _ | _ | _ | _
  · obtain ⟨_, _, hget, h⟩ := run_bind_eq_ok_iff.1 h
    cases hget
    rcases placement with _ | _
    · cases isEmpty with
      | true =>
        cases h
        rfl
      | false =>
        rcases hfound : childText? name lx with ⟨found, lx₁⟩ | ⟨e, lx₁⟩ <;>
          simp only [hfound, Bool.false_eq_true, if_false] at h <;> cases h
        rfl
    · cases h
      rfl
  all_goals
    cases h
    rfl

/-- An element is taken to be entered. -/
theorem takeElement_eq_ok {what : String} (h : takeElement what r = .ok head r') :
    r.cursor = .element head ∧ r' = { r with cursor := .vacant } := by
  obtain ⟨lx, cursor, stack⟩ := r
  cases cursor <;> cases h
  exact ⟨rfl, rfl⟩

/-- Moving to the next child of an element that has been entered. -/
theorem advance_eq_ok {part : OpenPart} {next : Option Head}
    (h : advance ⟨lx, .vacant, part :: stack⟩ = .ok next r') :
    (∃ head lx₁, next = some head ∧ child lx = .ok (some head) lx₁ ∧
        r' = ⟨lx₁, .element head, part :: stack⟩) ∨
      ∃ lx₁, next = none ∧ child lx = .ok none lx₁ ∧ r' = ⟨lx₁, .vacant, stack⟩ := by
  rcases hchild : child lx with ⟨_ | head, lx₁⟩ | ⟨e, lx₁⟩
  · rw [advance_nil hchild] at h
    cases h
    exact .inr ⟨lx₁, rfl, rfl, rfl⟩
  · rw [advance_cons hchild] at h
    cases h
    exact .inl ⟨head, lx₁, rfl, rfl, rfl⟩
  · have herr : pull child ⟨lx, .vacant, part :: stack⟩ =
        .error e ⟨lx₁, .vacant, part :: stack⟩ := by rw [pull, hchild]
    rw [advance, run_bind_error herr] at h
    cases h

/-- Moving to the next field of an object. -/
theorem nextKey_object {as : List (String × String)} {isEmpty : Bool}
    {next : Option (String × Placement)}
    (h : nextKey ⟨lx, .vacant, .object as isEmpty :: stack⟩ = .ok next r') :
    (∃ a rest, as = a :: rest ∧ next = some (a.1, .attribute) ∧
        r' = ⟨lx, .attribute a.2, .object rest isEmpty :: stack⟩) ∨
      (∃ head lx₁, as = [] ∧ isEmpty = false ∧ child lx = .ok (some head) lx₁ ∧
        next = some (head.name, .element) ∧ r' = ⟨lx₁, .element head, .object [] false :: stack⟩) ∨
      ∃ lx₁, as = [] ∧ next = none ∧ r' = ⟨lx₁, .vacant, stack⟩ ∧
        (isEmpty = true ∧ lx₁ = lx ∨ isEmpty = false ∧ child lx = .ok none lx₁) := by
  obtain ⟨_, _, hdiscard, h⟩ := run_bind_eq_ok_iff.1 h
  cases hdiscard
  rcases as with _ | ⟨a, rest⟩
  · cases isEmpty with
    | true =>
      cases h
      exact .inr (.inr ⟨lx, rfl, rfl, rfl, .inl ⟨rfl, rfl⟩⟩)
    | false =>
      obtain ⟨_, _, hget, h⟩ := run_bind_eq_ok_iff.1 h
      cases hget
      obtain ⟨next, r₁, hadvance, h⟩ := run_bind_eq_ok_iff.1 h
      cases h
      rcases advance_eq_ok hadvance with ⟨head, lx₁, rfl, hchild, rfl⟩ | ⟨lx₁, rfl, hchild, rfl⟩
      · exact .inr (.inl ⟨head, lx₁, rfl, rfl, hchild, rfl, rfl⟩)
      · exact .inr (.inr ⟨lx₁, rfl, rfl, rfl, .inr ⟨rfl, hchild⟩⟩)
  · cases h
    exact .inl ⟨a, rest, rfl, rfl, rfl⟩

/-- Moving to the next item of a sequence that stands in an element of its own. -/
theorem nextElement_wrapped {isEmpty more : Bool}
    (h : nextElement ⟨lx, .vacant, .wrapped isEmpty :: stack⟩ = .ok more r') :
    (∃ head lx₁, more = true ∧ isEmpty = false ∧ child lx = .ok (some head) lx₁ ∧
        r' = ⟨lx₁, .element head, .wrapped false :: stack⟩) ∨
      ∃ lx₁, more = false ∧ Passes isEmpty lx lx₁ ∧ r' = ⟨lx₁, .vacant, stack⟩ := by
  cases isEmpty with
  | true =>
    cases h
    exact .inr ⟨lx, rfl, rfl, rfl⟩
  | false =>
    obtain ⟨_, _, hget, h⟩ := run_bind_eq_ok_iff.1 h
    cases hget
    obtain ⟨_, _, hdiscard, h⟩ := run_bind_eq_ok_iff.1 h
    cases hdiscard
    obtain ⟨next, r₁, hadvance, h⟩ := run_bind_eq_ok_iff.1 h
    cases h
    rcases advance_eq_ok hadvance with ⟨head, lx₁, rfl, hchild, rfl⟩ | ⟨lx₁, rfl, hchild, rfl⟩
    · exact .inl ⟨head, lx₁, rfl, rfl, hchild, rfl⟩
    · exact .inr ⟨lx₁, rfl, passes_of_child_none hchild, rfl⟩

/-- The reader is at the entries of a mapping, or still in one whose value has been passed. -/
def AtEntries (isEmpty : Bool) (stack : List OpenPart) (r : Reader) : Prop :=
  r.cursor = .vacant ∧
    (r.stack = .mapping isEmpty :: stack ∨ r.stack = .entryTail :: .mapping isEmpty :: stack)

theorem closeEntry_entryTail {u : Unit}
    (h : closeEntry ⟨lx, .vacant, .entryTail :: stack⟩ = .ok u r') :
    ∃ lx₁, skipChildren lx = .ok () lx₁ ∧ r' = ⟨lx₁, .vacant, stack⟩ := by
  have hpull : pull skipChildren ⟨lx, .vacant, stack⟩ = .ok u r' := h
  exact pull_eq_ok hpull

theorem AtEntries.closeEntry {isEmpty : Bool} {u : Unit} (hr : AtEntries isEmpty stack r)
    (h : closeEntry r = .ok u r') : ∃ lx, r' = ⟨lx, .vacant, .mapping isEmpty :: stack⟩ := by
  obtain ⟨lx, cursor, parts⟩ := r
  obtain ⟨rfl, rfl | rfl⟩ : cursor = .vacant ∧ (parts = _ ∨ parts = _) := hr
  · cases h
    exact ⟨lx, rfl⟩
  · obtain ⟨lx₁, -, rfl⟩ := closeEntry_entryTail h
    exact ⟨lx₁, rfl⟩

/-- **Moving to the value of the next entry**, from where the entry before it was closed. -/
theorem nextEntry_eq_ok {isEmpty : Bool} {next : Option String} (hr : AtEntries isEmpty stack r)
    (h : nextEntry r = .ok next r') :
    ∃ lx, Reader.closeEntry r = .ok () ⟨lx, .vacant, .mapping isEmpty :: stack⟩ ∧
      ((∃ k head lx₁ value lx₂, next = some k ∧ isEmpty = false ∧ child lx = .ok (some head) lx₁ ∧
          head.isEmpty = false ∧ entry none lx₁ = .ok (k, value) lx₂ ∧
          r' = match value with
            | some v => ⟨lx₂, .element v, .entryTail :: .mapping false :: stack⟩
            | none => ⟨lx₂, .null, .mapping false :: stack⟩) ∨
        ∃ lx₁, next = none ∧ Passes isEmpty lx lx₁ ∧ r' = ⟨lx₁, .vacant, stack⟩) := by
  have hdrop : discard r = .ok () r := by
    obtain ⟨lx, cursor, parts⟩ := r
    obtain rfl : cursor = .vacant := hr.1
    rfl
  rw [nextEntry, run_bind hdrop] at h
  obtain ⟨_, r₁, hclose, h⟩ := run_bind_eq_ok_iff.1 h
  obtain ⟨lx, rfl⟩ := hr.closeEntry hclose
  refine ⟨lx, hclose, ?_⟩
  obtain ⟨_, _, hget, h⟩ := run_bind_eq_ok_iff.1 h
  cases hget
  cases isEmpty with
  | true =>
    cases h
    exact .inr ⟨lx, rfl, rfl, rfl⟩
  | false =>
    obtain ⟨found, r₂, hpull, h⟩ := run_bind_eq_ok_iff.1 h
    obtain ⟨lx₁, hchild, rfl⟩ := pull_eq_ok hpull
    rcases found with _ | head
    · cases h
      exact .inr ⟨lx₁, rfl, passes_of_child_none hchild, rfl⟩
    · cases hempty : head.isEmpty with
      | true =>
        simp only [hempty, if_true] at h
        cases h
      | false =>
        simp only [hempty, Bool.false_eq_true, if_false] at h
        obtain ⟨⟨k, value⟩, r₃, hpull, h⟩ := run_bind_eq_ok_iff.1 h
        obtain ⟨lx₂, hentry, rfl⟩ := pull_eq_ok hpull
        refine .inl ⟨k, head, lx₁, value, lx₂, ?_, rfl, hchild, hempty, hentry, ?_⟩ <;>
          cases value <;> cases h <;> rfl

/-- The reader in the container that stands in the element at the cursor. -/
def within : Container → Head → Reader → Reader
  | .sequence _ true, _, r => { r with stack := .flattened false :: r.stack }
  | .sequence _ false, head, r => ⟨r.lexer, .vacant, .wrapped head.isEmpty :: r.stack⟩
  | .mapping, head, r => ⟨r.lexer, .vacant, .mapping head.isEmpty :: r.stack⟩

theorem beginContainer_eq_ok {what : Container} {u : Unit} (h : beginContainer what r = .ok u r') :
    ∃ head, r.cursor = .element head ∧ r' = within what head r := by
  obtain ⟨lx, cursor, stack⟩ := r
  rcases what with ⟨name, _ | _⟩ | _ <;> cases cursor <;> cases h <;> exact ⟨_, rfl, rfl⟩

end Reader

end Markup

end Marshal
