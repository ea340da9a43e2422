import Marshal.Proofs.Markup.Events
import Marshal.Proofs.Outcome

/-!
# The elements of a document

Whatever document the lexer can pull apart, it finds a tree. An `Element` is a tag, as it stands
between its brackets, and what stands in it: other elements, and events that open and close nothing.
Its tag is taken apart when the element is handed out, and may turn out broken then, so the elements
that are reached in an element are its `Item.children`, with `Item.childrenEnd` behind them.

`Lexer.Holds` says that items are in front of a lexer, and `Lexer.Ahead` lists the children that it
will hand out. What the lexer does with the text, the children and the entries in an element depends
on these alone, and each loop is one induction over what is ahead.
-/

namespace Marshal.Markup

open Text

/-- The event neither opens nor closes anything. -/
def Event.Inert : Event → Prop
  | .text _ | .literal _ | .reference _ | .ignored => True
  | _ => False

/-- What stands in an element: another element, or an event that opens and closes nothing. -/
inductive Item (ε : Type) where
  | event (e : Event)
  | element (e : ε)

/-- An element as it stands in a document. -/
structure Element where
  tag : Piece
  isEmpty : Bool
  items : List (Item Element)

/-- An element whose tag has been taken apart. -/
structure Child where
  head : Head
  items : List (Item Element)

/-- The element when it is handed out. -/
def Element.open (e : Element) : Except DecodeError Child :=
  (Head.ofTag e.tag e.isEmpty).map fun head => ⟨head, e.items⟩

/-! ## What is read of items -/

namespace Item

/-- The elements among some items that are handed out: those in front of a broken tag. -/
def children : List (Item Element) → List Child
  | [] => []
  | .event _ :: items => children items
  | .element e :: items =>
    match e.open with
    | .ok c => c :: children items
    | .error _ => []

/-- What stands behind the elements that are handed out: the end tag, or a broken tag. -/
def childrenEnd : List (Item Element) → Except DecodeError Unit
  | [] => .ok ()
  | .event _ :: items => childrenEnd items
  | .element e :: items => do
    let _ ← e.open
    childrenEnd items

/-- The text of some items, after `before`. -/
def text (before : String) : List (Item Element) → Except DecodeError String
  | [] => .ok before
  | .event e :: items => do
    let more ← Lexer.textOfEvent e
    text (before ++ more.getD "") items
  | .element e :: _ =>
    .error (.malformed (.nestedElement (Symbol.lossyText (localPart (tagName e.tag)))))

end Item

namespace Child

/-- The text of an element. -/
def text (c : Child) : Except DecodeError String := Item.text "" c.items

/-- The elements in an element. -/
def children (c : Child) : List Child := Item.children c.items

/-- What stands behind the elements in an element. -/
def childrenEnd (c : Child) : Except DecodeError Unit := Item.childrenEnd c.items

/-- The text of the first of some elements of a name. -/
def firstText (name : String) :
    List Child → Except DecodeError Unit → Except DecodeError (Option String)
  | [], rest => rest.map fun _ => none
  | c :: cs, rest => if c.head.name = name then c.text.map some else firstText name cs rest

/-- The key among the elements in an entry, and the element of the value if there is one. The last
key before the value counts. -/
def entryOf (key : Option String) :
    List Child → Except DecodeError Unit → Except DecodeError (String × Option Child)
  | [], rest => do
    rest
    key.elim (.error (.malformed .entryWithoutKey)) fun k => .ok (k, none)
  | c :: cs, rest =>
    if c.head.name = "key" then do entryOf (some (← c.text)) cs rest
    else if c.head.name = "value" then
      key.elim (.error (.malformed .valueBeforeKey)) fun k => .ok (k, some c)
    else entryOf key cs rest

end Child

theorem Head.isEmpty_ofTag {tag : Piece} {isEmpty : Bool} {head : Head}
    (h : Head.ofTag tag isEmpty = .ok head) : head.isEmpty = isEmpty := by
  obtain ⟨name, -, h⟩ := Outcome.bind_eq_ok_iff.1 h
  obtain ⟨attributes, -, h⟩ := Outcome.bind_eq_ok_iff.1 h
  obtain rfl := Outcome.pure_eq_ok_iff.1 h
  rfl

theorem Element.open_eq_ok_iff {e : Element} {c : Child} :
    e.open = .ok c ↔ Head.ofTag e.tag e.isEmpty = .ok c.head ∧ c.items = e.items := by
  rw [Element.open]
  obtain ⟨head, items⟩ := c
  rcases Head.ofTag e.tag e.isEmpty with f | head'
  · simp [Except.map]
  · simp [Except.map, eq_comm]

namespace Lexer

variable {lx lx' lx₁ lx₂ : Lexer} {e : Event} {tag : Piece} {head : Head} {name : String}
  {items inner : List (Item Element)} {c : Child} {cs : List Child} {x : Except DecodeError Unit}

/-- A step of the lexer has an outcome: a result and a state after it, or an error. -/
def Lands {α : Type} (m : Lexed α) (x : Except DecodeError α) (lx' : Lexer) : Prop :=
  match x with
  | .ok a => m = .ok a lx'
  | .error e => ∃ lx'', m = .error e lx''

/-- The items are in front of the lexer, and then the end tag of the innermost element, behind which
it will be at the second state. -/
inductive Holds : List (Item Element) → Lexer → Lexer → Prop where
  | close {lx lx' : Lexer} : next lx = .ok .close lx' → Holds [] lx lx'
  | event {e : Event} {items : List (Item Element)} {lx lx₁ lx' : Lexer} :
    next lx = .ok e lx₁ → e.Inert → Holds items lx₁ lx' → Holds (.event e :: items) lx lx'
  | start {tag : Piece} {inner items : List (Item Element)} {lx lx₁ lx₂ lx' : Lexer} :
    next lx = .ok (.start tag) lx₁ → Holds inner lx₁ lx₂ → Holds items lx₂ lx' →
    Holds (.element ⟨tag, false, inner⟩ :: items) lx lx'
  | empty {tag : Piece} {items : List (Item Element)} {lx lx₁ lx' : Lexer} :
    next lx = .ok (.empty tag) lx₁ → Holds items lx₁ lx' →
    Holds (.element ⟨tag, true, []⟩ :: items) lx lx'

/-- The lexer has passed the start tag of an element, and will be at the second state when it has
passed the element. -/
def Inside (c : Child) (lx lx' : Lexer) : Prop :=
  if c.head.isEmpty then c.items = [] ∧ lx = lx' else Holds c.items lx lx'

/-- The lexer will hand out these children of the innermost element, and it will be at the second
state when it has passed the end tag, unless there is a fault behind them. -/
inductive Ahead : List Child → Except DecodeError Unit → Lexer → Lexer → Prop where
  | nil {lx lx' : Lexer} : child lx = .ok none lx' → Ahead [] (.ok ()) lx lx'
  | fault {e : DecodeError} {lx lx₁ lx' : Lexer} :
    child lx = .error e lx₁ → skip 0 lx = .ok () lx' → Ahead [] (.error e) lx lx'
  | cons {c : Child} {cs : List Child} {x : Except DecodeError Unit} {lx lx₁ lx₂ lx' : Lexer} :
    child lx = .ok (some c.head) lx₁ → Inside c lx₁ lx₂ → Ahead cs x lx₂ lx' →
    Ahead (c :: cs) x lx lx'

/-! ## From item to item -/

theorem eq_close_of_textOfEvent (h : textOfEvent e = .ok none) : e = .close := by
  have hmap : ∀ {x : Except DecodeError String}, x.map some ≠ .ok none := by
    rintro (_ | _) h <;> cases h
  cases e with
  | close => rfl
  | text piece | literal piece | reference piece => exact absurd h hmap
  | _ => cases h

theorem inert_of_textOfEvent {s : String} (h : textOfEvent e = .ok (some s)) : e.Inert := by
  cases e <;> first | trivial | cases h

theorem child_of_inert (h : next lx = .ok e lx') (he : e.Inert) : child lx = child lx' := by
  rw [child]
  split
  · simp_all
  · rename_i h'
    obtain ⟨rfl, rfl⟩ := EStateM.Result.ok.inj (h.symm.trans h')
    cases e <;> first | rfl | cases he

theorem skip_of_inert (h : next lx = .ok e lx') (he : e.Inert) (depth : Nat) :
    skip depth lx = skip depth lx' := by
  rw [skip]
  split
  · simp_all
  · rename_i h'
    obtain ⟨rfl, rfl⟩ := EStateM.Result.ok.inj (h.symm.trans h')
    cases e <;> first | rfl | cases he

theorem child_of_start_error {f : DecodeError} (h : next lx = .ok (.start tag) lx')
    (hh : Head.ofTag tag false = .error f) : child lx = .error f lx' := by
  rw [child]
  grind [headAt]

theorem child_of_empty_error {f : DecodeError} (h : next lx = .ok (.empty tag) lx')
    (hh : Head.ofTag tag true = .error f) : child lx = .error f lx' := by
  rw [child]
  grind [headAt]

/-- **Skipping from `n + 1` elements deeper** first skips as far as the elements inside go. -/
theorem skip_add {depth : Nat} (h : skip depth lx = .ok () lx') (n : Nat) :
    skip (depth + n + 1) lx = skip n lx' := by
  fun_induction skip depth lx
  case case1 => cases h
  case case2 hnext _ _ ih =>
    rw [skip_of_start hnext, ← ih h]
    congr 1
    omega
  case case3 hnext _ =>
    cases h
    rw [Nat.zero_add, skip_succ_of_close hnext]
  case case4 hnext _ _ _ ih =>
    rw [← ih h, ← skip_succ_of_close hnext]
    congr 1
    omega
  case case5 => cases h
  case case6 hnext _ _ ih => rw [skip_of_empty hnext, ih h]
  case case7 hnext _ _ ih | case8 hnext _ _ ih | case9 hnext _ _ ih | case10 hnext _ _ ih =>
    rw [skip_of_inert hnext trivial, ih h]

/-! ## Elements -/

/-- What is between two tags is skipped with the end tag. -/
theorem Holds.skip (h : Holds items lx lx') : skip 0 lx = .ok () lx' := by
  induction h with
  | close hnext => exact skip_zero_of_close hnext
  | event hnext he _ ih => rw [skip_of_inert hnext he, ih]
  | start hnext _ _ ihInner ih =>
    exact (skip_of_start hnext 0).trans ((skip_add ihInner 0).trans ih)
  | empty hnext _ ih => rw [skip_of_empty hnext, ih]

/-- **An element is passed whole.** -/
theorem Inside.skipHead (h : Inside c lx lx') : skipHead c.head lx = .ok () lx' := by
  rw [Inside] at h
  rw [Lexer.skipHead]
  split at h
  · rename_i he
    obtain ⟨-, rfl⟩ := h
    rw [if_pos he]
  · rename_i he
    rw [if_neg he]
    exact h.skip

theorem Holds.text (h : Holds items lx lx') (before : String) :
    Lands (text before lx) (Item.text before items) lx' := by
  induction h generalizing before with
  | close hnext => exact text_of_close hnext before
  | @event e items lx lx₁ lx' hnext he _ ih =>
    rw [Item.text]
    rcases ht : textOfEvent e with f | _ | more
    · exact ⟨lx₁, text_of_error hnext ht before⟩
    · obtain rfl := eq_close_of_textOfEvent ht
      cases he
    · rw [text_of_text hnext ht]
      exact ih _
  | start hnext => exact ⟨_, text_of_error hnext rfl before⟩
  | empty hnext => exact ⟨_, text_of_error hnext rfl before⟩

/-- **The text in an element** is read, and the first element in it reported. -/
theorem Inside.headText (h : Inside c lx lx') : Lands (headText c.head lx) c.text lx' := by
  rw [Inside] at h
  rw [Lexer.headText]
  split at h
  · rename_i he
    obtain ⟨hitems, rfl⟩ := h
    rw [if_pos he, Child.text, hitems]
    rfl
  · rename_i he
    rw [if_neg he]
    exact h.text ""

/-! ## Children -/

theorem Ahead.of_inert (hnext : next lx = .ok e lx₁) (he : e.Inert) (h : Ahead cs x lx₁ lx') :
    Ahead cs x lx lx' := by
  have hchild := child_of_inert hnext he
  cases h with
  | nil h => exact .nil (hchild.trans h)
  | fault h hskip => exact .fault (hchild.trans h) ((skip_of_inert hnext he 0).trans hskip)
  | cons h hinside hrest => exact .cons (hchild.trans h) hinside hrest

/-- **The children between two tags** are handed out one by one. -/
theorem Holds.ahead (h : Holds items lx lx') :
    Ahead (Item.children items) (Item.childrenEnd items) lx lx' := by
  induction h with
  | close hnext => exact .nil (child_of_close hnext)
  | event hnext he _ ih => exact ih.of_inert hnext he
  | @start tag inner items lx lx₁ lx₂ lx' hnext hinner hitems _ ih =>
    rw [Item.children, Item.childrenEnd, Element.open]
    rcases hhead : Head.ofTag tag false with f | head
    · exact .fault (child_of_start_error hnext hhead) (Holds.start hnext hinner hitems).skip
    · refine .cons (child_of_start hnext hhead) ?_ ih
      rw [Inside, Head.isEmpty_ofTag hhead, if_neg Bool.false_ne_true]
      exact hinner
  | @empty tag items lx lx₁ lx' hnext hitems ih =>
    rw [Item.children, Item.childrenEnd, Element.open]
    rcases hhead : Head.ofTag tag true with f | head
    · exact .fault (child_of_empty_error hnext hhead) (Holds.empty hnext hitems).skip
    · refine .cons (child_of_empty hnext hhead) ?_ ih
      rw [Inside, if_pos (Head.isEmpty_ofTag hhead)]
      exact ⟨rfl, rfl⟩

theorem Inside.length_le (h : Inside c lx lx') : lx'.rest.length ≤ lx.rest.length :=
  length_skipHead_le h.skipHead

theorem Ahead.rest_length_lt (h : Ahead cs x lx lx') : lx'.rest.length < lx.rest.length := by
  induction h with
  | nil hchild => exact length_child_lt hchild
  | fault _ hskip => exact length_skip_lt hskip
  | cons hchild hinside _ ih =>
    have hchild := length_child_lt hchild
    have hinside := hinside.length_le
    omega

/-- There are no more children than symbols. -/
theorem Ahead.length_le (h : Ahead cs x lx lx') : cs.length ≤ lx.rest.length := by
  induction h with
  | nil | fault => exact Nat.zero_le _
  | cons hchild hinside _ ih =>
    have hchild := length_child_lt hchild
    have hinside := hinside.length_le
    rw [List.length_cons]
    omega

/-! ## Loops over children -/

theorem childText?_of_name (h : child lx = .ok (some head) lx₁) (hn : head.name = name) :
    childText? name lx =
      match headText head lx₁ with
      | .ok s lx' => .ok (some s) lx'
      | .error e lx' => .error e lx' := by
  rw [childText?]
  grind

theorem childText?_of_ne (h : child lx = .ok (some head) lx₁) (hn : head.name ≠ name)
    (hs : skipHead head lx₁ = .ok () lx₂) : childText? name lx = childText? name lx₂ := by
  rw [childText?]
  grind

theorem childText?_of_none (h : child lx = .ok none lx₁) : childText? name lx = .ok none lx₁ := by
  rw [childText?]
  grind

theorem childText?_of_error {f : DecodeError} (h : child lx = .error f lx₁) :
    childText? name lx = .error f lx₁ := by
  rw [childText?]
  grind

/-- **The text of a child** is found under its name, wherever it stands. -/
theorem Ahead.childText? (h : Ahead cs x lx lx') (name : String) :
    ∃ lx'', Lands (childText? name lx) (Child.firstText name cs x) lx'' := by
  induction h with
  | nil hchild => exact ⟨_, childText?_of_none hchild⟩
  | @fault e lx lx₁ lx' hchild _ => exact ⟨lx', lx₁, childText?_of_error hchild⟩
  | @cons c cs x lx lx₁ lx₂ lx' hchild hinside _ ih =>
    rw [Child.firstText]
    by_cases hn : c.head.name = name
    · rw [if_pos hn, childText?_of_name hchild hn]
      have htext := hinside.headText
      cases hs : c.text with
      | ok s =>
        rw [hs] at htext
        rw [show headText c.head lx₁ = .ok s lx₂ from htext]
        exact ⟨lx₂, rfl⟩
      | error e =>
        rw [hs] at htext
        obtain ⟨lx₃, htext⟩ := htext
        rw [htext]
        exact ⟨lx₃, lx₃, rfl⟩
    · rw [if_neg hn, childText?_of_ne hchild hn hinside.skipHead]
      exact ih

theorem skipChildren_of_none (h : child lx = .ok none lx₁) : skipChildren lx = .ok () lx₁ := by
  rw [skipChildren]
  grind

theorem skipChildren_of_some (h : child lx = .ok (some head) lx₁)
    (hs : skipHead head lx₁ = .ok () lx₂) : skipChildren lx = skipChildren lx₂ := by
  rw [skipChildren]
  grind

theorem skipChildren_of_error {f : DecodeError} (h : child lx = .error f lx₁) :
    skipChildren lx = .error f lx₁ := by
  rw [skipChildren]
  grind

/-- **The remaining children are passed**, up to the fault behind them if there is one. -/
theorem Ahead.skipChildren (h : Ahead cs x lx lx') : Lands (skipChildren lx) x lx' := by
  induction h with
  | nil hchild => exact skipChildren_of_none hchild
  | @fault e lx lx₁ lx' hchild _ => exact ⟨lx₁, skipChildren_of_error hchild⟩
  | cons hchild hinside _ ih =>
    rw [skipChildren_of_some hchild hinside.skipHead]
    exact ih

/-! ## Entries -/

section Entry

variable {key : Option String}

theorem entry_of_key {s : String} (h : child lx = .ok (some head) lx₁) (hn : head.name = "key")
    (hs : headText head lx₁ = .ok s lx₂) : entry key lx = entry (some s) lx₂ := by
  rw [entry]
  grind

theorem entry_of_key_error {e : DecodeError} (h : child lx = .ok (some head) lx₁)
    (hn : head.name = "key") (hs : headText head lx₁ = .error e lx₂) :
    entry key lx = .error e lx₂ := by
  rw [entry]
  grind

theorem entry_of_value (h : child lx = .ok (some head) lx₁) (hn : head.name = "value") :
    entry key lx =
      match key with
      | some k => .ok (k, some head) lx₁
      | none => .error (.malformed .valueBeforeKey) lx₁ := by
  rw [entry]
  grind

theorem entry_of_other (h : child lx = .ok (some head) lx₁) (hk : head.name ≠ "key")
    (hv : head.name ≠ "value") (hs : skipHead head lx₁ = .ok () lx₂) :
    entry key lx = entry key lx₂ := by
  rw [entry]
  grind

theorem entry_of_none (h : child lx = .ok none lx₁) :
    entry key lx =
      match key with
      | some k => .ok (k, none) lx₁
      | none => .error (.malformed .entryWithoutKey) lx₁ := by
  rw [entry]
  grind

theorem entry_of_error {f : DecodeError} (h : child lx = .error f lx₁) :
    entry key lx = .error f lx₁ := by
  rw [entry]
  grind

/-- Where the lexer is when it has moved to the value of an entry: inside of the value, with the rest
of the entry ahead, or behind the entry. -/
def AtValue (value : Option Child) (x : Except DecodeError Unit) (lx lx' : Lexer) : Prop :=
  match value with
  | some c => ∃ lx₁ cs, Inside c lx lx₁ ∧ Ahead cs x lx₁ lx'
  | none => x = .ok () ∧ lx = lx'

/-- **An entry is entered** at its value. -/
theorem Ahead.entry (h : Ahead cs x lx lx') (key : Option String) :
    ∃ lx₁, Lands (entry key lx)
        ((Child.entryOf key cs x).map fun p => (p.1, p.2.map Child.head)) lx₁ ∧
      ∀ k value, Child.entryOf key cs x = .ok (k, value) → AtValue value x lx₁ lx' := by
  induction h generalizing key with
  | @nil lx lx' hchild =>
    rw [entry_of_none hchild, Child.entryOf]
    cases key with
    | some k =>
      refine ⟨_, rfl, fun k' value he => ?_⟩
      obtain ⟨rfl, rfl⟩ := Prod.mk.inj (Except.ok.inj he)
      exact ⟨rfl, rfl⟩
    | none => exact ⟨lx', ⟨lx', rfl⟩, fun k' value he => by cases he⟩
  | @fault e lx lx₁ lx' hchild _ =>
    exact ⟨lx₁, ⟨lx₁, entry_of_error hchild⟩, fun k value he => by cases he⟩
  | @cons c cs x lx lx₁ lx₂ lx' hchild hinside hrest ih =>
    rw [Child.entryOf]
    by_cases hk : c.head.name = "key"
    · rw [if_pos hk]
      have htext := hinside.headText
      cases hs : c.text with
      | ok s =>
        rw [hs] at htext
        rw [entry_of_key hchild hk htext]
        exact ih (some s)
      | error e =>
        rw [hs] at htext
        obtain ⟨lx₃, htext⟩ := htext
        rw [entry_of_key_error hchild hk htext]
        exact ⟨lx₃, ⟨lx₃, rfl⟩, fun k value he => by cases he⟩
    · by_cases hv : c.head.name = "value"
      · rw [if_neg hk, if_pos hv, entry_of_value hchild hv]
        cases key with
        | some k =>
          refine ⟨lx₁, rfl, fun k' value he => ?_⟩
          obtain ⟨rfl, rfl⟩ := Prod.mk.inj (Except.ok.inj he)
          exact ⟨lx₂, cs, hinside, hrest⟩
        | none => exact ⟨lx₁, ⟨lx₁, rfl⟩, fun k value he => by cases he⟩
      · rw [if_neg hk, if_neg hv, entry_of_other hchild hk hv hinside.skipHead]
        exact ih key

end Entry

/-! ## Documents -/

/-- The element is the first one in front of the lexer. -/
inductive Opens : Element → Lexer → Prop where
  | event {e : Event} {el : Element} {lx lx₁ : Lexer} :
    next lx = .ok e lx₁ → e.Inert → Opens el lx₁ → Opens el lx
  | start {tag : Piece} {items : List (Item Element)} {lx lx₁ lx' : Lexer} :
    next lx = .ok (.start tag) lx₁ → Holds items lx₁ lx' → Opens ⟨tag, false, items⟩ lx
  | empty {tag : Piece} {lx lx₁ : Lexer} : next lx = .ok (.empty tag) lx₁ → Opens ⟨tag, true, []⟩ lx

theorem root_of_inert (h : next lx = .ok e lx₁) (he : e.Inert) : root lx = root lx₁ := by
  rw [root]
  split
  · simp_all
  · rename_i h'
    obtain ⟨rfl, rfl⟩ := EStateM.Result.ok.inj (h.symm.trans h')
    cases e <;> first | rfl | cases he

theorem root_of_start (h : next lx = .ok (.start tag) lx₁) : root lx = headAt lx₁ tag false := by
  rw [root]
  grind

theorem root_of_empty (h : next lx = .ok (.empty tag) lx₁) : root lx = headAt lx₁ tag true := by
  rw [root]
  grind

/-- An element is handed out when its tag has been passed. -/
theorem headAt_open (el : Element) (lx : Lexer) :
    Lands (headAt lx el.tag el.isEmpty) (el.open.map Child.head) lx := by
  rw [headAt, Element.open]
  rcases Head.ofTag el.tag el.isEmpty with e | head
  · exact ⟨lx, rfl⟩
  · exact rfl

/-- **The root of a document** is handed out. -/
theorem Opens.root {el : Element} (h : Opens el lx) : ∃ lx₁,
    Lands (root lx) (el.open.map Child.head) lx₁ ∧
      ∀ c, el.open = .ok c → ∃ lx', Inside c lx₁ lx' := by
  induction h with
  | event hnext he _ ih =>
    rw [root_of_inert hnext he]
    exact ih
  | @start tag items lx lx₁ lx' hnext hitems =>
    rw [root_of_start hnext]
    refine ⟨lx₁, headAt_open ⟨tag, false, items⟩ lx₁, fun c hc => ⟨lx', ?_⟩⟩
    obtain ⟨hhead, hc⟩ := Element.open_eq_ok_iff.1 hc
    rw [Inside, hc, Head.isEmpty_ofTag hhead, if_neg Bool.false_ne_true]
    exact hitems
  | @empty tag lx lx₁ hnext =>
    rw [root_of_empty hnext]
    refine ⟨lx₁, headAt_open ⟨tag, true, []⟩ lx₁, fun c hc => ⟨lx₁, ?_⟩⟩
    obtain ⟨hhead, hc⟩ := Element.open_eq_ok_iff.1 hc
    rw [Inside, hc, Head.isEmpty_ofTag hhead, if_pos rfl]
    exact ⟨rfl, rfl⟩

end Lexer

end Marshal.Markup
