import Marshal.Proofs.Markup.Elements
import Marshal.Proofs.Wire.Walk

/-!
# Walking markup

A document is read as the tree of its elements, whoever wrote it. `Found` is what can stand at the
cursor: an element, the value of an attribute, or the missing value of an entry. The reader walks such
trees (`Reader.walks`), so decoding a document is decoding its tree (`Reader.decode_of_opens`). Where
the tag of an element is broken, what stands in front of it is decoded first.
-/

namespace Marshal.Markup

open Text

/-- What is found in a document as a value. -/
inductive Found where
  | plain (value : String)
  | child (c : Child)
  | missing

namespace Found

/-- The attributes of an element as parts of an object. -/
def ofAttributes (as : List (String × String)) : List (String × Placement × Found) :=
  as.map fun a => (a.1, .attribute, .plain a.2)

/-- The elements in an element as parts of an object. -/
def ofChildren (cs : List Child) : List (String × Placement × Found) :=
  cs.map fun c => (c.head.name, .element, .child c)

/-- A fault as an entry of a mapping. -/
def ofFault : Except DecodeError Unit → List (Except DecodeError (String × Found))
  | .ok () => []
  | .error e => [.error e]

/-- What an element in a mapping holds: an entry, and the fault behind its value if there is one. -/
def ofEntry (c : Child) : List (Except DecodeError (String × Found)) :=
  if c.head.isEmpty then [.error (.malformed (.emptyEntry c.head.name))]
  else
    match Child.entryOf none c.children c.childrenEnd with
    | .ok (key, some value) => .ok (key, .child value) :: ofFault c.childrenEnd
    | .ok (key, none) => [.ok (key, .missing)]
    | .error e => [.error e]

/-- The elements in an element as entries of a mapping. -/
def ofEntries (cs : List Child) (x : Except DecodeError Unit) :
    List (Except DecodeError (String × Found)) :=
  cs.flatMap ofEntry ++ ofFault x

theorem ofEntry_ne_nil (c : Child) : ofEntry c ≠ [] := by
  rw [ofEntry]
  split
  · simp
  · split <;> simp

theorem ofEntries_eq_nil_iff {cs : List Child} {x : Except DecodeError Unit} :
    ofEntries cs x = [] ↔ cs = [] ∧ x = .ok () := by
  rw [ofEntries, List.append_eq_nil_iff, List.flatMap_eq_nil_iff]
  refine and_congr ⟨fun h => ?_, ?_⟩ ?_
  · exact List.eq_nil_iff_forall_not_mem.2 fun c hc => ofEntry_ne_nil c (h c hc)
  · rintro rfl
    simp
  · rcases x with e | u <;> simp [ofFault]

/-- The fault of taking what is no element as one. -/
def expected (what : String) : Found → DecodeError
  | .plain _ => .typeMismatch "<xml>" what "attribute"
  | _ => .malformed (.expectedElement what)

end Found

instance : Tree Found where
  isNull
    | .missing => true
    | _ => false
  scalar
    | .plain v => .ok (.text v)
    | .child c => c.text.map .text
    | .missing => .error (.malformed .noScalar)
  parts
    | .child c => .ok (Found.ofAttributes c.head.attributes ++ Found.ofChildren c.children)
    | t => .error (t.expected "object")
  partsEnd
    | .child c => c.childrenEnd
    | _ => .ok ()
  text? t name placement :=
    match t, placement with
    | .child c, .attribute => .ok ((c.head.attributes.find? fun a => a.1 = name).map Prod.snd)
    | .child c, .element => Child.firstText name c.children c.childrenEnd
    | _, _ => .ok none
  items layout t :=
    match layout, t with
    | .flattened, .child _ => .ok [t]
    | .flattened, _ => .error (.malformed .expectedItem)
    | .wrapped _, .child c => .ok (c.children.map .child)
    | .wrapped _, t => .error (t.expected "sequence")
  itemsEnd layout t :=
    match layout, t with
    | .wrapped _, .child c => c.childrenEnd
    | _, _ => .ok ()
  entries
    | .child c => .ok (Found.ofEntries c.children c.childrenEnd)
    | t => .error (t.expected "map")

namespace Reader

open Lexer Outcome

variable {lx lx' lx₁ lx₂ : Lexer} {stack : List OpenPart} {c : Child} {cs : List Child}
  {x : Except DecodeError Unit}

/-! ## Steps of the reader -/

theorem pull_error {α : Type} {f : Lexer → Lexed α} {e : DecodeError} (h : f lx = .error e lx')
    (cursor : Cursor) (stack : List OpenPart) : ∃ r, pull f ⟨lx, cursor, stack⟩ = .error e r := by
  refine ⟨⟨lx', cursor, stack⟩, ?_⟩
  rw [pull, h]

/-- A step of the lexer is a step of the reader. -/
theorem pull_follows {α : Type} {f : Lexer → Lexed α} {x : Except DecodeError α}
    (h : Lands (f lx) x lx') (cursor : Cursor) (stack : List OpenPart) :
    Follows (pull f) x ⟨lx, cursor, stack⟩ ⟨lx', cursor, stack⟩ := by
  cases x with
  | ok a =>
    have hf : f lx = .ok a lx' := h
    show pull f _ = _
    rw [pull, hf]
  | error e =>
    obtain ⟨lx'', hf⟩ := h
    exact pull_error hf cursor stack

theorem pull_run {α : Type} {f : Lexer → Lexed α} {a : α} (h : f lx = .ok a lx') (cursor : Cursor)
    (stack : List OpenPart) :
    pull f ⟨lx, cursor, stack⟩ = .ok a ⟨lx', cursor, stack⟩ :=
  pull_follows (x := .ok a) h cursor stack

/-- Children that may still be ahead; there are none in an element that was one tag. -/
def Remain (isEmpty : Bool) (cs : List Child) (x : Except DecodeError Unit) (lx lx' : Lexer) : Prop :=
  if isEmpty then cs = [] ∧ x = .ok () ∧ lx = lx' else Ahead cs x lx lx'

theorem remain_of_inside (h : Inside c lx lx') :
    Remain c.head.isEmpty c.children c.childrenEnd lx lx' := by
  rw [Inside] at h
  rw [Remain]
  split at h
  · rename_i he
    obtain ⟨hitems, rfl⟩ := h
    rw [if_pos he, Child.children, Child.childrenEnd, hitems]
    exact ⟨rfl, rfl, rfl⟩
  · rename_i he
    rw [if_neg he]
    exact h.ahead

theorem Remain.length_le {isEmpty : Bool} (h : Remain isEmpty cs x lx lx') :
    cs.length ≤ lx.rest.length := by
  cases isEmpty with
  | true =>
    obtain ⟨rfl, -⟩ := h
    exact Nat.zero_le _
  | false => exact Ahead.length_le h

theorem discard_vacant (lx : Lexer) (stack : List OpenPart) :
    discard ⟨lx, .vacant, stack⟩ = .ok () ⟨lx, .vacant, stack⟩ := rfl

theorem get_run (r : Reader) : (get : Reading Reader Reader) r = .ok r r := rfl

theorem take_run (lx : Lexer) (cursor : Cursor) (stack : List OpenPart) :
    take ⟨lx, cursor, stack⟩ = .ok cursor ⟨lx, .vacant, stack⟩ := rfl

theorem advance_nil (h : child lx = .ok none lx') (cursor : Cursor) (p : OpenPart) :
    advance ⟨lx, cursor, p :: stack⟩ = .ok none ⟨lx', cursor, stack⟩ :=
  (run_bind (pull_run h cursor (p :: stack))).trans rfl

theorem advance_cons {head : Head} (h : child lx = .ok (some head) lx') (cursor : Cursor) :
    advance ⟨lx, cursor, stack⟩ = .ok (some head) ⟨lx', .element head, stack⟩ :=
  (run_bind (pull_run h cursor stack)).trans rfl

/-- Behind the last child stands the end tag of the innermost structure, or a fault. -/
theorem advance_nil_follows {isEmpty : Bool} (h : Remain isEmpty [] x lx lx')
    (he : isEmpty = false) (p : OpenPart) (stack : List OpenPart) :
    Follows advance (x.map fun _ => none) ⟨lx, .vacant, p :: stack⟩ ⟨lx', .vacant, stack⟩ := by
  subst he
  cases h with
  | nil hchild => exact advance_nil hchild .vacant p
  | fault hchild _ =>
    exact .of_error (pull_error hchild .vacant (p :: stack))

/-! ## Where a reader stands -/

/-- What stands at the cursor, and the reader when it has passed it. -/
def At : Found → Reader → Reader → Prop
  | .plain v, r, r' => r.cursor = .attribute v ∧ r' = { r with cursor := .vacant }
  | .child c, r, r' =>
    r.cursor = .element c.head ∧ r'.cursor = .vacant ∧ r.stack = r'.stack ∧
      Inside c r.lexer r'.lexer
  | .missing, r, r' => r.cursor = .null ∧ r' = { r with cursor := .vacant }

/-- The parts left of an object: attributes, and then children. -/
inductive InObject :
    List (String × Placement × Found) → Except DecodeError Unit → Reader → Reader → Prop where
  | mk {as : List (String × String)} {isEmpty : Bool} {cs : List Child} {x : Except DecodeError Unit}
    {lx lx' : Lexer} {stack : List OpenPart} : Remain isEmpty cs x lx lx' →
    InObject (Found.ofAttributes as ++ Found.ofChildren cs) x
      ⟨lx, .vacant, .object as isEmpty :: stack⟩ ⟨lx', .vacant, stack⟩

/-- The items left of a sequence. A flattened one is entered at an item, and has none after it. -/
inductive InSequence : List Found → Except DecodeError Unit → Reader → Reader → Prop where
  | wrapped {isEmpty : Bool} {cs : List Child} {x : Except DecodeError Unit} {lx lx' : Lexer}
    {stack : List OpenPart} : Remain isEmpty cs x lx lx' →
    InSequence (cs.map .child) x ⟨lx, .vacant, .wrapped isEmpty :: stack⟩ ⟨lx', .vacant, stack⟩
  | flattened {c : Child} {lx lx' : Lexer} {stack : List OpenPart} : Inside c lx lx' →
    InSequence [.child c] (.ok ()) ⟨lx, .element c.head, .flattened false :: stack⟩
      ⟨lx', .vacant, stack⟩
  | yielded {lx : Lexer} {stack : List OpenPart} :
    InSequence [] (.ok ()) ⟨lx, .vacant, .flattened true :: stack⟩ ⟨lx, .vacant, stack⟩

/-- The entries left of a mapping, where the rest of the last one may have to be passed first. -/
inductive InMapping : List (Except DecodeError (String × Found)) → Reader → Reader → Prop where
  | first {isEmpty : Bool} {cs : List Child} {x : Except DecodeError Unit} {lx lx' : Lexer}
    {stack : List OpenPart} : Remain isEmpty cs x lx lx' →
    InMapping (Found.ofEntries cs x) ⟨lx, .vacant, .mapping isEmpty :: stack⟩ ⟨lx', .vacant, stack⟩
  | next {tail cs : List Child} {y x : Except DecodeError Unit} {lx lx₁ lx' : Lexer}
    {stack : List OpenPart} : Ahead tail y lx lx₁ → Ahead cs x lx₁ lx' →
    InMapping (Found.ofFault y ++ Found.ofEntries cs x)
      ⟨lx, .vacant, .entryTail :: .mapping false :: stack⟩ ⟨lx', .vacant, stack⟩

variable {t : Found} {r r' : Reader}

/-! ## The laws of walking -/

theorem isNull_run (h : At t r r') (hn : Tree.isNull t = true) :
    (Source.isNull : Reading Reader Bool) r = .ok true r' := by
  obtain ⟨lx, cursor, stack⟩ := r
  cases t with
  | missing =>
    obtain ⟨rfl, rfl⟩ := h
    rfl
  | plain | child => cases hn

theorem isNotNull_run (h : At t r r') (hn : Tree.isNull t = false) :
    (Source.isNull : Reading Reader Bool) r = .ok false r := by
  obtain ⟨lx, cursor, stack⟩ := r
  cases t with
  | missing => cases hn
  | plain v =>
    obtain ⟨rfl, rfl⟩ := h
    rfl
  | child c =>
    obtain ⟨rfl, -⟩ := h
    rfl

theorem scalar_follows (h : At t r r') :
    Follows (Source.scalar : Reading Reader Token) (Tree.scalar t) r r' := by
  obtain ⟨lx, cursor, stack⟩ := r
  obtain ⟨lx', cursor', stack'⟩ := r'
  cases t with
  | plain v =>
    obtain ⟨rfl, he⟩ := h
    cases he
    rfl
  | missing =>
    obtain ⟨rfl, he⟩ := h
    exact ⟨_, rfl⟩
  | child c =>
    obtain ⟨rfl, rfl, rfl, hinside⟩ := h
    show Follows scalar _ _ _
    rw [scalar]
    refine .of_run (take_run lx _ stack) ?_
    exact (pull_follows hinside.headText .vacant stack).map Token.text

theorem skip_run (h : At t r r') : (Source.skip : Reading Reader Unit) r = .ok () r' := by
  obtain ⟨lx, cursor, stack⟩ := r
  obtain ⟨lx', cursor', stack'⟩ := r'
  cases t with
  | plain v =>
    obtain ⟨rfl, he⟩ := h
    cases he
    rfl
  | missing =>
    obtain ⟨rfl, he⟩ := h
    cases he
    rfl
  | child c =>
    obtain ⟨rfl, rfl, rfl, hinside⟩ := h
    show discard _ = _
    rw [discard]
    refine (run_bind (take_run lx _ stack)).trans ?_
    exact pull_run hinside.skipHead .vacant stack

/-- What is no element is not taken for one. -/
theorem takeElement_fails (h : At t r r') (ht : ∀ c, t ≠ .child c) (what : String) :
    ∃ r'', takeElement what r = .error (t.expected what) r'' := by
  obtain ⟨lx, cursor, stack⟩ := r
  cases t with
  | plain v =>
    obtain ⟨rfl, -⟩ := h
    exact ⟨_, rfl⟩
  | missing =>
    obtain ⟨rfl, -⟩ := h
    exact ⟨_, rfl⟩
  | child c => exact absurd rfl (ht c)

theorem peekField_follows (h : Remain c.head.isEmpty c.children c.childrenEnd lx lx')
    (name : String) (placement : Placement) :
    Follows (Source.peekField name placement : Reading Reader (Option String))
      (Tree.text? (Found.child c) name placement)
      ⟨lx, .vacant, .object c.head.attributes c.head.isEmpty :: stack⟩
      ⟨lx, .vacant, .object c.head.attributes c.head.isEmpty :: stack⟩ := by
  rcases placement with _ | _
  rotate_left
  · exact rfl
  · show Follows (peekField name .element) (Child.firstText name c.children c.childrenEnd) _ _
    cases he : c.head.isEmpty with
    | true =>
      rw [he] at h
      obtain ⟨hcs, hx, -⟩ := h
      rw [hcs, hx]
      exact rfl
    | false =>
      rw [he] at h
      obtain ⟨lx'', hlands⟩ := Ahead.childText? h name
      cases hfound : Child.firstText name c.children c.childrenEnd with
      | ok found =>
        rw [hfound] at hlands
        show peekField name .element _ = _
        rw [peekField]
        refine (run_bind (get_run _)).trans ?_
        dsimp only
        rw [if_neg Bool.false_ne_true, show Lexer.childText? name lx = .ok found lx'' from hlands]
        rfl
      | error e =>
        rw [hfound] at hlands
        obtain ⟨lx₃, hlands⟩ := hlands
        refine ⟨⟨lx, .vacant, .object c.head.attributes false :: stack⟩, ?_⟩
        rw [peekField]
        refine (run_bind (get_run _)).trans ?_
        dsimp only
        rw [if_neg Bool.false_ne_true, hlands]
        rfl

theorem beginObject_follows (h : At t r r') : ∃ r₁,
    Follows (Source.beginObject : Reading Reader Unit) ((Tree.parts t).map fun _ => ()) r r₁ ∧
      ∀ ps, Tree.parts t = .ok ps → InObject ps (Tree.partsEnd t) r₁ r' ∧ ∀ name placement,
        Follows (Source.peekField name placement : Reading Reader (Option String))
          (Tree.text? t name placement) r₁ r₁ := by
  cases t with
  | child c =>
    obtain ⟨lx, cursor, stack⟩ := r
    obtain ⟨lx', cursor', stack'⟩ := r'
    obtain ⟨rfl, rfl, rfl, hinside⟩ := h
    have hremain := remain_of_inside hinside
    refine ⟨⟨lx, .vacant, .object c.head.attributes c.head.isEmpty :: stack⟩, rfl, fun ps hps => ?_⟩
    obtain rfl := Except.ok.inj hps
    exact ⟨.mk hremain, peekField_follows hremain⟩
  | plain v =>
    obtain ⟨r'', he⟩ := takeElement_fails h (by simp) "object"
    exact ⟨r, .of_error ⟨r'', he⟩, fun ps hps => by cases hps⟩
  | missing =>
    obtain ⟨r'', he⟩ := takeElement_fails h (by simp) "object"
    exact ⟨r, .of_error ⟨r'', he⟩, fun ps hps => by cases hps⟩

theorem beginSequence_follows (h : At t r r') (name : String) (layout : Layout) : ∃ r₁,
    Follows (Source.beginContainer (Decode.containerFor name layout) : Reading Reader Unit)
        ((Tree.items layout t).map fun _ => ()) r r₁ ∧
      ∀ ts, Tree.items layout t = .ok ts → InSequence ts (Tree.itemsEnd layout t) r₁ r' := by
  obtain ⟨lx, cursor, stack⟩ := r
  cases t with
  | child c =>
    obtain ⟨lx', cursor', stack'⟩ := r'
    obtain ⟨rfl, rfl, rfl, hinside⟩ := h
    cases layout with
    | flattened =>
      refine ⟨⟨lx, .element c.head, .flattened false :: stack⟩, rfl, fun ts hts => ?_⟩
      obtain rfl := Except.ok.inj hts
      exact .flattened hinside
    | wrapped item =>
      refine ⟨⟨lx, .vacant, .wrapped c.head.isEmpty :: stack⟩, rfl, fun ts hts => ?_⟩
      obtain rfl := Except.ok.inj hts
      exact .wrapped (remain_of_inside hinside)
  | plain v =>
    obtain ⟨rfl, -⟩ := h
    cases layout with
    | flattened => exact ⟨⟨lx, .vacant, stack⟩, ⟨_, rfl⟩, fun ts hts => by cases hts⟩
    | wrapped item => exact ⟨⟨lx, .vacant, stack⟩, ⟨_, rfl⟩, fun ts hts => by cases hts⟩
  | missing =>
    obtain ⟨rfl, -⟩ := h
    cases layout with
    | flattened => exact ⟨⟨lx, .vacant, stack⟩, ⟨_, rfl⟩, fun ts hts => by cases hts⟩
    | wrapped item => exact ⟨⟨lx, .vacant, stack⟩, ⟨_, rfl⟩, fun ts hts => by cases hts⟩

theorem beginMapping_follows (h : At t r r') : ∃ r₁,
    Follows (Source.beginContainer .mapping : Reading Reader Unit)
        ((Tree.entries t).map fun _ => ()) r r₁ ∧
      ∀ es, Tree.entries t = .ok es → InMapping es r₁ r' := by
  obtain ⟨lx, cursor, stack⟩ := r
  cases t with
  | child c =>
    obtain ⟨lx', cursor', stack'⟩ := r'
    obtain ⟨rfl, rfl, rfl, hinside⟩ := h
    refine ⟨⟨lx, .vacant, .mapping c.head.isEmpty :: stack⟩, rfl, fun es hes => ?_⟩
    obtain rfl := Except.ok.inj hes
    exact .first (remain_of_inside hinside)
  | plain v =>
    obtain ⟨rfl, -⟩ := h
    exact ⟨⟨lx, .vacant, stack⟩, ⟨_, rfl⟩, fun ts hts => by cases hts⟩
  | missing =>
    obtain ⟨rfl, -⟩ := h
    exact ⟨⟨lx, .vacant, stack⟩, ⟨_, rfl⟩, fun ts hts => by cases hts⟩

theorem nextKey_nil (h : InObject [] x r r') :
    Follows (Source.nextKey : Reading Reader (Option (String × Placement))) (x.map fun _ => none)
      r r' := by
  generalize hps : ([] : List (String × Placement × Found)) = ps at h
  cases h with
  | @mk as isEmpty cs x lx lx' stack hremain =>
    obtain ⟨has, hcs⟩ := List.append_eq_nil_iff.1 hps.symm
    obtain rfl := List.map_eq_nil_iff.1 has
    obtain rfl := List.map_eq_nil_iff.1 hcs
    cases isEmpty with
    | true =>
      obtain ⟨-, rfl, rfl⟩ := hremain
      rfl
    | false =>
      show Follows nextKey _ _ _
      rw [nextKey]
      refine .of_run (discard_vacant lx _) (.of_run (get_run _) ?_)
      have hnext := (advance_nil_follows hremain rfl (.object [] false) stack).map
        fun found : Option Head => found.map fun head => (head.name, Placement.element)
      cases x <;> exact hnext

theorem nextKey_cons {name : String} {placement : Placement}
    {ps : List (String × Placement × Found)} (h : InObject ((name, placement, t) :: ps) x r r') :
    ∃ r₁ r₂, (Source.nextKey : Reading Reader (Option (String × Placement))) r =
      .ok (some (name, placement)) r₁ ∧ At t r₁ r₂ ∧ InObject ps x r₂ r' := by
  generalize hps : (name, placement, t) :: ps = qs at h
  cases h with
  | @mk as isEmpty cs x lx lx' stack hremain =>
    rcases as with _ | ⟨⟨k, v⟩, as⟩
    · rcases cs with _ | ⟨c, cs⟩
      · cases hps
      · obtain ⟨he, rfl⟩ := List.cons.inj hps
        cases he
        cases isEmpty with
        | true => exact absurd hremain.1 (by simp)
        | false =>
          cases hremain with
          | @cons _ _ _ _ lx₁ lx₂ _ hchild hinside hrest =>
            refine ⟨⟨lx₁, .element c.head, .object [] false :: stack⟩,
              ⟨lx₂, .vacant, .object [] false :: stack⟩, ?_, ⟨rfl, rfl, rfl, hinside⟩, ?_⟩
            · show nextKey _ = _
              rw [nextKey]
              refine (run_bind (discard_vacant lx _)).trans ?_
              refine (run_bind (get_run _)).trans ?_
              exact (run_bind (advance_cons hchild .vacant)).trans rfl
            · exact @InObject.mk [] false _ _ _ _ _ hrest
    · obtain ⟨he, rfl⟩ := List.cons.inj hps
      cases he
      exact ⟨_, _, rfl, ⟨rfl, rfl⟩, .mk hremain⟩

theorem nextElement_nil (h : InSequence [] x r r') :
    Follows (Source.nextElement : Reading Reader Bool) (x.map fun _ => false) r r' := by
  generalize hts : ([] : List Found) = ts at h
  cases h with
  | @wrapped isEmpty cs x lx lx' stack hremain =>
    obtain rfl := List.map_eq_nil_iff.1 hts.symm
    cases isEmpty with
    | true =>
      obtain ⟨-, rfl, rfl⟩ := hremain
      rfl
    | false =>
      show Follows nextElement _ _ _
      rw [nextElement]
      refine .of_run (get_run _) (.of_run (discard_vacant lx _) ?_)
      have hnext := (advance_nil_follows hremain rfl (.wrapped false) stack).map
        Option.isSome
      cases x <;> exact hnext
  | flattened => cases hts
  | yielded => rfl

theorem nextElement_cons {ts : List Found} (h : InSequence (t :: ts) x r r') :
    ∃ r₁ r₂, (Source.nextElement : Reading Reader Bool) r = .ok true r₁ ∧ At t r₁ r₂ ∧
      InSequence ts x r₂ r' := by
  generalize hqs : t :: ts = qs at h
  cases h with
  | @wrapped isEmpty cs x lx lx' stack hremain =>
    rcases cs with _ | ⟨c, cs⟩
    · cases hqs
    · obtain ⟨rfl, rfl⟩ := List.cons.inj hqs
      cases isEmpty with
      | true => exact absurd hremain.1 (by simp)
      | false =>
        cases hremain with
        | @cons _ _ _ _ lx₁ lx₂ _ hchild hinside hrest =>
          refine ⟨⟨lx₁, .element c.head, .wrapped false :: stack⟩,
            ⟨lx₂, .vacant, .wrapped false :: stack⟩, ?_, ⟨rfl, rfl, rfl, hinside⟩, ?_⟩
          · show nextElement _ = _
            rw [nextElement]
            refine (run_bind (get_run _)).trans ?_
            refine (run_bind (discard_vacant lx _)).trans ?_
            exact (run_bind (advance_cons hchild .vacant)).trans rfl
          · exact @InSequence.wrapped false _ _ _ _ _ hrest
  | @flattened c lx lx' stack hinside =>
    obtain ⟨rfl, rfl⟩ := List.cons.inj hqs
    exact ⟨_, ⟨lx', .vacant, .flattened true :: stack⟩, rfl, ⟨rfl, rfl, rfl, hinside⟩, .yielded⟩
  | yielded => cases hqs

/-! ## Entries -/

/-- An entry that has been handed out is passed, and its mapping stands on top again, unless there is
a fault in the rest of the entry. -/
theorem InMapping.closed {es : List (Except DecodeError (String × Found))} (h : InMapping es r r') :
    (∃ e es' r₁, es = .error e :: es' ∧
        (do discard; closeEntry : Reading Reader Unit) r = .error e r₁) ∨
      ∃ isEmpty cs x lx lx' stack, es = Found.ofEntries cs x ∧ Remain isEmpty cs x lx lx' ∧
        r' = ⟨lx', .vacant, stack⟩ ∧ (do discard; closeEntry : Reading Reader Unit) r =
          .ok () ⟨lx, .vacant, .mapping isEmpty :: stack⟩ := by
  cases h with
  | @first isEmpty cs x lx lx' stack hremain =>
    exact .inr ⟨isEmpty, cs, x, lx, lx', stack, rfl, hremain, rfl, rfl⟩
  | @next tail cs y x lx lx₁ lx' stack htail hrest =>
    have hpull := pull_follows htail.skipChildren .vacant (.mapping false :: stack)
    cases y with
    | ok u =>
      refine .inr ⟨false, cs, x, lx₁, lx', stack, rfl, hrest, rfl, ?_⟩
      exact (run_bind (discard_vacant lx _)).trans ((run_bind (get_run _)).trans hpull)
    | error e =>
      obtain ⟨r₁, hpull⟩ := hpull
      refine .inl ⟨e, Found.ofEntries cs x, r₁, rfl, ?_⟩
      exact (run_bind (discard_vacant lx _)).trans ((run_bind (get_run _)).trans hpull)

/-- What is done with an entry whose head has been passed. -/
def enterEntry (head : Head) : Reading Reader (Option String) := do
  if head.isEmpty then Reading.malformed (.emptyEntry head.name)
  else
    match ← pull (Lexer.entry none) with
    | (key, some value) =>
      point (.element value)
      push .entryTail
      return some key
    | (key, none) =>
      point .null
      return some key

/-- What is found in an entry: its key, and what stands at the cursor for its value. -/
theorem enterEntry_follows (hinside : Inside c lx₁ lx₂) (hrest : Ahead cs x lx₂ lx')
    (stack : List OpenPart) : ∃ e es r₁, Found.ofEntry c = e :: es ∧
      Follows (enterEntry c.head) (e.map fun p => some p.1)
        ⟨lx₁, .vacant, .mapping false :: stack⟩ r₁ ∧
      ∀ key t, e = .ok (key, t) → ∃ r₂, At t r₁ r₂ ∧
        InMapping (es ++ Found.ofEntries cs x) r₂ ⟨lx', .vacant, stack⟩ := by
  rw [Found.ofEntry, enterEntry]
  by_cases he : c.head.isEmpty = true
  · rw [if_pos he, if_pos he]
    exact ⟨_, _, ⟨lx₁, .vacant, .mapping false :: stack⟩, rfl, follows_throw _,
      fun key t ht => by cases ht⟩
  · rw [if_neg he, if_neg he]
    rw [Inside, if_neg he] at hinside
    obtain ⟨lx₃, hlands, hvalue⟩ := hinside.ahead.entry none
    have hpull := pull_follows hlands .vacant (.mapping false :: stack)
    change ∀ k value, Child.entryOf none c.children c.childrenEnd = .ok (k, value) →
      AtValue value c.childrenEnd lx₃ lx₂ at hvalue
    change Follows _ ((Child.entryOf none c.children c.childrenEnd).map _) _ _ at hpull
    rcases hx : Child.entryOf none c.children c.childrenEnd with e | ⟨key, _ | value⟩
    · rw [hx] at hpull
      exact ⟨_, _, ⟨lx₁, .vacant, .mapping false :: stack⟩, rfl, .of_error hpull,
        fun key t ht => by cases ht⟩
    · rw [hx] at hpull
      obtain ⟨-, rfl⟩ := hvalue key none hx
      refine ⟨_, _, ⟨lx₃, .null, .mapping false :: stack⟩, rfl, .of_run hpull rfl, fun k t ht => ?_⟩
      obtain ⟨rfl, rfl⟩ := Prod.mk.inj (Except.ok.inj ht)
      exact ⟨_, ⟨rfl, rfl⟩, @InMapping.first false _ _ _ _ _ hrest⟩
    · rw [hx] at hpull
      obtain ⟨lx₄, tail, hvalue, htail⟩ := hvalue key _ hx
      refine ⟨_, _, ⟨lx₃, .element value.head, .entryTail :: .mapping false :: stack⟩, rfl,
        .of_run hpull rfl, fun k t ht => ?_⟩
      obtain ⟨rfl, rfl⟩ := Prod.mk.inj (Except.ok.inj ht)
      exact ⟨⟨lx₄, .vacant, .entryTail :: .mapping false :: stack⟩,
        ⟨rfl, rfl, rfl, hvalue⟩, .next htail hrest⟩

/-- Behind the last entry stands the end tag of the mapping, or a fault. -/
theorem enterMapping_nil_follows (h : Ahead [] x lx lx') (stack : List OpenPart) :
    Follows (do
      match ← pull Lexer.child with
      | none =>
        leave
        return none
      | some head => enterEntry head : Reading Reader (Option String)) (x.map fun _ => none)
      ⟨lx, .vacant, .mapping false :: stack⟩ ⟨lx', .vacant, stack⟩ := by
  cases h with
  | nil hchild => exact (run_bind (pull_run hchild .vacant _)).trans rfl
  | fault hchild _ => exact .of_error (pull_error hchild .vacant _)

/-- An entry that is ahead is entered, and what is found in it told. -/
theorem nextEntry_follows {e : Except DecodeError (String × Found)}
    {es : List (Except DecodeError (String × Found))} (h : InMapping (e :: es) r r') :
    ∃ r₁, Follows (Source.nextEntry : Reading Reader (Option String))
        (e.map fun p => some p.1) r r₁ ∧
      ∀ key t, e = .ok (key, t) → ∃ r₂, At t r₁ r₂ ∧ InMapping es r₂ r' := by
  show ∃ r₁, Follows nextEntry _ r r₁ ∧ _
  rw [nextEntry, ← bind_assoc]
  rcases h.closed with ⟨f, es', r₁, he, hclosed⟩ |
    ⟨isEmpty, cs, x, lx, lx', stack, hes, hremain, rfl, hclosed⟩
  · obtain ⟨rfl, -⟩ := List.cons.inj he
    exact ⟨r₁, .of_error ⟨r₁, hclosed⟩, fun key t ht => by cases ht⟩
  · rcases cs with _ | ⟨c, cs⟩
    · cases isEmpty with
      | true =>
        obtain ⟨-, rfl, -⟩ := hremain
        cases hes
      | false =>
        cases hremain with
        | nil => cases hes
        | @fault f lx lx₁ lx' hchild hskip =>
          obtain ⟨rfl, -⟩ := List.cons.inj hes
          refine ⟨r, .of_run hclosed (.of_run (get_run _) ?_), fun key t ht => by cases ht⟩
          exact enterMapping_nil_follows (.fault hchild hskip) stack
    · cases isEmpty with
      | true => exact absurd hremain.1 (by simp)
      | false =>
        cases hremain with
        | @cons _ _ _ _ lx₁ lx₂ _ hchild hinside hrest =>
          obtain ⟨f, es', r₁, hentry, henter, hat⟩ := enterEntry_follows hinside hrest stack
          rw [Found.ofEntries, List.flatMap_cons, hentry, List.cons_append, List.cons_append,
            List.append_assoc] at hes
          obtain ⟨rfl, rfl⟩ := List.cons.inj hes
          refine ⟨r₁, .of_run hclosed (.of_run (get_run _) ?_), hat⟩
          exact .of_run (pull_run hchild .vacant _) henter

theorem nextEntry_nil (h : InMapping [] r r') :
    (Source.nextEntry : Reading Reader (Option String)) r = .ok none r' := by
  show nextEntry _ = _
  rw [nextEntry, ← bind_assoc]
  rcases h.closed with ⟨f, es', r₁, he, -⟩ |
    ⟨isEmpty, cs, x, lx, lx', stack, hes, hremain, rfl, hclosed⟩
  · cases he
  · refine (run_bind hclosed).trans ((run_bind (get_run _)).trans ?_)
    obtain ⟨rfl, rfl⟩ := Found.ofEntries_eq_nil_iff.1 hes.symm
    cases isEmpty with
    | true =>
      obtain ⟨-, -, rfl⟩ := hremain
      rfl
    | false => exact enterMapping_nil_follows hremain stack

theorem nextEntry_cons {key : String} {es : List (Except DecodeError (String × Found))}
    (h : InMapping (.ok (key, t) :: es) r r') :
    ∃ r₁ r₂, (Source.nextEntry : Reading Reader (Option String)) r = .ok (some key) r₁ ∧
      At t r₁ r₂ ∧ InMapping es r₂ r' := by
  obtain ⟨r₁, hrun, hat⟩ := nextEntry_follows h
  obtain ⟨r₂, hat, hrest⟩ := hat key t rfl
  exact ⟨r₁, r₂, hrun, hat, hrest⟩

theorem nextEntry_error {e : DecodeError} {es : List (Except DecodeError (String × Found))}
    (h : InMapping (.error e :: es) r r') :
    ∃ r₁, (Source.nextEntry : Reading Reader (Option String)) r = .error e r₁ := by
  obtain ⟨r₁, hrun, -⟩ := nextEntry_follows h
  exact hrun

/-! ## The bound -/

theorem length_parts_le {ps : List (String × Placement × Found)} (h : InObject ps x r r') :
    ps.length ≤ Source.bound r := by
  cases h with
  | @mk as isEmpty cs x lx lx' stack hremain =>
    have hcs := hremain.length_le
    have has : as.length ≤ (((OpenPart.object as isEmpty :: stack).map OpenPart.size).foldr max 0) :=
      Nat.le_max_left _ _
    show _ ≤ _ + lx.rest.length + 1
    rw [List.length_append, Found.ofAttributes, Found.ofChildren, List.length_map, List.length_map]
    dsimp only
    omega

theorem length_items_le {ts : List Found} (h : InSequence ts x r r') :
    ts.length ≤ Source.bound r := by
  cases h with
  | @wrapped isEmpty cs x lx lx' stack hremain =>
    have hcs := hremain.length_le
    show _ ≤ _ + lx.rest.length + 1
    rw [List.length_map]
    omega
  | @flattened c lx =>
    show 1 ≤ _ + lx.rest.length + 1
    omega
  | yielded => exact Nat.zero_le _

theorem length_ofFault_le (x : Except DecodeError Unit) : (Found.ofFault x).length ≤ 1 := by
  rcases x with e | u
  · exact Nat.le_refl 1
  · exact Nat.zero_le 1

/-- An entry and the fault behind its value take a symbol each. -/
theorem length_ofEntry_le (hchild : child lx = .ok (some c.head) lx₁) (hinside : Inside c lx₁ lx₂) :
    (Found.ofEntry c).length + lx₂.rest.length ≤ lx.rest.length := by
  have hchild := length_child_lt hchild
  have hfault := length_ofFault_le c.childrenEnd
  rw [Found.ofEntry]
  by_cases he : c.head.isEmpty = true
  · rw [if_pos he]
    have hinside := hinside.length_le
    rw [List.length_singleton]
    omega
  · rw [if_neg he]
    rw [Inside, if_neg he] at hinside
    have hinside := length_skip_lt hinside.skip
    rcases Child.entryOf none c.children c.childrenEnd with e | ⟨key, _ | value⟩ <;>
      simp only [List.length_cons, List.length_nil] <;> omega

theorem length_ofEntries_le (h : Ahead cs x lx lx') :
    (Found.ofEntries cs x).length ≤ lx.rest.length + 1 := by
  induction h with
  | nil => exact Nat.zero_le _
  | fault => exact Nat.le_add_left 1 _
  | cons hchild hinside _ ih =>
    have hentry := length_ofEntry_le hchild hinside
    rw [Found.ofEntries, List.length_append] at ih
    rw [Found.ofEntries, List.flatMap_cons, List.append_assoc, List.length_append, List.length_append]
    omega

theorem length_entries_le {es : List (Except DecodeError (String × Found))}
    (h : InMapping es r r') : es.length ≤ Source.bound r := by
  cases h with
  | @first isEmpty cs x lx lx' stack hremain =>
    have hes : (Found.ofEntries cs x).length ≤ lx.rest.length + 1 := by
      cases isEmpty with
      | true =>
        obtain ⟨rfl, rfl, -⟩ := hremain
        exact Nat.zero_le _
      | false => exact length_ofEntries_le hremain
    show _ ≤ _ + lx.rest.length + 1
    omega
  | @next tail cs y x lx lx₁ lx' stack htail hrest =>
    have hes := length_ofEntries_le hrest
    have hfault := length_ofFault_le y
    have htail := htail.rest_length_lt
    show _ ≤ _ + lx.rest.length + 1
    rw [List.length_append]
    omega

/-- **The reader walks markup.** -/
instance walks : Walks Found Reader where
  At := At
  InObject := InObject
  InSequence := InSequence
  InMapping := InMapping
  isNull := isNull_run
  isNotNull := isNotNull_run
  scalar := scalar_follows
  skip := skip_run
  beginObject := beginObject_follows
  beginSequence := beginSequence_follows
  beginMapping := beginMapping_follows
  nextKey_nil := nextKey_nil
  nextKey_cons := nextKey_cons
  nextElement_nil := nextElement_nil
  nextElement_cons := nextElement_cons
  nextEntry_nil := nextEntry_nil
  nextEntry_cons := nextEntry_cons
  nextEntry_error := nextEntry_error
  length_parts := length_parts_le
  length_items := length_items_le
  length_entries := length_entries_le

/-- **A document is decoded as the tree of its root**, whose tag is taken apart first. -/
theorem decode_of_opens {s : PlanSet} {declared : Handle} {bytes : List UInt8} {el : Element}
    (h : Opens el (Lexer.ofSymbols (Symbol.decode bytes))) :
    (do decode s declared (← ofBytes bytes)) =
      (do Tree.root s declared (Found.child (← el.open))) := by
  obtain ⟨lx, hroot, hinside⟩ := h.root
  rw [ofBytes]
  rcases hopen : el.open with e | c
  · rw [hopen] at hroot
    obtain ⟨lx', hroot⟩ := hroot
    rw [hroot]
    rfl
  · rw [hopen] at hroot
    rw [show root _ = .ok c.head lx from hroot]
    obtain ⟨lx', hinside⟩ := hinside c hopen
    have hat : Walks.At (σ := Reader) (Found.child c) ⟨lx, .element c.head, []⟩
        ⟨lx', .vacant, []⟩ := ⟨rfl, rfl, rfl, hinside⟩
    exact Walks.decode_eq declared hat

end Reader

end Marshal.Markup
