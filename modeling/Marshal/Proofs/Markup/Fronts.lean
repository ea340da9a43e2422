import Marshal.Proofs.Markup.Elements

/-!
# What is read off the front

The lexer looks no further than it goes. What it takes off the front of a document for an event ends
with the mark that ends the construct, so it would take the same stretch whatever was left behind it
(`Lexer.exists_front_of_next`); only a text goes on as far as it can. An element is taken off the
front with its end tag (`Lexer.Covers.exists_front`), and what is in front of the root is a stretch of
its own (`Lexer.Opens.exists_parts`). Nothing behind the root has a part in any of this.
-/

namespace Marshal.Markup

open Text

variable {α : Type} {piece rest : Piece}

/-! ## Stretches that end with a bracket -/

/-- What is in front of `rest` ends with a `>`, and it would have been cut off whatever was left. What
is cut off may depend on what is left. -/
def CutsFront (cut : Piece → Option α) (piece : Piece) (found : Piece → α) (rest : Piece) : Prop :=
  ∃ front, piece = front ++ .char '>' :: rest ∧
    ∀ rest', cut (front ++ .char '>' :: rest') = some (found rest')

/-- What is cut off behind the first symbols of a piece is cut off with these. -/
theorem CutsFront.drop {cut : Piece → Option α} {found : Piece → α} {n : Nat}
    (h : CutsFront cut (piece.drop n) found rest) (hn : n ≤ piece.length) :
    CutsFront (fun piece => cut (piece.drop n)) piece found rest := by
  obtain ⟨front, hpiece, hfront⟩ := h
  refine ⟨piece.take n ++ front, ?_, fun rest' => ?_⟩
  · rw [List.append_assoc, ← hpiece, List.take_append_drop]
  · dsimp only
    rw [List.append_assoc, List.drop_left' (List.length_take_of_le hn)]
    exact hfront rest'

theorem length_le_of_begins {text : String} (h : begins text piece = true) :
    text.toList.length ≤ piece.length := by
  have := (List.isPrefixOf_iff_prefix.1 h).length_le
  rwa [Symbol.ofText, List.length_map] at this

/-- A mark in which no bracket is followed by anything ends in front of the first bracket or with it,
so that what is behind the bracket has no part in whether it is there. -/
theorem isPrefixOf_front {mark : List Char} (h : '>' ∉ mark.dropLast) (front rest rest' : Piece) :
    (mark.map Symbol.char).isPrefixOf (front ++ .char '>' :: rest) =
      (mark.map Symbol.char).isPrefixOf (front ++ .char '>' :: rest') := by
  induction mark generalizing front with
  | nil => rfl
  | cons c mark ih =>
    cases mark with
    | nil => cases front <;> rfl
    | cons d mark =>
      rw [List.dropLast_cons_cons, List.mem_cons, not_or] at h
      cases front with
      | nil =>
        have hc : (Symbol.char c == .char '>') = false := by simpa using Ne.symm h.1
        rw [List.map_cons, List.nil_append, List.nil_append, List.isPrefixOf, List.isPrefixOf, hc,
          Bool.false_and, Bool.false_and]
      | cons s front =>
        rw [List.map_cons, List.cons_append, List.cons_append, List.isPrefixOf, List.isPrefixOf,
          ih h.2]

theorem begins_front {text : String} (h : '>' ∉ text.toList.dropLast) (front rest rest' : Piece) :
    begins text (front ++ .char '>' :: rest) = begins text (front ++ .char '>' :: rest') :=
  isPrefixOf_front h front rest rest'

/-- **The inside of a tag** stands in front of its bracket. -/
theorem cutTag?_spec {q : Option Char} {a : Piece} (h : cutTag? q piece = some (a, rest)) :
    piece = a ++ .char '>' :: rest ∧
      ∀ rest', cutTag? q (a ++ .char '>' :: rest') = some (a, rest') := by
  induction piece generalizing q a with
  | nil => simp [cutTag?] at h
  | cons s piece ih =>
    have hmore : ∀ q', (cutTag? q' piece).map (fun p => (s :: p.1, p.2)) = some (a, rest) →
        (∀ piece, cutTag? q (s :: piece) = (cutTag? q' piece).map fun p => (s :: p.1, p.2)) →
        s :: piece = a ++ .char '>' :: rest ∧
          ∀ rest', cutTag? q (a ++ .char '>' :: rest') = some (a, rest') := by
      intro q' hp hstep
      obtain ⟨⟨b, rest'⟩, hcut, he⟩ := Option.map_eq_some_iff.1 hp
      cases he
      obtain ⟨hpiece, hcut⟩ := ih hcut
      exact ⟨by rw [hpiece, List.cons_append], fun rest' => by
        rw [List.cons_append, hstep, hcut, Option.map_some]⟩
    cases q with
    | none =>
      rw [cutTag?] at h
      split at h
      · rename_i hs
        cases h
        exact ⟨by rw [hs, List.nil_append], fun rest' => by
          rw [List.nil_append, cutTag?, if_pos rfl]⟩
      · rename_i hs
        exact hmore _ h fun piece => by rw [cutTag?, if_neg hs]
    | some c =>
      rw [cutTag?] at h
      exact hmore _ h fun piece => by rw [cutTag?]

theorem cutsFront_cutTag? {q : Option Char} {a : Piece} (h : cutTag? q piece = some (a, rest)) :
    CutsFront (cutTag? q) piece (fun rest' => (a, rest')) rest :=
  ⟨a, (cutTag?_spec h).1, (cutTag?_spec h).2⟩

/-- **What is in front of a mark** that ends with a bracket, the mark included. -/
theorem cutsFront_cutAt? {mark : List Char} (hm : '>' ∉ mark) {a : Piece}
    (h : cutAt? (mark ++ ['>']) piece = some (a, rest)) :
    CutsFront (cutAt? (mark ++ ['>'])) piece (fun rest' => (a, rest')) rest := by
  have hmark : ∀ rest', ((mark ++ ['>']).map Symbol.char) ++ rest' =
      mark.map Symbol.char ++ .char '>' :: rest' := by simp
  have hlength : ∀ rest' : Piece,
      (((mark ++ ['>']).map Symbol.char) ++ rest').drop (mark ++ ['>']).length = rest' :=
    fun rest' => List.drop_left' (List.length_map _)
  induction piece generalizing a with
  | nil => simp [cutAt?] at h
  | cons s piece ih =>
    rw [cutAt?] at h
    split at h
    · rename_i hbegins
      obtain ⟨rest', hsplit⟩ := List.isPrefixOf_iff_prefix.1 hbegins
      rw [← hsplit, hlength] at h
      cases h
      refine ⟨mark.map Symbol.char, hsplit.symm.trans (hmark _), fun rest' => ?_⟩
      have hbegins : ((mark ++ ['>']).map Symbol.char).isPrefixOf
          (((mark ++ ['>']).map Symbol.char) ++ rest') = true :=
        List.isPrefixOf_iff_prefix.2 (List.prefix_append _ _)
      have hdrop := hlength rest'
      rw [hmark] at hbegins hdrop
      rcases hcons : mark.map Symbol.char ++ .char '>' :: rest' with _ | ⟨t, ts⟩
      · simp at hcons
      · rw [hcons] at hbegins hdrop
        rw [cutAt?, if_pos hbegins, hdrop]
    · rename_i hnot
      obtain ⟨⟨b, rest₁⟩, hcut, he⟩ := Option.map_eq_some_iff.1 h
      cases he
      obtain ⟨front, rfl, hfront⟩ := ih hcut
      refine ⟨s :: front, rfl, fun rest' => ?_⟩
      have hdrop : '>' ∉ (mark ++ ['>']).dropLast := by rwa [List.dropLast_concat]
      have hnot' : ¬ ((mark ++ ['>']).map Symbol.char).isPrefixOf
          (s :: (front ++ .char '>' :: rest')) = true :=
        fun h => hnot ((isPrefixOf_front hdrop (s :: front) rest₁ rest').trans h)
      rw [List.cons_append, cutAt?, if_neg hnot', hfront, Option.map_some]

/-! ## Document type declarations -/

theorem cutsFront_past? {mark : String} (cs : List Char) (hmark : mark.toList = cs ++ ['>'])
    (hcs : '>' ∉ cs) (h : past? mark piece = some rest) :
    CutsFront (past? mark) piece id rest := by
  have hpast : ∀ piece, past? mark piece = (cutAt? (cs ++ ['>']) piece).map Prod.snd := by
    intro piece
    rw [past?, hmark]
  rw [hpast] at h
  obtain ⟨⟨a, rest'⟩, hcut, rfl⟩ := Option.map_eq_some_iff.1 h
  obtain ⟨front, hpiece, hfront⟩ := cutsFront_cutAt? hcs hcut
  exact ⟨front, hpiece, fun rest' => by rw [hpast, hfront, Option.map_some, id]⟩

/-- **A construct of an internal subset** is passed with its bracket. -/
theorem cutsFront_passDeclaration? (h : passDeclaration? piece = some rest) :
    CutsFront passDeclaration? piece id rest := by
  have hquoting : ∀ front rest rest', (quotingDeclarations.any fun word =>
      begins word (front ++ .char '>' :: rest)) =
        quotingDeclarations.any fun word => begins word (front ++ .char '>' :: rest') := by
    intro front rest rest'
    simp only [quotingDeclarations, List.any_cons, List.any_nil,
      begins_front (show '>' ∉ "!ATTLIST".toList.dropLast by decide) front rest rest',
      begins_front (show '>' ∉ "!ENTITY".toList.dropLast by decide) front rest rest',
      begins_front (show '>' ∉ "!NOTATION".toList.dropLast by decide) front rest rest']
  have hsame : ∀ {pass : Piece → Option Piece}, CutsFront pass piece id rest →
      (∀ front rest', piece = front ++ .char '>' :: rest →
        passDeclaration? (front ++ .char '>' :: rest') = pass (front ++ .char '>' :: rest')) →
      CutsFront passDeclaration? piece id rest := by
    rintro pass ⟨front, hpiece, hfront⟩ hpass
    exact ⟨front, hpiece, fun rest' => (hpass front rest' hpiece).trans (hfront rest')⟩
  unfold passDeclaration? at h
  split at h
  case isTrue hcomment =>
    refine hsame ((cutsFront_past? ['-', '-'] rfl (by decide) h).drop
      (length_le_of_begins hcomment)) ?_
    rintro front rest' rfl
    rw [begins_front (by decide) front rest rest'] at hcomment
    rw [passDeclaration?, if_pos hcomment]
  case isFalse hcomment =>
    split at h
    case isTrue hinstruction =>
      refine hsame ((cutsFront_past? ['?'] rfl (by decide) h).drop
        (length_le_of_begins hinstruction)) ?_
      rintro front rest' rfl
      rw [begins_front (by decide) front rest rest'] at hcomment hinstruction
      rw [passDeclaration?, if_neg hcomment, if_pos hinstruction]
    case isFalse hinstruction =>
      split at h
      case isTrue hquote =>
        obtain ⟨⟨a, rest'⟩, hcut, rfl⟩ := Option.map_eq_some_iff.1 h
        obtain ⟨front, rfl, hfront⟩ := cutsFront_cutTag? hcut
        refine ⟨front, rfl, fun rest₁ => ?_⟩
        rw [begins_front (by decide) front rest' rest₁] at hcomment hinstruction
        rw [hquoting front rest' rest₁] at hquote
        rw [passDeclaration?, if_neg hcomment, if_neg hinstruction, if_pos hquote, hfront,
          Option.map_some, id]
      case isFalse hquote =>
        refine hsame (cutsFront_past? [] rfl (by decide) h) ?_
        rintro front rest' rfl
        rw [begins_front (by decide) front rest rest'] at hcomment hinstruction
        rw [hquoting front rest rest'] at hquote
        rw [passDeclaration?, if_neg hcomment, if_neg hinstruction, if_neg hquote]

theorem passSubset?_of_passDeclaration? (h : passDeclaration? piece = some rest) :
    passSubset? (.char '<' :: piece) = passSubset? rest := by
  rw [passSubset?, if_neg (by decide), if_pos rfl]
  split
  · rename_i hpass
    obtain rfl := Option.some.inj (h.symm.trans hpass)
    rfl
  · simp_all

/-- **An internal subset** is passed with the bracket of the declaration around it. -/
theorem cutsFront_passSubset? (h : passSubset? piece = some rest) :
    CutsFront passSubset? piece id rest := by
  fun_induction passSubset? piece with
  | case1 => cases h
  | case2 piece =>
    obtain ⟨front, rfl, hfront⟩ := cutsFront_past? [] rfl (by decide) h
    exact ⟨.char ']' :: front, rfl, fun rest' => by
      rw [List.cons_append, passSubset?, if_pos rfl, hfront]⟩
  | case3 piece rest₁ hpass _ _ ih =>
    obtain ⟨front, rfl, hfront⟩ := cutsFront_passDeclaration? hpass
    obtain ⟨front₁, rfl, hfront₁⟩ := ih h
    refine ⟨.char '<' :: (front ++ .char '>' :: front₁), by simp, fun rest' => ?_⟩
    rw [List.cons_append, List.append_assoc, List.cons_append,
      passSubset?_of_passDeclaration? (hfront _), id, hfront₁]
  | case4 => cases h
  | case5 s piece hclose hopen ih =>
    obtain ⟨front, rfl, hfront⟩ := ih h
    exact ⟨s :: front, rfl, fun rest' => by
      rw [List.cons_append, passSubset?, if_neg hclose, if_neg hopen, hfront]⟩

/-- **A document type declaration** is passed with its bracket. -/
theorem cutsFront_passDoctype? {q : Option Char} (h : passDoctype? q piece = some rest) :
    CutsFront (passDoctype? q) piece id rest := by
  fun_induction passDoctype? q piece with
  | case1 => cases h
  | case2 piece =>
    obtain rfl := Option.some.inj h
    exact ⟨[], rfl, fun rest' => by rw [List.nil_append, passDoctype?, if_pos rfl, id]⟩
  | case3 piece =>
    obtain ⟨front, rfl, hfront⟩ := cutsFront_passSubset? h
    exact ⟨.char '[' :: front, rfl, fun rest' => by
      rw [List.cons_append, passDoctype?, if_neg (by decide), if_pos rfl, hfront]⟩
  | case4 s piece hend hsubset ih =>
    obtain ⟨front, rfl, hfront⟩ := ih h
    exact ⟨s :: front, rfl, fun rest' => by
      rw [List.cons_append, passDoctype?, if_neg hend, if_neg hsubset, hfront]⟩
  | case5 q s piece ih =>
    obtain ⟨front, rfl, hfront⟩ := ih h
    exact ⟨s :: front, rfl, fun rest' => by rw [List.cons_append, passDoctype?, hfront]⟩

/-! ## Events -/

/-- Where an event can end: a text goes on up to a bracket, a reference or the end of the document. -/
def Event.Ends : Event → Piece → Prop
  | .text _, rest => ∀ s ∈ rest.head?, (isChar '<' s || isChar '&' s) = true
  | _, _ => True

/-- What an event does to the names of the open elements. -/
def Event.Moves : Event → List Piece → List Piece → Prop
  | .start tag, opened, opened' => opened' = tagName tag :: opened
  | .close, opened, opened' => ∃ name, opened = name :: opened'
  | _, opened, opened' => opened' = opened

namespace Event

variable {e : Event} {s : Symbol}

theorem ne_finish_of_inert (h : e.Inert) : e ≠ .finish := by
  rintro rfl
  exact h

theorem opened_eq_of_inert (h : e.Inert) {opened opened' : List Piece}
    (hmoves : e.Moves opened opened') : opened' = opened := by
  cases e <;> first | exact hmoves | cases h

/-- The first symbol of what is left decides whether a text can end there. -/
theorem ends_cons {rest' : Piece} (h : e.Ends (s :: rest)) : e.Ends (s :: rest') := by
  cases e <;> exact h

theorem ends_left {a b : Piece} (h : e.Ends (a ++ b)) : e.Ends a := by
  cases a with
  | nil => cases e <;> first | trivial | exact nofun
  | cons s a => exact ends_cons h

theorem ends_bracket (e : Event) (rest : Piece) : e.Ends (.char '<' :: rest) := by
  cases e <;> first | trivial | (rintro s hs; cases hs; rfl)

end Event

namespace Lexer

variable {lx lx' : Lexer} {e : Event} {after : Piece}

/-- A construct has been found in what is in front of the rest, which ends with a `>`, and it would
have been found whatever was left. -/
structure Finds (found : Lexer → Piece → Lexed Event) (lx : Lexer) (after : Piece) (e : Event)
    (lx' : Lexer) : Prop where
  moves : e.Moves lx.opened lx'.opened
  ends : ∀ rest, e.Ends rest
  front : ∃ front, after = front ++ .char '>' :: lx'.rest ∧ ∀ r rest',
    found ⟨r, lx.opened⟩ (front ++ .char '>' :: rest') = .ok e ⟨rest', lx'.opened⟩

theorem upTo_eq_ok_iff {cut : Option (Piece × Piece)} {f : Piece → Event} :
    upTo lx cut f = .ok e lx' ↔
      ∃ inside, cut = some (inside, lx'.rest) ∧ f inside = e ∧ lx'.opened = lx.opened := by
  obtain ⟨rest, opened⟩ := lx'
  unfold upTo
  rcases cut with _ | ⟨inside, rest'⟩
  · simp [fatal]
  · simp only [EStateM.Result.ok.injEq, mk.injEq, Option.some.injEq, Prod.mk.injEq]
    constructor
    · rintro ⟨rfl, rfl, rfl⟩
      exact ⟨inside, ⟨rfl, rfl⟩, rfl, rfl⟩
    · rintro ⟨_, ⟨rfl, rfl⟩, rfl, rfl⟩
      exact ⟨rfl, rfl, rfl⟩

/-- **A construct between an opening and a mark** is found where the only bracket in these is the last
symbol of the mark. -/
theorem finds_enclosed {opening mark : String} (cs : List Char) {f : Piece → Event}
    (hopening : '>' ∉ opening.toList) (hmark : mark.toList = cs ++ ['>']) (hcs : '>' ∉ cs)
    (hmoves : ∀ inside opened, (f inside).Moves opened opened)
    (hends : ∀ inside rest, (f inside).Ends rest) (h : enclosed opening mark f lx after = .ok e lx') :
    Finds (enclosed opening mark f) lx after e lx' := by
  unfold enclosed at h
  split at h
  · rename_i hbegins
    rw [hmark] at h
    obtain ⟨inside, hcut, rfl, hopened⟩ := upTo_eq_ok_iff.1 h
    obtain ⟨front, rfl, hfront⟩ := (cutsFront_cutAt? hcs hcut).drop (length_le_of_begins hbegins)
    refine ⟨hopened ▸ hmoves inside _, hends inside, front, rfl, fun r rest' => ?_⟩
    rw [begins_front (mt (List.dropLast_subset _ ·) hopening) front _ rest'] at hbegins
    rw [enclosed, if_pos hbegins, hmark]
    exact upTo_eq_ok_iff.2 ⟨inside, hfront rest', rfl, hopened⟩
  · cases h

theorem finds_comment (h : comment lx after = .ok e lx') : Finds comment lx after e lx' :=
  finds_enclosed ['-', '-'] (by decide) rfl (by decide) (fun _ _ => rfl)
    (fun _ _ => trivial) h

theorem finds_literalSection (h : literalSection lx after = .ok e lx') :
    Finds literalSection lx after e lx' :=
  finds_enclosed [']', ']'] (by decide) rfl (by decide) (fun _ _ => rfl)
    (fun _ _ => trivial) h

theorem finds_instruction (h : instruction lx after = .ok e lx') :
    Finds instruction lx after e lx' := by
  unfold instruction at h
  split at h
  · cases h
  · rename_i hbegins
    obtain ⟨inside, hcut, rfl, hopened⟩ := upTo_eq_ok_iff.1 h
    obtain ⟨front, rfl, hfront⟩ := cutsFront_cutAt? (show '>' ∉ ['?'] by decide) hcut
    refine ⟨hopened, fun _ => trivial, front, rfl, fun r rest' => ?_⟩
    rw [begins_front (by decide) front _ rest'] at hbegins
    rw [instruction, if_neg hbegins]
    exact upTo_eq_ok_iff.2 ⟨inside, hfront rest', rfl, hopened⟩

/-- The word of a document type declaration stands in front of its bracket. -/
theorem length_of_beginsDoctype {front rest : Piece}
    (h : beginsDoctype (front ++ .char '>' :: rest) = true) : 7 ≤ front.length := by
  by_contra hlt
  obtain ⟨k, hk⟩ : ∃ k, 7 - front.length = k + 1 := Nat.exists_eq_succ_of_ne_zero (by omega)
  have hword := beq_iff_eq.1 h
  rw [List.take_append, hk, List.take_succ_cons, List.map_append, List.map_cons] at hword
  have hmem : '>' ∈ "doctype".toList := by
    rw [← hword]
    exact List.mem_append_right _ List.mem_cons_self
  revert hmem
  decide

theorem isNameless_front {front : Piece} (h : 7 ≤ front.length) (rest rest' : Piece) :
    isNameless (front ++ .char '>' :: rest) = isNameless (front ++ .char '>' :: rest') := by
  have hblank : ∀ front : Piece, ∃ kept, ∀ rest : Piece,
      (front ++ .char '>' :: rest).dropWhile isSpace = kept ++ .char '>' :: rest := by
    intro front
    induction front with
    | nil => exact ⟨[], fun rest => rfl⟩
    | cons s front ih =>
      cases hs : isSpace s with
      | true =>
        obtain ⟨kept, hkept⟩ := ih
        exact ⟨kept, fun rest => by rw [List.cons_append, List.dropWhile_cons_of_pos hs, hkept]⟩
      | false =>
        exact ⟨s :: front, fun rest => by
          rw [List.cons_append, List.dropWhile_cons_of_neg (by simp [hs])]⟩
  obtain ⟨kept, hkept⟩ := hblank (front.drop 7)
  rw [isNameless, isNameless, List.drop_append_of_le_length h, List.drop_append_of_le_length h,
    hkept, hkept, begins_front (by decide)]

theorem finds_doctype (h : doctype lx after = .ok e lx') : Finds doctype lx after e lx' := by
  unfold doctype at h
  split at h
  · rename_i hword
    split at h
    · rename_i rest hpass
      split at h
      · cases h
      · rename_i hname
        cases h
        obtain ⟨front, rfl, hfront⟩ := cutsFront_passDoctype? hpass
        have hlength := length_of_beginsDoctype hword
        refine ⟨rfl, fun _ => trivial, front, rfl, fun r rest' => ?_⟩
        have hword' : beginsDoctype (front ++ .char '>' :: rest') = true := by
          rw [beginsDoctype, List.take_append_of_le_length hlength] at hword ⊢
          exact hword
        rw [isNameless_front hlength rest rest'] at hname
        rw [doctype, if_pos hword', hfront]
        exact if_neg hname
    · cases h
  · cases h

theorem finds_declaration (h : declaration lx after = .ok e lx') :
    Finds declaration lx after e lx' := by
  have hsame : ∀ {found : Lexer → Piece → Lexed Event}, Finds found lx after e lx' →
      (∀ front rest' ly, after = front ++ .char '>' :: lx'.rest →
        declaration ly (front ++ .char '>' :: rest') = found ly (front ++ .char '>' :: rest')) →
      Finds declaration lx after e lx' := by
    rintro found ⟨hmoves, hends, front, hafter, hfront⟩ hfound
    exact ⟨hmoves, hends, front, hafter, fun r rest' =>
      (hfound front rest' _ hafter).trans (hfront r rest')⟩
  unfold declaration at h
  split at h
  · refine hsame (finds_comment h) ?_
    rintro (_ | ⟨s, front⟩) rest' ly hafter <;> cases hafter
    rfl
  · refine hsame (finds_literalSection h) ?_
    rintro (_ | ⟨s, front⟩) rest' ly hafter <;> cases hafter
    rfl
  · rename_i hcomment hliteral
    refine hsame (finds_doctype h) ?_
    rintro (_ | ⟨s, front⟩) rest' ly rfl
    · rfl
    · unfold declaration
      split
      · rename_i heq
        cases heq
        exact absurd rfl (hcomment _)
      · rename_i heq
        cases heq
        exact absurd rfl (hliteral _)
      · rfl

theorem endTag_eq_ok {inside rest : Piece} (h : endTag lx inside rest = .ok e lx') :
    e = .close ∧ lx'.rest = rest ∧ (∃ name, lx.opened = name :: lx'.opened) ∧
      ∀ r rest', endTag ⟨r, lx.opened⟩ inside rest' = .ok .close ⟨rest', lx'.opened⟩ := by
  unfold endTag at h
  split at h
  · rename_i name opened hopened
    split at h
    · rename_i hname
      cases h
      refine ⟨rfl, rfl, ⟨name, hopened⟩, fun r rest' => ?_⟩
      rw [endTag, hopened]
      exact if_pos hname
    · cases h
  · cases h

theorem startTag_eq_ok {inside rest : Piece} (h : startTag lx inside rest = .ok e lx') :
    lx'.rest = rest ∧ e.Moves lx.opened lx'.opened ∧ (∀ rest, e.Ends rest) ∧
      ∀ r rest', startTag ⟨r, lx.opened⟩ inside rest' = .ok e ⟨rest', lx'.opened⟩ := by
  unfold startTag at h
  split at h
  · rename_i hslash
    cases h
    exact ⟨rfl, rfl, fun _ => trivial, fun r rest' => if_pos hslash⟩
  · rename_i hslash
    cases h
    exact ⟨rfl, rfl, fun _ => trivial, fun r rest' => if_neg hslash⟩

/-- **A construct in brackets** is found in what is up to its closing bracket. -/
theorem finds_markup (h : markup lx after = .ok e lx') : Finds markup lx after e lx' := by
  unfold markup at h
  split at h
  · obtain ⟨hmoves, hends, front, rfl, hfront⟩ := finds_declaration h
    exact ⟨hmoves, hends, .char '!' :: front, rfl, hfront⟩
  · obtain ⟨hmoves, hends, front, rfl, hfront⟩ := finds_instruction h
    exact ⟨hmoves, hends, .char '?' :: front, rfl, hfront⟩
  · split at h
    · rename_i inside rest hcut
      obtain ⟨rfl, rfl, hname, htag⟩ := endTag_eq_ok h
      obtain ⟨rfl, hfront⟩ := cutTag?_spec hcut
      refine ⟨hname, fun _ => trivial, .char '/' :: inside, rfl, fun r rest' => ?_⟩
      rw [List.cons_append, markup, hfront]
      exact htag r rest'
    · cases h
  · rename_i hdeclaration hinstruction hend
    split at h
    · rename_i inside rest hcut
      obtain ⟨rfl, hmoves, hends, htag⟩ := startTag_eq_ok h
      obtain ⟨rfl, hfront⟩ := cutTag?_spec hcut
      refine ⟨hmoves, hends, inside, rfl, fun r rest' => ?_⟩
      -- it does not begin like the others, whatever stands behind the tag
      have hhead : ∀ c, c ≠ '>' → (∀ a, inside ++ .char '>' :: lx'.rest = .char c :: a → False) →
          ∀ a, inside ++ .char '>' :: rest' = .char c :: a → False := by
        intro c hc hne a heq
        rcases inside with _ | ⟨s, inside⟩
        · exact hc (Symbol.char.inj (List.cons.inj heq).1).symm
        · obtain rfl := (List.cons.inj heq).1
          exact hne _ rfl
      rw [markup.eq_4 _ _ (hhead '!' (by decide) hdeclaration) (hhead '?' (by decide) hinstruction)
        (hhead '/' (by decide) hend), hfront]
      exact htag r rest'
    · cases h

/-! ## The next event -/

/-- A piece is split where the symbols of a kind end. -/
theorem exists_takeWhile (p : Symbol → Bool) (piece : Piece) : ∃ body rest,
    piece = body ++ rest ∧ piece.takeWhile p = body ∧ (∀ s ∈ rest.head?, p s = false) ∧
      ∀ rest', (∀ s ∈ rest'.head?, p s = false) → (body ++ rest').takeWhile p = body := by
  have hnone : ∀ rest : Piece, (∀ s ∈ rest.head?, p s = false) → rest.takeWhile p = [] := by
    rintro (_ | ⟨s, rest⟩) hrest
    · rfl
    · exact List.takeWhile_cons_of_neg (by simp [hrest s rfl])
  induction piece with
  | nil => exact ⟨[], [], rfl, rfl, by simp, hnone⟩
  | cons s piece ih =>
    cases hs : p s with
    | true =>
      obtain ⟨body, rest, hpiece, htake, hrest, hbody⟩ := ih
      refine ⟨s :: body, rest, by rw [hpiece, List.cons_append], ?_, hrest, fun rest' hrest' => ?_⟩
      · rw [List.takeWhile_cons_of_pos hs, htake]
      · rw [List.cons_append, List.takeWhile_cons_of_pos hs, hbody rest' hrest']
    | false =>
      have hrest : ∀ t ∈ (s :: piece).head?, p t = false := by
        rintro t ht
        cases ht
        exact hs
      exact ⟨[], s :: piece, rfl, hnone _ hrest, hrest, hnone⟩

/-- A reference ends with its mark. -/
theorem ampersand_eq_ok (h : ampersand lx after = .ok e lx') :
    ∃ body, e = .reference body ∧ lx'.opened = lx.opened ∧ after = body ++ .char ';' :: lx'.rest ∧
      ∀ r rest', ampersand ⟨r, lx.opened⟩ (body ++ .char ';' :: rest') =
        .ok e ⟨rest', lx'.opened⟩ := by
  obtain ⟨body, rest, rfl, htake, -, hbody⟩ := exists_takeWhile
    (fun s => !(isChar ';' s || isChar '&' s || isChar '<' s)) after
  unfold ampersand at h
  dsimp only at h
  rw [htake, List.drop_left] at h
  split at h
  · cases h
    refine ⟨body, rfl, rfl, rfl, fun r rest' => ?_⟩
    unfold ampersand
    rw [hbody _ (by rintro s hs; cases hs; decide)]
    dsimp only
    rw [List.drop_left]
    rfl
  · cases h

/-- **The next event** has been found in what is in front of the rest, and it would have been found
there whatever was left, if only a text could end there. -/
theorem exists_front_of_next (h : next lx = .ok e lx') (he : e ≠ .finish) :
    e.Moves lx.opened lx'.opened ∧ e.Ends lx'.rest ∧ ∃ s front,
      lx.rest = s :: (front ++ lx'.rest) ∧ (e.Inert ∨ s = .char '<') ∧
        ∀ rest', e.Ends rest' →
          next ⟨s :: (front ++ rest'), lx.opened⟩ = .ok e ⟨rest', lx'.opened⟩ := by
  unfold next at h
  split at h
  · cases h
    exact absurd rfl he
  · rename_i s after hrest
    rw [hrest]
    split at h
    · rename_i hopen
      obtain ⟨hmoves, hends, front, rfl, hfront⟩ := finds_markup h
      refine ⟨hmoves, hends _, s, front ++ [.char '>'], by simp, .inr hopen, fun rest' _ => ?_⟩
      rw [List.append_assoc, List.singleton_append, next]
      exact (if_pos hopen).trans (hfront _ _)
    · rename_i hopen
      split at h
      · rename_i hamp
        obtain ⟨body, rfl, hopened, rfl, hbody⟩ := ampersand_eq_ok h
        refine ⟨hopened, trivial, s, body ++ [.char ';'], by simp, .inl trivial, fun rest' _ => ?_⟩
        rw [List.append_assoc, List.singleton_append, next]
        exact (if_neg hopen).trans ((if_pos hamp).trans (hbody _ _))
      · rename_i hamp
        cases h
        obtain ⟨more, rest, rfl, htake, hrest, hmore⟩ := exists_takeWhile
          (fun s => !(isChar '<' s || isChar '&' s)) after
        have hends : ∀ {rest : Piece}, (∀ s ∈ rest.head?, (isChar '<' s || isChar '&' s) = true) →
            ∀ s ∈ rest.head?, (!(isChar '<' s || isChar '&' s)) = false :=
          fun hrest s hs => by rw [hrest s hs, Bool.not_true]
        rw [htake, List.drop_left]
        refine ⟨rfl, fun t ht => (Bool.not_eq_false' _).mp (hrest t ht), s, more, rfl, .inl trivial,
          fun rest' hrest' => ?_⟩
        rw [next]
        dsimp only
        rw [if_neg hopen, if_neg hamp, hmore rest' (hends hrest'), List.drop_left]

/-! ## Elements -/

/-- **What stands between two tags**, the end tag included, is what it is whatever is left, and the
element is the innermost one. -/
theorem Holds.exists_front {items : List (Item Element)} (h : Holds items lx lx') :
    (∃ name, lx.opened = name :: lx'.opened) ∧ ∃ s front, lx.rest = s :: (front ++ lx'.rest) ∧
      ∀ rest', Holds items ⟨s :: (front ++ rest'), lx.opened⟩ ⟨rest', lx'.opened⟩ := by
  induction h with
  | close hnext =>
    obtain ⟨hmoves, -, s, front, hrest, -, hfront⟩ := exists_front_of_next hnext (by simp)
    exact ⟨hmoves, s, front, hrest, fun rest' => .close (hfront rest' trivial)⟩
  | @event e items lx lx₁ lx' hnext he _ ih =>
    obtain ⟨hopened, t, front₁, hrest₁, hitems⟩ := ih
    obtain ⟨hmoves, hends, s, front, hrest, -, hfront⟩ :=
      exists_front_of_next hnext (Event.ne_finish_of_inert he)
    have hsame := Event.opened_eq_of_inert he hmoves
    rw [hrest₁] at hrest hends
    refine ⟨hsame ▸ hopened, s, front ++ t :: front₁, by simpa using hrest, fun rest' => ?_⟩
    have hnext' := hfront (t :: (front₁ ++ rest')) (Event.ends_cons hends)
    rw [List.append_assoc, List.cons_append]
    exact .event hnext' he (hitems rest')
  | @start tag inner items lx lx₁ lx₂ lx' hnext _ _ ihInner ih =>
    obtain ⟨hmoves, -, s, front, hrest, -, hfront⟩ := exists_front_of_next hnext (by simp)
    obtain ⟨⟨name, hname⟩, t, front₁, hrest₁, hinner⟩ := ihInner
    obtain ⟨hopened, u, front₂, hrest₂, hitems⟩ := ih
    have hsame : lx₂.opened = lx.opened := (List.cons.inj (hmoves.symm.trans hname)).2.symm
    rw [hrest₁, hrest₂] at hrest
    refine ⟨hsame ▸ hopened, s, front ++ t :: (front₁ ++ u :: front₂), by simpa using hrest,
      fun rest' => ?_⟩
    simp only [List.append_assoc, List.cons_append]
    exact .start (hfront _ trivial) (hinner _) (hitems rest')
  | @empty tag items lx lx₁ lx' hnext _ ih =>
    obtain ⟨hmoves, -, s, front, hrest, -, hfront⟩ := exists_front_of_next hnext (by simp)
    obtain ⟨hopened, t, front₁, hrest₁, hitems⟩ := ih
    have hsame : lx₁.opened = lx.opened := hmoves
    rw [hrest₁] at hrest
    refine ⟨hsame ▸ hopened, s, front ++ t :: front₁, by simpa using hrest, fun rest' => ?_⟩
    rw [List.append_assoc, List.cons_append]
    exact .empty (hfront _ trivial) (hitems rest')

/-- The element is in front of the lexer, which will be at the second state behind it. -/
inductive Covers : Element → Lexer → Lexer → Prop where
  | start {tag : Piece} {items : List (Item Element)} {lx lx₁ lx' : Lexer} :
    next lx = .ok (.start tag) lx₁ → Holds items lx₁ lx' → Covers ⟨tag, false, items⟩ lx lx'
  | empty {tag : Piece} {lx lx' : Lexer} :
    next lx = .ok (.empty tag) lx' → Covers ⟨tag, true, []⟩ lx lx'

/-- **An element** begins with a bracket, and is what it is whatever is left behind it. What was open
in front of it is open behind it. -/
theorem Covers.exists_front {el : Element} (h : Covers el lx lx') :
    lx'.opened = lx.opened ∧ ∃ front, lx.rest = .char '<' :: (front ++ lx'.rest) ∧
      ∀ rest', Covers el ⟨.char '<' :: (front ++ rest'), lx.opened⟩ ⟨rest', lx.opened⟩ := by
  cases h with
  | start hnext hitems =>
    obtain ⟨hmoves, -, s, front, hrest, hs, hfront⟩ := exists_front_of_next hnext (by simp)
    obtain ⟨⟨name, hname⟩, t, front₁, hrest₁, hitems⟩ := hitems.exists_front
    obtain rfl := hs.resolve_left id
    have hsame : lx'.opened = lx.opened := (List.cons.inj (hmoves.symm.trans hname)).2.symm
    rw [hrest₁] at hrest
    refine ⟨hsame, front ++ t :: front₁, by simpa using hrest, fun rest' => ?_⟩
    rw [List.append_assoc, List.cons_append]
    exact .start (hfront _ trivial) (hsame ▸ hitems rest')
  | empty hnext =>
    obtain ⟨hmoves, -, s, front, hrest, hs, hfront⟩ := exists_front_of_next hnext (by simp)
    obtain rfl := hs.resolve_left id
    have hsame : lx'.opened = lx.opened := hmoves
    exact ⟨hsame, front, hrest, fun rest' => .empty (hsame ▸ hfront rest' trivial)⟩

theorem Covers.opens {el : Element} (h : Covers el lx lx') : Opens el lx := by
  cases h with
  | start hnext hitems => exact .start hnext hitems
  | empty hnext => exact .empty hnext

/-! ## What is in front of the root -/

/-- Up to the end the lexer finds events that open and close nothing. -/
inductive Flat : Lexer → Prop where
  | nil {opened : List Piece} : Flat ⟨[], opened⟩
  | event {e : Event} {lx lx₁ : Lexer} : next lx = .ok e lx₁ → e.Inert → Flat lx₁ → Flat lx

/-- **The root opens a document** behind anything that opens and closes nothing, and in front of
anything at all. -/
theorem Covers.opens_behind {el : Element} {root : Piece}
    (h : Covers el ⟨root, []⟩ ⟨[], []⟩) (hflat : Flat lx) (ho : lx.opened = []) (after : Piece) :
    Opens el ⟨lx.rest ++ (root ++ after), []⟩ := by
  obtain ⟨-, front, hroot, hcovers⟩ := h.exists_front
  rw [List.append_nil] at hroot
  dsimp only at hroot hcovers
  induction hflat with
  | nil =>
    have := (hcovers after).opens
    rwa [hroot]
  | @event e lx lx₁ hnext he _ ih =>
    obtain ⟨hmoves, hends, s, front₁, hrest, -, hfront⟩ :=
      exists_front_of_next hnext (Event.ne_finish_of_inert he)
    have hopened := (Event.opened_eq_of_inert he hmoves).trans ho
    rw [ho, hopened] at hfront
    rw [hrest, List.cons_append, List.append_assoc]
    refine .event (hfront _ ?_) he (ih hopened)
    rcases hrest₁ : lx₁.rest with _ | ⟨t, rest₁⟩
    · rw [List.nil_append, hroot]
      exact e.ends_bracket _
    · rw [hrest₁] at hends
      exact Event.ends_cons hends

theorem Covers.exists_parts {el : Element} (h : Covers el lx lx') (ho : lx.opened = []) :
    ∃ root, lx.rest = root ++ lx'.rest ∧ Covers el ⟨root, []⟩ ⟨[], []⟩ := by
  obtain ⟨-, front, hrest, hfront⟩ := h.exists_front
  refine ⟨.char '<' :: front, hrest, ?_⟩
  have := hfront []
  rwa [List.append_nil, ho] at this

/-- **A document is in three parts**: what opens and closes nothing, the root, and what is left. -/
theorem Opens.exists_parts {el : Element} (h : Opens el lx) (ho : lx.opened = []) :
    ∃ before root after, lx.rest = before ++ (root ++ after) ∧ Flat ⟨before, []⟩ ∧
      Covers el ⟨root, []⟩ ⟨[], []⟩ := by
  induction h with
  | event hnext he _ ih =>
    obtain ⟨hmoves, hends, s, front, hrest, -, hfront⟩ :=
      exists_front_of_next hnext (Event.ne_finish_of_inert he)
    have hopened := (Event.opened_eq_of_inert he hmoves).trans ho
    obtain ⟨before, root, after, hparts, hflat, hroot⟩ := ih hopened
    rw [hparts] at hrest hends
    refine ⟨s :: (front ++ before), root, after, by simpa using hrest, ?_, hroot⟩
    have hnext' := hfront before (Event.ends_left hends)
    rw [ho, hopened] at hnext'
    exact .event hnext' he hflat
  | start hnext hitems =>
    obtain ⟨root, hrest, hroot⟩ := (Covers.start hnext hitems).exists_parts ho
    exact ⟨[], root, _, hrest, .nil, hroot⟩
  | empty hnext =>
    obtain ⟨root, hrest, hroot⟩ := (Covers.empty hnext).exists_parts ho
    exact ⟨[], root, _, hrest, .nil, hroot⟩

end Lexer

end Marshal.Markup
