import Marshal.Proofs.Markup.Consumption
import Marshal.Proofs.Markup.Wholeness

/-!
# Texts that stand under one name

An element can have several children of one name, and several attributes that differ in their
prefixes only. `wordsIn` gives the texts of all of them, in order. A look ahead of the scan finds the
first of them (`Reader.peekField_of_wordsIn`). The scan comes to all, and what it holds in the end is
the last (`Decode.Scanned.words`).
-/

namespace Marshal

namespace Markup

open Lexer

/-- The texts of the children with a name, from here to the end of the current element. -/
def Lexer.childTexts (name : String) (lx : Lexer) : Lexed (List String) :=
  match h : child lx with
  | .error e lx' => .error e lx'
  | .ok none lx' => .ok [] lx'
  | .ok (some head) lx' =>
    if head.name = name then
      match ht : headText head lx' with
      | .ok s lx'' =>
        have := Nat.lt_of_le_of_lt (length_headText_le ht) (length_child_lt h)
        match childTexts name lx'' with
        | .ok more lx''' => .ok (s :: more) lx'''
        | .error e lx''' => .error e lx'''
      | .error e lx'' => .error e lx''
    else
      match hs : skipHead head lx' with
      | .ok () lx'' =>
        have := Nat.lt_of_le_of_lt (length_skipHead_le hs) (length_child_lt h)
        childTexts name lx''
      | .error e lx'' => .error e lx''
termination_by lx.rest.length

/-- The texts that stand under a name in an element whose head has been passed, where the placement
says: in attributes or in children. -/
def wordsIn (name : String) (placement : Placement) (attributes : List (String × String))
    (isEmpty : Bool) (lx : Lexer) : Except DecodeError (List String) :=
  match placement with
  | .attribute => .ok ((attributes.filter fun a => a.1 = name).map Prod.snd)
  | .element =>
    if isEmpty then .ok []
    else
      match childTexts name lx with
      | .ok words _ => .ok words
      | .error e _ => .error e

namespace Lexer

variable {lx lx₁ lx₂ lx' : Lexer} {head : Head} {name : String} {words : List String}

theorem childTexts_of_none (h : child lx = .ok none lx₁) :
    childTexts name lx = .ok [] lx₁ := by
  rw [childTexts]
  grind

theorem childTexts_of_name {s : String} (h : child lx = .ok (some head) lx₁)
    (hn : head.name = name) (hs : headText head lx₁ = .ok s lx₂)
    (hmore : childTexts name lx₂ = .ok words lx') :
    childTexts name lx = .ok (s :: words) lx' := by
  rw [childTexts]
  grind

theorem childTexts_of_ne (h : child lx = .ok (some head) lx₁) (hn : head.name ≠ name)
    (hs : skipHead head lx₁ = .ok () lx₂) : childTexts name lx = childTexts name lx₂ := by
  rw [childTexts]
  grind

/-- **The first of the texts** is what a look at the children finds. -/
theorem childText?_of_childTexts (h : childTexts name lx = .ok words lx') :
    ∃ lx₁, childText? name lx = .ok words.head? lx₁ := by
  fun_induction childTexts name lx
  case case2 hchild =>
    cases h
    exact ⟨_, childText?_of_none hchild⟩
  case case3 hchild hn _ _ htext _ _ _ _ _ =>
    cases h
    rw [childText?_of_name hchild hn, htext]
    exact ⟨_, rfl⟩
  case case6 hchild hn _ hskip _ ih =>
    rw [childText?_of_ne hchild hn hskip]
    exact ih h
  all_goals cases h

end Lexer

namespace Reader

variable {lx : Lexer} {cursor : Cursor} {stack : List OpenPart} {name : String}
  {placement : Placement} {as : List (String × String)} {isEmpty : Bool} {words : List String}

/-- **A look ahead** finds the first of the texts. -/
theorem peekField_of_wordsIn (h : wordsIn name placement as isEmpty lx = .ok words) :
    peekField name placement ⟨lx, cursor, .object as isEmpty :: stack⟩ =
      .ok words.head? ⟨lx, cursor, .object as isEmpty :: stack⟩ := by
  rcases placement with _ | _
  · cases isEmpty with
    | true =>
      cases h
      rfl
    | false =>
      simp only [wordsIn, Bool.false_eq_true, if_false] at h
      split at h <;> cases h
      rename_i htexts
      obtain ⟨lx₁, hfirst⟩ := childText?_of_childTexts htexts
      rw [peekField, Outcome.run_bind (get_run _)]
      simp only [Bool.false_eq_true, if_false, hfirst]
      rfl
  · cases h
    rw [peekField, Outcome.run_bind (get_run _), List.head?_map, List.head?_filter]
    rfl

end Reader

end Markup

/-! ## Scans -/

namespace Decode

open Markup Markup.Reader Markup.Lexer Outcome

variable {s : PlanSet} {inner : Inner Reader} {plan : TypePlan} {scan scan' : Scan} {r r' : Reader}
  {lx lx' : Lexer} {stack : List OpenPart} {isEmpty : Bool} {as : List (String × String)}
  {name property : String} {placement : Placement}

/-- A reader of values that reads a text as it stands. -/
def ReadsTexts (inner : Inner Reader) : Prop :=
  ∀ {allowed name r v r'}, r.cursor ≠ .null →
    inner (.primitive .string) allowed name r = .ok v r' →
      ∃ text, v = .text text ∧ scalar r = .ok (.text text) r'

theorem nullable_readsTexts {inner : Option (Inner Reader)} : ReadsTexts (nullable s inner) := by
  intro allowed name r v r' hcursor h
  obtain ⟨isNull, r₁, hnull, hrun⟩ := run_bind_eq_ok_iff.1 h
  obtain ⟨-, hn, -⟩ | ⟨rfl, -, rfl⟩ := isNull_eq_ok hnull
  · exact absurd hn hcursor
  obtain ⟨token, r₂, hscalar, hrun⟩ := run_bind_eq_ok_iff.1 hrun
  obtain ⟨text, rfl, -⟩ := scalar_eq_ok hscalar
  cases hrun
  exact ⟨text, rfl, hscalar⟩

theorem value_readsTexts (s : PlanSet) (room : Nat) : ReadsTexts (value s room : Inner Reader) := by
  cases room <;> exact nullable_readsTexts

/-- A plan reads a property from one place, as a text. -/
structure ReadsFrom (plan : TypePlan) (property name : String) (placement : Placement) : Prop where
  bound : ∃ a, boundAction plan name placement = some a ∧ a.property = property ∧
    a.shape = .primitive .string
  only : ∀ {key place a}, boundAction plan key place = some a → a.property = property →
    key = name ∧ place = placement

theorem find?_assign_self (scan : Scan) (a : Action) (text : String) :
    Table.find? (scan.assign a (.text text)).fields a.property = some (.text text) := by
  unfold Scan.assign
  dsimp only
  split <;> simp_all [Table.find?_insert_self]

/-- A field in another place leaves the property as it is. -/
theorem ReadsFrom.find?_of_ne (hb : ReadsFrom plan property name placement) {key : String}
    {place : Placement} (hne : ¬ (key = name ∧ place = placement))
    (h : field inner plan scan key place r = .ok scan' r') :
    Table.find? scan'.fields property = Table.find? scan.fields property := by
  obtain ⟨a, v, ha, -, rfl⟩ | ⟨-, _, _, -, -, rfl⟩ | ⟨-, -, rfl⟩ := field_eq_ok h
  · exact scan.find?_assign_of_ne (fun he => hne (hb.only ha he.symm)) v
  · rfl
  · rfl

/-- A field in the place of the property is stored in it. -/
theorem ReadsFrom.exists_of_field (hb : ReadsFrom plan property name placement)
    (h : field inner plan scan name placement r = .ok scan' r') :
    ∃ allowed v, inner (.primitive .string) allowed name r = .ok v r' ∧
      ∀ text, v = .text text → Table.find? scan'.fields property = some (.text text) := by
  obtain ⟨a, ha, rfl, hshape⟩ := hb.bound
  rw [field, ha] at h
  obtain ⟨v, r₁, hv, h⟩ := run_bind_eq_ok_iff.1 h
  cases h
  rw [hshape] at hv
  refine ⟨a.nullable, v, hv, ?_⟩
  rintro text rfl
  exact find?_assign_self scan a text

/-- The last text of some, or what was held before. -/
def lastOr (words : List String) (before : Option Value) : Option Value :=
  (words.getLast?.map Value.text).or before

theorem lastOr_cons (text : String) (words : List String) (before : Option Value) :
    lastOr (text :: words) before = lastOr words (some (.text text)) := by
  rw [lastOr, lastOr, List.getLast?_cons]
  cases words.getLast? <;> rfl

/-- **What a scan holds of a text in the end** is the last one of its place. -/
theorem Scanned.words (hi : ReadsTexts inner) (hb : ReadsFrom plan property name placement)
    (h : Scanned inner plan stack as isEmpty lx scan lx' scan') :
    ∃ words, wordsIn name placement as isEmpty lx = .ok words ∧
      Table.find? scan'.fields property = lastOr words (Table.find? scan.fields property) := by
  induction h with
  | empty =>
    refine ⟨[], ?_, rfl⟩
    cases placement <;> rfl
  | closed hchild =>
    refine ⟨[], ?_, rfl⟩
    cases placement with
    | element => simp [wordsIn, childTexts_of_none hchild]
    | «attribute» => rfl
  | @plain a as isEmpty lx lx' scan scan₁ scan' hfield _ ih =>
    obtain ⟨words, hwords, hlast⟩ := ih
    by_cases hplace : a.1 = name ∧ Placement.attribute = placement
    · obtain ⟨rfl, rfl⟩ := hplace
      obtain ⟨allowed, v, hv, hstored⟩ := hb.exists_of_field hfield
      obtain ⟨text, rfl, hscalar⟩ := hi (by simp) hv
      cases hscalar
      refine ⟨a.2 :: words, ?_, by rw [lastOr_cons, hlast, hstored _ rfl]⟩
      obtain rfl := Except.ok.inj hwords
      rw [wordsIn, List.filter_cons_of_pos (by simp)]
      rfl
    · refine ⟨words, ?_, by rw [hlast, hb.find?_of_ne hplace hfield]⟩
      rw [← hwords]
      cases placement with
      | element => rfl
      | «attribute» =>
        rw [wordsIn, List.filter_cons_of_neg (by simpa using fun he => hplace ⟨he, rfl⟩), wordsIn]
  | @child head lx lx₁ lx₂ lx' scan scan₁ scan' hchild hskip hfield _ ih =>
    obtain ⟨words, hwords, hlast⟩ := ih
    by_cases hplace : head.name = name ∧ Placement.element = placement
    · obtain ⟨rfl, rfl⟩ := hplace
      obtain ⟨allowed, v, hv, hstored⟩ := hb.exists_of_field hfield
      obtain ⟨text, rfl, hscalar⟩ := hi (by simp) hv
      obtain ⟨_, ht, ⟨he, -⟩ | ⟨_, _, he, htext, hr⟩⟩ := scalar_eq_ok hscalar <;> cases he
      cases ht
      cases hr
      refine ⟨text :: words, ?_, by rw [lastOr_cons, hlast, hstored _ rfl]⟩
      simp only [wordsIn, Bool.false_eq_true, if_false] at hwords ⊢
      split at hwords <;> cases hwords
      rename_i hmore
      rw [childTexts_of_name hchild rfl htext hmore]
    · refine ⟨words, ?_, by rw [hlast, hb.find?_of_ne hplace hfield]⟩
      rw [← hwords]
      cases placement with
      | element =>
        simp only [wordsIn, Bool.false_eq_true, if_false]
        rw [childTexts_of_ne hchild (fun he => hplace ⟨he, rfl⟩) hskip]
      | «attribute» => rfl

end Decode

end Marshal
