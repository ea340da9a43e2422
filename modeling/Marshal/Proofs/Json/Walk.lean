import Marshal.Document
import Marshal.Proofs.Wire.Walk

/-!
# Walking JSON

The reader of a parsed document holds the tree itself, and walks it (`Reader.walks`). So decoding is
decoding the tree.
-/

namespace Marshal

namespace Json

instance : Tree Json where
  isNull
    | .null => true
    | _ => false
  scalar := Reader.tokenOf
  parts
    | .object members => .ok (members.map fun m => (m.1, .element, m.2))
    | j => .error (Reader.mismatch "object" j)
  text? j name _ :=
    match j with
    | .object members => .ok (Reader.firstText? name members)
    | _ => .ok none
  items _ j :=
    match j with
    | .array items => .ok items
    | j => .error (Reader.mismatch "array" j)
  entries
    | .object members => .ok (members.map .ok)
    | j => .error (Reader.mismatch "map" j)

/-- Only a text is read as one. -/
theorem eq_text_of_scalar {j : Json} {w : String} (h : Tree.scalar j = .ok (.text w)) :
    j = .text w := by
  cases j with
  | text v =>
    cases h
    rfl
  | integer n =>
    change (if Number.fits 64 n then _ else _ : Except DecodeError Token) = _ at h
    split at h <;> cases h
  | _ => cases h

namespace Reader

open Outcome

/-- What stands at the cursor, and the reader when it has passed it. -/
def At (j : Json) (r r' : Reader) : Prop := r.cursor = some j ∧ r' = ⟨none, r.stack⟩

/-- The members left of an object are these. -/
def InMembers {α : Type} (f : String × Json → α) (as : List α) (r r' : Reader) : Prop :=
  ∃ members stack, as = members.map f ∧ r = ⟨none, .object members :: stack⟩ ∧ r' = ⟨none, stack⟩

/-- The items left of an array are these. -/
def InItems (items : List Json) (r r' : Reader) : Prop :=
  ∃ stack, r = ⟨none, .array items :: stack⟩ ∧ r' = ⟨none, stack⟩

variable {α : Type} {f : String × Json → α} {j : Json} {r r' : Reader}

theorem take_run (h : At j r r') : take r = .ok j r' := by
  obtain ⟨cursor, stack⟩ := r
  obtain ⟨rfl, rfl⟩ := h
  rfl

theorem isNull_run (h : At j r r') (hn : Tree.isNull j = true) :
    (Source.isNull : Reading Reader Bool) r = .ok true r' := by
  obtain ⟨cursor, stack⟩ := r
  obtain ⟨rfl, rfl⟩ := h
  cases j with
  | null => rfl
  | _ => cases hn

theorem isNotNull_run (h : At j r r') (hn : Tree.isNull j = false) :
    (Source.isNull : Reading Reader Bool) r = .ok false r := by
  obtain ⟨cursor, stack⟩ := r
  obtain ⟨rfl, rfl⟩ := h
  cases j with
  | null => cases hn
  | _ => rfl

theorem scalar_follows (h : At j r r') :
    Follows (Source.scalar : Reading Reader Token) (Tree.scalar j) r r' :=
  .of_run (take_run h) (follows_lift (tokenOf j))

theorem nextMember_nil (h : InMembers f [] r r') : nextMember r = .ok none r' := by
  obtain ⟨members, stack, hm, rfl, rfl⟩ := h
  obtain rfl := List.map_eq_nil_iff.1 hm.symm
  rfl

theorem nextMember_cons {a : α} {as : List α} (h : InMembers f (a :: as) r r') :
    ∃ m r₁ r₂, a = f m ∧ nextMember r = .ok (some m.1) r₁ ∧ At m.2 r₁ r₂ ∧ InMembers f as r₂ r' := by
  obtain ⟨members, stack, hm, rfl, rfl⟩ := h
  rcases members with _ | ⟨m, members⟩
  · cases hm
  · obtain ⟨rfl, rfl⟩ := List.cons.inj hm
    exact ⟨m, _, _, rfl, rfl, ⟨rfl, rfl⟩, members, stack, rfl, rfl, rfl⟩

theorem length_members_le {as : List α} (h : InMembers f as r r') : as.length ≤ Source.bound r := by
  obtain ⟨members, stack, rfl, rfl, rfl⟩ := h
  rw [List.length_map]
  exact Nat.le_max_left _ _

/-- **The reader walks JSON.** -/
instance walks : Walks Json Reader where
  At := At
  InObject ps x r r' := x = .ok () ∧ InMembers (fun m => (m.1, .element, m.2)) ps r r'
  InSequence ts x r r' := x = .ok () ∧ InItems ts r r'
  InMapping := InMembers .ok
  isNull := isNull_run
  isNotNull := isNotNull_run
  scalar := scalar_follows
  skip := by
    rintro j ⟨cursor, stack⟩ r' ⟨rfl, rfl⟩
    rfl
  beginObject := by
    rintro j ⟨cursor, stack⟩ r' ⟨rfl, rfl⟩
    cases j with
    | object members =>
      refine ⟨⟨none, .object members :: stack⟩, rfl, fun ps hps => ?_⟩
      obtain rfl := Except.ok.inj hps
      exact ⟨⟨rfl, members, stack, rfl, rfl, rfl⟩, fun name placement => rfl⟩
    | _ => exact ⟨⟨none, stack⟩, ⟨_, rfl⟩, fun ps hps => by cases hps⟩
  beginSequence := by
    rintro j ⟨cursor, stack⟩ r' ⟨rfl, rfl⟩ name layout
    rw [show (Source.beginContainer (Decode.containerFor name layout) : Reading Reader Unit) =
      enterArray by cases layout <;> rfl]
    cases j with
    | array items =>
      refine ⟨⟨none, .array items :: stack⟩, rfl, fun ts hts => ?_⟩
      obtain rfl := Except.ok.inj hts
      exact ⟨rfl, stack, rfl, rfl⟩
    | _ => exact ⟨⟨none, stack⟩, ⟨_, rfl⟩, fun ts hts => by cases hts⟩
  beginMapping := by
    rintro j ⟨cursor, stack⟩ r' ⟨rfl, rfl⟩
    cases j with
    | object members =>
      refine ⟨⟨none, .object members :: stack⟩, rfl, fun es hes => ?_⟩
      obtain rfl := Except.ok.inj hes
      exact ⟨members, stack, rfl, rfl, rfl⟩
    | _ => exact ⟨⟨none, stack⟩, ⟨_, rfl⟩, fun es hes => by cases hes⟩
  nextKey_nil := by
    rintro x r r' ⟨rfl, h⟩
    exact (run_bind (nextMember_nil h)).trans rfl
  nextKey_cons := by
    rintro name placement t ps x r r' ⟨hx, h⟩
    obtain ⟨⟨k, j⟩, r₁, r₂, he, hrun, hat, hrest⟩ := nextMember_cons h
    cases he
    exact ⟨r₁, r₂, (run_bind hrun).trans rfl, hat, hx, hrest⟩
  nextElement_nil := by
    rintro x r r' ⟨rfl, stack, rfl, rfl⟩
    rfl
  nextElement_cons := by
    rintro t ts x r r' ⟨hx, stack, rfl, rfl⟩
    exact ⟨_, _, rfl, ⟨rfl, rfl⟩, hx, stack, rfl, rfl⟩
  nextEntry_nil := nextMember_nil
  nextEntry_cons := by
    rintro key t es r r' h
    obtain ⟨m, r₁, r₂, he, hrun, hat, hrest⟩ := nextMember_cons h
    cases he
    exact ⟨r₁, r₂, hrun, hat, hrest⟩
  nextEntry_error := by
    rintro e es r r' h
    obtain ⟨m, r₁, r₂, he, -⟩ := nextMember_cons h
    cases he
  length_parts h := length_members_le h.2
  length_items := by
    rintro ts x r r' ⟨-, stack, rfl, rfl⟩
    exact Nat.le_max_left _ _
  length_entries := length_members_le

/-- **A parsed document is decoded as its tree.** -/
theorem decode_ofTree {s : PlanSet} {declared : Handle} (j : Json) :
    decode s declared (ofTree j) = Tree.root s declared j := by
  have hat : Walks.At (σ := Reader) j (ofTree j) ⟨none, []⟩ := ⟨rfl, rfl⟩
  exact Walks.decode_eq declared hat

end Reader

end Json

/-- **A JSON document is read as its tree.** -/
theorem Document.root_of_read_json {s : PlanSet} {declared : Handle} {bytes : List UInt8}
    {i : Instance} (hf : s.format = .json) (hr : read .json s declared bytes = .ok i) :
    ∃ j, Json.ofBytes? bytes = some j ∧ Tree.root s declared j = .ok i := by
  rw [read, if_pos hf] at hr
  obtain ⟨r, hopen, hr⟩ := Outcome.bind_eq_ok_iff.1 hr
  rw [Json.Reader.ofBytes] at hopen
  split at hopen
  · rename_i j hj
    obtain rfl := Except.ok.inj hopen
    exact ⟨j, hj, (Json.Reader.decode_ofTree j).symm.trans hr⟩
  · cases hopen

end Marshal
