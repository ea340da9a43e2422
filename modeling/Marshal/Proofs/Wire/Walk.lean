import Marshal.Proofs.Outcome
import Marshal.Proofs.Wire.Tree

/-!
# Walking trees

`Walks` relates the states of a source to trees: what stands at the cursor, and what is left of the
structures that have been entered. A source that keeps to its laws decodes a tree as `Tree.value` and
`Tree.object` do, errors included (`Walks.value_follows`, `Walks.object_follows`). Each loop of the
decoder is one induction over what is left.
-/

namespace Marshal

open Decode Outcome

/-- A reading at a state has an outcome: it returns the result and ends in the second state, or it
fails with the error. -/
def Follows {σ α : Type} (m : Reading σ α) (x : Except DecodeError α) (r r' : σ) : Prop :=
  match x with
  | .ok a => m r = .ok a r'
  | .error e => ∃ r'', m r = .error e r''

section Follows

variable {σ α β : Type} {m : Reading σ α} {x : Except DecodeError α} {r r' r'' : σ}

theorem follows_pure (a : α) : Follows (pure a) (pure a) r r := rfl

theorem follows_throw (e : DecodeError) : Follows (throw e : Reading σ α) (throw e) r r' := ⟨r, rfl⟩

theorem follows_lift (x : Except DecodeError α) : Follows (Reading.lift x) x r r := by
  cases x with
  | ok a => rfl
  | error e => exact ⟨r, rfl⟩

/-- A reading goes on from where its first step ends. -/
theorem Follows.bind {f : α → Reading σ β} {g : α → Except DecodeError β} (h : Follows m x r r')
    (hf : ∀ a, x = .ok a → Follows (f a) (g a) r' r'') : Follows (m >>= f) (x >>= g) r r'' := by
  cases x with
  | ok a =>
    have hfa := hf a rfl
    show Follows (m >>= f) (g a) r r''
    cases hg : g a with
    | ok b =>
      rw [hg] at hfa
      exact (run_bind h).trans hfa
    | error e =>
      rw [hg] at hfa
      obtain ⟨s, hs⟩ := hfa
      exact ⟨s, (run_bind h).trans hs⟩
  | error e =>
    obtain ⟨s, hs⟩ := h
    refine ⟨s, ?_⟩
    simp only [bind, EStateM.bind, hs]

theorem Follows.map (h : Follows m x r r') (g : α → β) :
    Follows (do let a ← m; pure (g a)) (x.map g) r r' := by
  cases x with
  | ok a => exact run_bind h
  | error e =>
    obtain ⟨s, hs⟩ := h
    exact ⟨s, by simp only [Bind.bind, EStateM.bind, hs]⟩

/-- What a reading returns is its outcome. -/
theorem Follows.eq_ok (h : Follows m x r r') {a : α} (hrun : m r = .ok a r'') : x = .ok a := by
  cases x with
  | ok b =>
    cases hrun.symm.trans h
    rfl
  | error e =>
    obtain ⟨s, hs⟩ := h
    cases hrun.symm.trans hs

/-- A step that succeeds can be taken first. -/
theorem Follows.of_run {f : α → Reading σ β} {a : α} {y : Except DecodeError β}
    (h : m r = .ok a r') (hf : Follows (f a) y r' r'') : Follows (m >>= f) y r r'' := by
  cases y with
  | ok b => exact (run_bind h).trans hf
  | error e =>
    obtain ⟨s, hs⟩ := hf
    exact ⟨s, (run_bind h).trans hs⟩

/-- What fails at its first step fails. -/
theorem Follows.of_error {f : α → Reading σ β} {e : DecodeError} (h : ∃ s, m r = .error e s) :
    Follows (m >>= f) (.error e) r r'' :=
  h.imp fun _ hs => run_bind_error hs

end Follows

/-- **A source that walks trees.** The relations say where a state stands, and in which state it will
be when it has passed the tree, or left the structure, that it stands in. -/
class Walks (τ σ : Type) [Tree τ] [Source σ] where
  /-- The tree is at the cursor. -/
  At : τ → σ → σ → Prop
  /-- These parts are left of the innermost structure, an object, and what is found behind them. -/
  InObject : List (String × Placement × τ) → Except DecodeError Unit → σ → σ → Prop
  /-- These items are left of the innermost structure, a sequence, and what is found behind them. -/
  InSequence : List τ → Except DecodeError Unit → σ → σ → Prop
  /-- These entries are left of the innermost structure, a mapping. -/
  InMapping : List (Except DecodeError (String × τ)) → σ → σ → Prop
  isNull : ∀ {t r r'}, At t r r' → Tree.isNull t = true → Source.isNull r = .ok true r'
  isNotNull : ∀ {t r r'}, At t r r' → Tree.isNull t = false → Source.isNull r = .ok false r
  scalar : ∀ {t r r'}, At t r r' → Follows Source.scalar (Tree.scalar t) r r'
  skip : ∀ {t r r'}, At t r r' → Source.skip r = .ok () r'
  beginObject : ∀ {t r r'}, At t r r' → ∃ r₁,
    Follows Source.beginObject ((Tree.parts t).map fun _ => ()) r r₁ ∧
      ∀ ps, Tree.parts t = .ok ps → InObject ps (Tree.partsEnd t) r₁ r' ∧
        ∀ name placement, Follows (Source.peekField name placement) (Tree.text? t name placement) r₁ r₁
  beginSequence : ∀ {t r r'}, At t r r' → ∀ name layout, ∃ r₁,
    Follows (Source.beginContainer (containerFor name layout))
        ((Tree.items layout t).map fun _ => ()) r r₁ ∧
      ∀ ts, Tree.items layout t = .ok ts → InSequence ts (Tree.itemsEnd layout t) r₁ r'
  beginMapping : ∀ {t r r'}, At t r r' → ∃ r₁,
    Follows (Source.beginContainer .mapping) ((Tree.entries t).map fun _ => ()) r r₁ ∧
      ∀ es, Tree.entries t = .ok es → InMapping es r₁ r'
  nextKey_nil : ∀ {x r r'}, InObject [] x r r' →
    Follows Source.nextKey (x.map fun _ => none) r r'
  nextKey_cons : ∀ {name placement t ps x r r'}, InObject ((name, placement, t) :: ps) x r r' →
    ∃ r₁ r₂, Source.nextKey r = .ok (some (name, placement)) r₁ ∧ At t r₁ r₂ ∧ InObject ps x r₂ r'
  nextElement_nil : ∀ {x r r'}, InSequence [] x r r' →
    Follows Source.nextElement (x.map fun _ => false) r r'
  nextElement_cons : ∀ {t ts x r r'}, InSequence (t :: ts) x r r' → ∃ r₁ r₂,
    Source.nextElement r = .ok true r₁ ∧ At t r₁ r₂ ∧ InSequence ts x r₂ r'
  nextEntry_nil : ∀ {r r'}, InMapping [] r r' → Source.nextEntry r = .ok none r'
  nextEntry_cons : ∀ {key t es r r'}, InMapping (.ok (key, t) :: es) r r' → ∃ r₁ r₂,
    Source.nextEntry r = .ok (some key) r₁ ∧ At t r₁ r₂ ∧ InMapping es r₂ r'
  nextEntry_error : ∀ {e es r r'}, InMapping (.error e :: es) r r' →
    ∃ r₁, Source.nextEntry r = .error e r₁
  length_parts : ∀ {ps x r r'}, InObject ps x r r' → ps.length ≤ Source.bound r
  length_items : ∀ {ts x r r'}, InSequence ts x r r' → ts.length ≤ Source.bound r
  length_entries : ∀ {es r r'}, InMapping es r r' → es.length ≤ Source.bound r

namespace Walks

variable {τ σ : Type} [Tree τ] [Source σ] [Walks τ σ] {s : PlanSet}

/-- A reader that decodes what stands at its cursor. -/
def Decodes (m : Reading σ Value) (g : τ → Except DecodeError Value) : Prop :=
  ∀ t r r', At t r r' → Follows m (g t) r r'

/-- A reader that decodes along every shape. -/
def InnerDecodes (inner : Decode.Inner σ) (g : Tree.Inner τ) : Prop :=
  ∀ shape allowed name, Decodes (inner shape allowed name) (g shape allowed name)

/-! ## Loops -/

theorem items_follows {m : Reading σ Value} {g : τ → Except DecodeError Value} (h : Decodes m g)
    {ts : List τ} {x : Except DecodeError Unit} {fuel : Nat} {r r' : σ} (hr : InSequence ts x r r')
    (hf : ts.length < fuel) :
    Follows (Decode.items m fuel) (do
      let vs ← ts.mapM g
      x
      return vs) r r' := by
  induction ts generalizing fuel r with
  | nil =>
    obtain ⟨fuel, rfl⟩ := Nat.exists_eq_succ_of_ne_zero (Nat.ne_of_gt hf)
    rw [Decode.items]
    have hnext := nextElement_nil hr
    cases x with
    | ok u => exact .of_run hnext rfl
    | error e => exact .of_error hnext
  | cons t ts ih =>
    obtain ⟨fuel, rfl⟩ := Nat.exists_eq_succ_of_ne_zero (Nat.ne_of_gt (Nat.zero_lt_of_lt hf))
    obtain ⟨r₁, r₂, hnext, hat, hrest⟩ := nextElement_cons hr
    rw [Decode.items, List.mapM_cons]
    refine .of_run hnext ?_
    rw [if_pos rfl]
    simp only [bind_assoc, pure_bind]
    refine (h t r₁ r₂ hat).bind fun v _ => ?_
    have hmore := (ih hrest (Nat.lt_of_succ_lt_succ hf)).bind fun vs _ => follows_pure (v :: vs)
    simpa only [bind_assoc, pure_bind] using hmore

theorem entries_follows {m : String → Reading σ Value} {g : String → τ → Except DecodeError Value}
    (h : ∀ key, Decodes (m key) (g key)) {es : List (Except DecodeError (String × τ))} {fuel : Nat}
    {r r' : σ} (hr : InMapping es r r') (hf : es.length < fuel) (table : List (String × Value)) :
    Follows (Decode.entries m fuel table) (es.foldlM (Tree.entry g) table) r r' := by
  induction es generalizing fuel r table with
  | nil =>
    obtain ⟨fuel, rfl⟩ := Nat.exists_eq_succ_of_ne_zero (Nat.ne_of_gt hf)
    rw [Decode.entries]
    exact .of_run (nextEntry_nil hr) rfl
  | cons e es ih =>
    obtain ⟨fuel, rfl⟩ := Nat.exists_eq_succ_of_ne_zero (Nat.ne_of_gt (Nat.zero_lt_of_lt hf))
    rw [Decode.entries, List.foldlM_cons]
    rcases e with e | ⟨key, t⟩
    · exact .of_error (nextEntry_error hr)
    · obtain ⟨r₁, r₂, hnext, hat, hrest⟩ := nextEntry_cons hr
      refine .of_run hnext ?_
      dsimp only
      show Follows _ ((do
        let v ← g key t
        pure (Table.insert table key v)) >>= fun table => es.foldlM (Tree.entry g) table) r₁ r'
      rw [bind_assoc]
      refine (h key t r₁ r₂ hat).bind fun v _ => ?_
      rw [pure_bind]
      exact ih hrest (Nat.lt_of_succ_lt_succ hf) _

theorem field_follows {inner : Decode.Inner σ} {g : Tree.Inner τ} (h : InnerDecodes inner g)
    (plan : TypePlan) (scan : Scan) {name : String} {placement : Placement} {t : τ} {r r' : σ}
    (hat : At t r r') :
    Follows (Decode.field inner plan scan name placement)
      (Tree.field g plan scan (name, placement, t)) r r' := by
  rw [Decode.field, Tree.field]
  dsimp only
  rcases boundAction plan name placement with _ | a
  · rcases plan.read.carrier with _ | c
    · exact .of_run (skip hat) rfl
    · exact (h c.value c.nullable name t r r' hat).bind fun v _ => follows_pure _
  · exact (h a.shape a.nullable name t r r' hat).bind fun v _ => follows_pure _

theorem fields_follows {inner : Decode.Inner σ} {g : Tree.Inner τ} (h : InnerDecodes inner g)
    (plan : TypePlan) {ps : List (String × Placement × τ)} {x : Except DecodeError Unit} {fuel : Nat}
    {r r' : σ} (hr : InObject ps x r r') (hf : ps.length < fuel) (scan : Scan) :
    Follows (Decode.fields inner plan fuel scan) (do
      let scan ← ps.foldlM (Tree.field g plan) scan
      x
      return scan) r r' := by
  induction ps generalizing fuel r scan with
  | nil =>
    obtain ⟨fuel, rfl⟩ := Nat.exists_eq_succ_of_ne_zero (Nat.ne_of_gt hf)
    rw [Decode.fields]
    have hnext := nextKey_nil hr
    cases x with
    | ok u => exact .of_run hnext rfl
    | error e => exact .of_error hnext
  | cons p ps ih =>
    obtain ⟨name, placement, t⟩ := p
    obtain ⟨fuel, rfl⟩ := Nat.exists_eq_succ_of_ne_zero (Nat.ne_of_gt (Nat.zero_lt_of_lt hf))
    obtain ⟨r₁, r₂, hnext, hat, hrest⟩ := nextKey_cons hr
    rw [Decode.fields, List.foldlM_cons, bind_assoc]
    refine .of_run hnext ?_
    exact (field_follows h plan scan hat).bind fun scan _ =>
      ih hrest (Nat.lt_of_succ_lt_succ hf) scan

/-! ## Objects -/

omit [Walks τ σ] in
theorem concretePlan_follows (declared : TypePlan) {t : τ} {r : σ}
    (h : ∀ name placement, Follows (Source.peekField name placement) (Tree.text? t name placement) r r) :
    Follows (Decode.concretePlan s declared) (Tree.concretePlan s declared t) r r := by
  rw [Decode.concretePlan, Tree.concretePlan]
  rcases declared.read.discriminator with _ | d
  · exact follows_pure _
  · refine (h d.wire d.placement).bind fun word _ => ?_
    rcases word with _ | word
    · exact follows_pure _
    · dsimp only
      rcases Table.find? d.variants word with _ | k
      · exact follows_throw _
      · exact follows_lift _

/-- **An object is decoded** from the tree at the cursor. -/
theorem object_follows {inner : Decode.Inner σ} {g : Tree.Inner τ} (h : InnerDecodes inner g)
    (declared : Handle) {t : τ} {r r' : σ} (hat : At t r r') :
    Follows (Decode.object s inner declared) (Tree.object s g declared t) r r' := by
  rw [Decode.object, Tree.object]
  refine (follows_lift _).bind fun declaredPlan _ => ?_
  obtain ⟨r₁, hbegin, hparts⟩ := beginObject hat
  rcases hps : Tree.parts t with e | ps
  · rw [hps] at hbegin
    exact .of_error hbegin
  · rw [hps] at hbegin
    obtain ⟨hin, hpeek⟩ := hparts ps hps
    refine .of_run hbegin ?_
    refine (concretePlan_follows declaredPlan hpeek).bind fun plan _ => ?_
    refine .of_run (rfl : (get : Reading σ σ) r₁ = .ok r₁ r₁) ?_
    have hscan := (fields_follows h plan hin (Nat.lt_succ_of_le (length_parts hin)) ⟨[], []⟩).bind
      fun scan _ => follows_lift (scan.make plan)
    simpa only [bind_assoc, pure_bind] using hscan

/-! ## Values -/

theorem enumeration_follows (h : Handle) (name : String) :
    Decodes (Decode.enumeration s h name : Reading σ Value) (Tree.enumeration (τ := τ) s h name) := by
  intro t r r' hat
  rw [Decode.enumeration, Tree.enumeration]
  rcases s.enum? h with _ | p
  · exact follows_throw _
  · exact (scalar hat).bind fun token _ => follows_lift _

theorem shaped_follows {inner : Option (Decode.Inner σ)} {g : Option (Tree.Inner τ)}
    (h : Option.Rel InnerDecodes inner g) (shape : Shape) (name : String) :
    Decodes (Decode.shaped s inner shape name) (Tree.shaped s g shape name) := by
  intro t r r' hat
  rw [Decode.shaped.eq_def, Tree.shaped.eq_def]
  cases shape with
  | primitive kind => exact (scalar hat).bind fun token _ => follows_lift _
  | enumeration k => exact enumeration_follows k name t r r' hat
  | object k =>
    rcases h with h | _
    · exact (object_follows h k hat).bind fun i _ => follows_pure _
    · exact follows_throw _
  | sequence element n layout =>
    rcases h with h | _
    · obtain ⟨r₁, hbegin, hitems⟩ := beginSequence hat name layout
      dsimp only
      rcases hts : Tree.items layout t with e | ts
      · rw [hts] at hbegin
        exact .of_error hbegin
      · rw [hts] at hbegin
        have hin := hitems ts hts
        refine .of_run hbegin (.of_run (rfl : (get : Reading σ σ) r₁ = .ok r₁ r₁) ?_)
        have hvalues := (items_follows (h element n name) hin
          (Nat.lt_succ_of_le (length_items hin))).bind fun vs _ => follows_pure (Value.list vs)
        simp only [bind_assoc, pure_bind] at hvalues
        exact hvalues
    · exact follows_throw _
  | mapping element n =>
    rcases h with h | _
    · obtain ⟨r₁, hbegin, hentries⟩ := beginMapping hat
      dsimp only
      rcases hes : Tree.entries t with e | es
      · rw [hes] at hbegin
        exact .of_error hbegin
      · rw [hes] at hbegin
        have hin := hentries es hes
        refine .of_run hbegin (.of_run (rfl : (get : Reading σ σ) r₁ = .ok r₁ r₁) ?_)
        exact (entries_follows (h element n) hin (Nat.lt_succ_of_le (length_entries hin)) []).bind
          fun vs _ => follows_pure _
    · exact follows_throw _

theorem nullable_follows {inner : Option (Decode.Inner σ)} {g : Option (Tree.Inner τ)}
    (h : Option.Rel InnerDecodes inner g) :
    InnerDecodes (Decode.nullable s inner) (Tree.nullable s g) := by
  intro shape allowed name t r r' hat
  rw [Decode.nullable, Tree.nullable]
  cases hn : Tree.isNull t with
  | true =>
    refine .of_run (isNull hat hn) ?_
    cases allowed with
    | true => exact rfl
    | false => exact follows_throw _
  | false =>
    refine .of_run (isNotNull hat hn) ?_
    exact shaped_follows h shape name t r r' hat

/-- **A value is decoded** from the tree at the cursor. -/
theorem value_follows (room : Nat) :
    InnerDecodes (Decode.value s room : Decode.Inner σ) (Tree.value (τ := τ) s room) := by
  induction room with
  | zero => exact nullable_follows .none
  | succ room ih => exact nullable_follows (.some ih)

/-- **A document is decoded** from its tree. -/
theorem decode_eq (declared : Handle) {t : τ} {r r' : σ} (hat : At t r r') :
    decode s declared r = Tree.root s declared t := by
  have h := object_follows (s := s) (value_follows (τ := τ) (σ := σ) (s := s) (depthLimit - 1))
    declared hat
  rw [decode, Decode.root, Tree.root]
  cases ht : Tree.object s (Tree.value s (depthLimit - 1)) declared t with
  | ok i =>
    rw [ht] at h
    rw [show Decode.object s (Decode.value s (depthLimit - 1)) declared r = .ok i r' from h]
  | error e =>
    rw [ht] at h
    obtain ⟨r'', h⟩ := h
    rw [h]

end Walks

end Marshal
