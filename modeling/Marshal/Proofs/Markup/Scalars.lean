import Marshal.Proofs.Markup.Survival
import Marshal.Proofs.Number.Reading
import Marshal.Proofs.Wire.Scalars

/-!
# Scalars in markup

`Presents` relates the draft of a value to the node that is read for it. A scalar is read from its
text, whether that is the value of an attribute or stands in an element, so every scalar that is
written is read as something, and as itself unless it is a word that stands for a member
(`ComesBack.primitive`, `ComesBack.enumeration`).
-/

namespace Marshal

open Catalogue

/-! ## Tokens -/

/-- **What is written of a primitive value** is read from the text of its token as the value. -/
theorem Token.toValue_spelling {kind : Primitive} {v : Value} {t : Token}
    (ht : ofValue kind v "" = .ok t) (hv : ∀ x, v = .timestamp x → x.Valid) (name : String) :
    toValue kind (.text t.spelling) name = .ok v := by
  by_cases hx : v.isExact = true
  · obtain ⟨t', -, hof, -, hread⟩ := exists_token (holds_of_ofValue ht hv) hx
    obtain rfl := Except.ok.inj (ht.symm.trans (hof ""))
    exact hread name
  · cases v with
    | float x =>
      have hfinite : ∀ {k}, ofValue k (.float x) "" = .ok t → x.isFinite = true ∧ t = .float x ∧
          (readFinite? x.text = some x → readText? k x.text = some (.float x)) := by
        intro k hk
        cases k <;> simp only [ofValue, reduceCtorEq] at hk
        all_goals
          split at hk
          · cases hk
            exact ⟨‹_›, rfl, fun hx => by rw [readText?, hx, Option.map_some]⟩
          · cases hk
      obtain ⟨hfin, rfl, hread⟩ := hfinite ht
      rw [spelling, toValue, hread (Number.Double.readFinite?_text hfin)]
    | list | map | object => cases kind <;> cases ht
    | _ => exact absurd rfl hx

namespace Tree

variable {τ : Type} [Tree τ] {s : PlanSet} {node : τ} {room : Nat} {n : Bool} {name : String}

theorem value_primitive {kind : Primitive} {t : Token} {v : Value} (hn : Tree.isNull node = false)
    (ht : Tree.scalar node = .ok t) (hv : Token.toValue kind t name = .ok v) :
    value s room (.primitive kind) n name node = .ok v := by
  rw [value_of_not_null hn, shaped, ht]
  exact hv

/-- A word of an enumeration. -/
theorem value_enumeration {c : Catalogue} {f : Format} (P : c.PlannedBy f s) {h : Handle}
    {e : Enumeration} (he : c.kind? h = some (.enumeration e)) {w : String} {x : EnumValue}
    (hx : e.read? w = some x) (hn : Tree.isNull node = false)
    (ht : Tree.scalar node = .ok (.text w)) :
    value s room (.enumeration h) n name node = .ok (.enum x) := by
  rw [value_of_not_null hn, shaped, enumeration, P.enum?_eq_some_iff.2 ⟨e, he, rfl⟩]
  dsimp only
  rw [ht]
  exact Catalogue.enumValue_of_read? hx

/-- The word of a type is read as what its discriminator holds. -/
theorem value_of_readsAs {c : Catalogue} {f : Format} (P : c.PlannedBy f s) {l : Layout}
    {r : Reference} {shape : Shape} (hshape : c.Forms l r shape) {w : String} {v : Value}
    (h : c.ReadsAs r w v) (hn : Tree.isNull node = false) (ht : Tree.scalar node = .ok (.text w)) :
    value s room shape n name node = .ok v := by
  obtain ⟨k, rfl, ⟨hk, rfl⟩ | ⟨e, x, he, hx, rfl⟩⟩ := h
  · obtain rfl := hshape.unique (.primitive hk)
    exact value_primitive hn ht rfl
  · obtain rfl := hshape.unique (.enumeration he)
    exact value_enumeration P he hx hn ht

end Tree

/-! ## Nodes of drafts -/

namespace Markup

/-- **The node that is read for a draft**: the missing value of an entry for a null, the value of an
attribute for a scalar, or an element. -/
inductive Presents : Node → Draft → Prop where
  | missing : Presents .missing .null
  | plain {t : Token} {h : t.isFinite = true} : Presents (.plain t.spelling) (.scalar t h)
  | element {name : String} {d : Draft} : d.isNull = false → Presents (.element name (ofDraft d)) d

namespace Presents

variable {node : Node} {d : Draft}

theorem isNull (h : Presents node d) : Tree.isNull node = d.isNull := by
  cases h with
  | missing => rfl
  | plain => rfl
  | element hn => exact hn.symm

theorem scalar {t : Token} {ht : t.isFinite = true} (h : Presents node (.scalar t ht)) :
    Tree.scalar node = .ok (.text t.spelling) := by
  cases h with
  | plain => rfl
  | element hn => rfl

/-- What is neither null nor a scalar stands in an element. -/
theorem exists_element (h : Presents node d) (hn : d.isNull = false)
    (hs : ∀ t ht, d ≠ .scalar t ht) : ∃ name, node = .element name (ofDraft d) := by
  cases h with
  | missing => cases hn
  | plain => exact absurd rfl (hs _ _)
  | element => exact ⟨_, rfl⟩

end Presents

end Markup

/-! ## What values come back as -/

/-- Reading that is refused because what is read stands too deep. -/
def TooDeep {α : Type} (x : Except DecodeError α) : Prop :=
  ∃ field, x = .error (.nestingTooDeep field Decode.depthLimit)

/-- **What a value comes back as** that is read where there is room for some levels: as something if
it fits and can be read, and as itself if it is legible; if it is legible but does not fit, reading is
refused for just that. -/
structure ComesBack (c : Catalogue) (room : Nat) (n : Bool) (r : Reference) (v : Value)
    (x : Except DecodeError Value) : Prop where
  read : c.nesting false v ≤ room → c.Readable r v → ∃ v', x = .ok v' ∧ (c.Legible n r v → v' = v)
  deep : room < c.nesting false v → c.Legible n r v → TooDeep x

namespace ComesBack

open Markup Draft

variable {c : Catalogue} {s : PlanSet} {room : Nat} {n : Bool} {name : String} {node : Node}

theorem null (h : Presents node .null) (r : Reference) (shape : Shape) :
    ComesBack c room true r .null (Tree.value s room shape true name node) where
  read _ _ := by
    refine ⟨.null, ?_, fun _ => rfl⟩
    rw [Tree.value_eq, Tree.nullable, h.isNull]
    rfl
  deep hlt _ := absurd hlt (Nat.not_lt_zero _)

theorem primitive {h : Handle} {kind : Primitive} {v : Value} {d : Draft}
    (hd : ofPrimitive? kind v = some d) (hnode : Presents node d) :
    ComesBack c room n (.named h) v (Tree.value s room (.primitive kind) n name node) := by
  obtain ⟨t, _, rfl, ht⟩ := exists_of_ofPrimitive? hd
  constructor
  · intro _ hread
    exact ⟨v, Tree.value_primitive hnode.isNull hnode.scalar (Token.toValue_spelling ht
      (fun x hx => hread.instants (.named h) x (hx ▸ .refl)) name), fun _ => rfl⟩
  · intro hlt _
    have hflat : c.nesting false v = 0 := by
      cases kind <;> cases v <;> first | rfl | cases ht
    omega

theorem enumeration (P : c.PlannedBy .xml s) {h : Handle} {e : Enumeration}
    (he : c.kind? h = some (.enumeration e)) {x : EnumValue} {w : String}
    (hw : Encode.enumWord s h x = .ok w) (hnode : Presents node (text w)) :
    ComesBack c room n (.named h) (.enum x) (Tree.value s room (.enumeration h) n name node) where
  read _ _ := by
    have hvalue : ∀ {y}, e.read? w = some y →
        Tree.value s room (.enumeration h) n name node = .ok (.enum y) := fun hy =>
      Tree.value_enumeration P he hy hnode.isNull hnode.scalar
    by_cases hx : e.Holds x
    · obtain ⟨w', hw', hread⟩ := P.exists_word he hx
      obtain rfl := Except.ok.inj (hw.symm.trans hw')
      exact ⟨_, hvalue hread, fun _ => rfl⟩
    · -- a word that an open enumeration does not list stands for a member after all
      rcases (exists_enumWord_iff P he).1 ⟨w, hw⟩ with ⟨m, hm, rfl⟩ | ⟨ho, raw, rfl⟩
      · exact absurd ⟨m, hm, rfl⟩ hx
      · rw [Encode.enumWord, P.enum?_eq_some_iff.2 ⟨e, he, rfl⟩] at hw
        dsimp only at hw
        rw [if_pos ho] at hw
        obtain rfl := Except.ok.inj hw
        rcases hm : Member.match? e.members e.caseSensitive raw with _ | m
        · exact absurd ⟨ho, hm⟩ hx
        · refine ⟨_, hvalue (y := .known m.name) ?_, fun T => ?_⟩
          · rw [Enumeration.read?, hm]
          · cases T.conforms with
            | primitive hk => simp [he] at hk
            | enumeration he' hx' =>
              obtain rfl := Kind.enumeration.inj (Option.some.inj (he.symm.trans he'))
              exact absurd hx' hx
  deep hlt _ := absurd hlt (Nat.not_lt_zero _)

end ComesBack

end Marshal
