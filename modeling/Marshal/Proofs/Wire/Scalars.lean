import Marshal.Proofs.Json.Text
import Marshal.Proofs.Plan.Dispatch
import Marshal.Proofs.Text.Base64
import Marshal.Proofs.Time.Text
import Marshal.Proofs.Value.Canonical
import Marshal.Wire.Decode
import Marshal.Wire.Encode

/-!
# Scalars are read back

`exists_token`: a primitive value that is no double has a token, and the value is read from the
token and from its spelling. `exists_word` is the same for the values of enumerations.
-/

namespace Marshal

open Number Time

/-! ## Primitives -/

namespace Token

/-- Whether a token is no double. -/
def isExact : Token → Bool
  | .float _ => false
  | _ => true

theorem trim_intText (n : Int) : Text.trim (intText n) = intText n := by
  have hblank : ∀ c ∈ (intText n).toList, Text.isBlank c = false := by
    intro c hc
    rw [toList_intText, List.mem_append] at hc
    rcases hc with hc | hc
    · split at hc
      · obtain rfl := List.mem_singleton.1 hc
        rfl
      · cases hc
    · exact Text.isBlank_of_isDigit (isDigit_toDigits hc)
  rw [Text.trim, Text.trimChars_of_not_blank hblank, String.ofList_toList]

theorem readFitting?_trim_intText {width : Nat} {n : Int64} (h : fits width n.toInt = true) :
    readFitting? width (Text.trim (intText n.toInt)) = some n := by
  rw [trim_intText, readFitting?_intText h, Int64.ofInt_toInt]

/-- A value that has a token is of the type. -/
theorem holds_of_ofValue {v : Value} {t : Token} {field : String} (ht : ofValue kind v field = .ok t)
    (hv : ∀ x, v = .timestamp x → x.Valid) : kind.Holds v := by
  cases kind <;> cases v <;> first | trivial | (cases ht; done) | skip
  case integer.integer n =>
    by_contra hfits
    rw [ofValue, if_neg (show ¬ fits 32 n.toInt = true from hfits)] at ht
    cases ht
  case timestamp.timestamp x => exact hv x rfl

/-- **A primitive value that is no double** is read back from its token, and from the text of its
token. -/
theorem exists_token {kind : Primitive} {v : Value} (h : kind.Holds v) (hx : v.isExact = true) :
    ∃ t, t.isExact = true ∧ (∀ field, ofValue kind v field = .ok t) ∧
      (∀ field, toValue kind t field = .ok v) ∧
      ∀ field, toValue kind (.text t.spelling) field = .ok v := by
  have htext : ∀ {s : String}, readText? kind s = some v → ∀ field,
      toValue kind (.text s) field = .ok v := by
    intro s hs field
    rw [toValue, hs]
  cases kind <;> cases v <;> first | exact False.elim h | skip
  case string.text s => exact ⟨.text s, rfl, fun _ => rfl, htext rfl, htext rfl⟩
  case boolean.bool b =>
    refine ⟨.bool b, rfl, fun _ => rfl, fun _ => rfl, htext ?_⟩
    cases b <;> rfl
  case integer.integer n =>
    have hfits : fits 32 n.toInt = true := h
    refine ⟨.integer n, rfl, fun _ => if_pos hfits, fun _ => if_pos hfits, htext ?_⟩
    rw [readText?, spelling, readFitting?_trim_intText hfits, Option.map_some]
  case long.integer n =>
    refine ⟨.integer n, rfl, fun _ => rfl, fun _ => rfl, htext ?_⟩
    rw [readText?, spelling, readFitting?_trim_intText (fits_64 n), Option.map_some]
  case float.float x => cases hx
  case double.float x => cases hx
  case timestamp.timestamp t =>
    have hread : readText? .timestamp t.text = some (.timestamp t) := by
      rw [readText?, t.trim_text, Instant.read?_text h, Option.map_some]
    exact ⟨.text t.text, rfl, fun _ => rfl, htext hread, htext hread⟩
  case blob.blob bytes =>
    have hread : readText? .blob (Base64.encode bytes) = some (.blob bytes) := by
      rw [readText?, Base64.decode?_encode, Option.map_some]
    exact ⟨.text (Base64.encode bytes), rfl, fun _ => rfl, htext hread, htext hread⟩

end Token

/-! ## Enumerations -/

/-- A member's name leads to the first member that has it. -/
theorem Member.exists_named? {members : List Member} {m : Member} (hm : m ∈ members) :
    ∃ n ∈ members, named? members m.name = some n ∧ n.name = m.name := by
  rcases hn : named? members m.name with _ | n
  · exact absurd (beq_iff_eq.2 rfl) (List.find?_eq_none.1 hn m hm)
  · exact ⟨n, List.mem_of_find?_eq_some hn, rfl,
      beq_iff_eq.1 (List.find?_some (p := fun n : Member => n.name == m.name) hn)⟩

namespace Catalogue

variable {c : Catalogue} {f : Format} {s : PlanSet}

/-- A word tells its member apart. -/
theorem WellFormed.match?_wire (W : c.WellFormed) {h : Handle} {e : Enumeration}
    (he : c.kind? h = some (.enumeration e)) {m : Member} (hm : m ∈ e.members) :
    Member.match? e.members e.caseSensitive m.wire = some m := by
  have hkey : ∀ n : Member, (if e.caseSensitive = true then n.wire == m.wire
      else Text.sameIgnoringCase n.wire m.wire) = true ↔ e.key n = e.key m := by
    intro n
    unfold Enumeration.key Text.sameIgnoringCase
    split <;> exact beq_iff_eq
  rcases hf : Member.match? e.members e.caseSensitive m.wire with _ | n
  · exact absurd ((hkey m).2 rfl) (List.find?_eq_none.1 hf m hm)
  · have hn := (hkey n).1 (List.find?_some (p := fun n : Member => if e.caseSensitive = true then
      n.wire == m.wire else Text.sameIgnoringCase n.wire m.wire) hf)
    rw [List.inj_on_of_nodup_map (W.words h e he) (List.mem_of_find?_eq_some hf) hm hn]

theorem enumValue_of_read? {h : Handle} {name : String} {e : Enumeration} {w : String}
    {x : EnumValue} (hx : e.read? w = some x) :
    Decode.enumValue ⟨h, name, e.members, e.caseSensitive, e.isOpen⟩ w = .ok (.enum x) := by
  unfold Enumeration.read? at hx
  unfold Decode.enumValue
  split at hx
  · rename_i m hm
    rw [hm, ← Option.some.inj hx]
  · rename_i hm
    rw [hm]
    split at hx
    · rename_i ho
      rw [← Option.some.inj hx]
      exact if_pos ho
    · cases hx

/-- A word that an enumeration does not take is refused under the name of the enumeration. -/
theorem enumValue_of_read?_eq_none {h : Handle} {name : String} {e : Enumeration} {w : String}
    (hx : e.read? w = none) :
    Decode.enumValue ⟨h, name, e.members, e.caseSensitive, e.isOpen⟩ w =
      .error (.unknownEnumValue name w) := by
  unfold Enumeration.read? at hx
  unfold Decode.enumValue
  split at hx
  · cases hx
  · rename_i hm
    rw [hm]
    split at hx
    · cases hx
    · rename_i ho
      exact if_neg ho

/-- What a word of an enumeration is read as is a value of it. -/
theorem holds_of_read? {e : Enumeration} {w : String} {x : EnumValue} (hx : e.read? w = some x) :
    e.Holds x := by
  unfold Enumeration.read? at hx
  split at hx
  · rename_i m hm
    obtain rfl := Option.some.inj hx
    exact ⟨m, List.mem_of_find?_eq_some hm, rfl⟩
  · rename_i hm
    split at hx
    · rename_i ho
      obtain rfl := Option.some.inj hx
      exact ⟨ho, hm⟩
    · cases hx

theorem exists_read?_of_enumValue {h : Handle} {name : String} {e : Enumeration} {w : String}
    {v : Value} (hv : Decode.enumValue ⟨h, name, e.members, e.caseSensitive, e.isOpen⟩ w = .ok v) :
    ∃ x, e.read? w = some x ∧ v = .enum x := by
  unfold Decode.enumValue at hv
  unfold Enumeration.read?
  split at hv
  · rename_i m hm
    cases hv
    rw [hm]
    exact ⟨_, rfl, rfl⟩
  · rename_i hm
    rw [hm]
    split at hv
    · rename_i ho
      cases hv
      exact ⟨_, if_pos ho, rfl⟩
    · cases hv

/-- **A word of an enumeration** is read back from what is written for it. -/
theorem PlannedBy.exists_word (P : c.PlannedBy f s) {h : Handle} {e : Enumeration}
    (he : c.kind? h = some (.enumeration e)) {x : EnumValue} (hx : e.Holds x) :
    ∃ w, Encode.enumWord s h x = .ok w ∧ e.read? w = some x := by
  have hplan := P.enum?_eq_some_iff.2 ⟨e, he, rfl⟩
  cases x with
  | known name =>
    obtain ⟨m, hm, rfl⟩ := hx
    obtain ⟨n, hmem, hn, hname⟩ := Member.exists_named? hm
    refine ⟨n.wire, ?_, ?_⟩
    · rw [Encode.enumWord, hplan]
      dsimp only
      rw [hn]
    · rw [Enumeration.read?, P.wellFormed.match?_wire he hmem]
      dsimp only
      rw [hname]
  | unknown raw =>
    obtain ⟨ho, hm⟩ := hx
    refine ⟨raw, ?_, ?_⟩
    · rw [Encode.enumWord, hplan]
      exact if_pos ho
    · rw [Enumeration.read?, hm]
      exact if_pos ho

end Catalogue

end Marshal
