import Marshal.Json.Print
import Marshal.Json.Read
import Mathlib.Data.List.Basic

/-!
# Strings in JSON texts

`string?_escaped`: a string is read back from its escaped characters.
-/

namespace Marshal.Json

theorem hexValue?_digitChar {n : Nat} (h : n < 16) : hexValue? (Nat.digitChar n) = some n :=
  (by decide : ∀ n : Fin 16, hexValue? (Nat.digitChar n.val) = some n.val) ⟨n, h⟩

/-- The escape of a control character stands for it. -/
theorem escape?_control {c : Char} (h : c.toNat < 32) (rest : List Char) :
    escape? ('u' :: '0' :: '0' :: Nat.digitChar (c.toNat / 16) :: Nat.digitChar (c.toNat % 16) ::
      rest) = some (c, rest) := by
  have hhigh := hexValue?_digitChar (n := c.toNat / 16) (by omega)
  have hlow := hexValue?_digitChar (n := c.toNat % 16) (by omega)
  have hzero : hexValue? '0' = some 0 := rfl
  have hquad : hexQuad? '0' '0' (Nat.digitChar (c.toNat / 16)) (Nat.digitChar (c.toNat % 16)) =
      some c.toNat := by
    simp only [hexQuad?, hzero, hhigh, hlow, Option.bind_eq_bind, Option.bind_some]
    refine congrArg some ?_
    omega
  have hunit : codeUnit? c.toNat rest = some (c, rest) := by
    unfold codeUnit?
    rw [if_neg (by omega), if_neg (by omega), Char.ofNat_toNat]
  rw [escape?, hquad]
  exact hunit

/-- A character that is written escaped is read back by the reader of escapes. -/
theorem escapeChar_cases (c : Char) :
    (escapeChar c = [c] ∧ c ≠ '"' ∧ c ≠ '\\' ∧ 32 ≤ c.toNat) ∨
      ∃ es, escapeChar c = '\\' :: es ∧ ∀ rest, escape? (es ++ rest) = some (c, rest) := by
  by_cases hq : c = '"'
  · subst hq
    exact .inr ⟨_, rfl, fun _ => rfl⟩
  by_cases hb : c = '\\'
  · subst hb
    exact .inr ⟨_, rfl, fun _ => rfl⟩
  by_cases hn : c = '\n'
  · subst hn
    exact .inr ⟨_, rfl, fun _ => rfl⟩
  by_cases hr : c = '\r'
  · subst hr
    exact .inr ⟨_, rfl, fun _ => rfl⟩
  by_cases ht : c = '\t'
  · subst ht
    exact .inr ⟨_, rfl, fun _ => rfl⟩
  have hof : ∀ n, c.toNat = n → c = Char.ofNat n := fun n hc => by rw [← hc, Char.ofNat_toNat]
  by_cases h8 : c.toNat = 8
  · rw [hof 8 h8]
    exact .inr ⟨_, rfl, fun _ => rfl⟩
  by_cases h12 : c.toNat = 12
  · rw [hof 12 h12]
    exact .inr ⟨_, rfl, fun _ => rfl⟩
  by_cases hctl : c.toNat < 32
  · refine .inr ⟨'u' :: '0' :: '0' :: Nat.digitChar (c.toNat / 16) ::
      [Nat.digitChar (c.toNat % 16)], ?_, fun rest => escape?_control hctl rest⟩
    simp only [escapeChar, hq, hb, hn, hr, ht, h8, h12, hctl, if_true, if_false]
  · refine .inl ⟨?_, hq, hb, by omega⟩
    simp only [escapeChar, hq, hb, hn, hr, ht, h8, h12, hctl, if_false]

/-- **Escaped characters up to a quote** are read back, whatever bounds the loop from above. -/
theorem stringBody?_escaped (cs rest : List Char) {fuel : List Char} (h : cs.length < fuel.length) :
    stringBody? strict fuel (cs.flatMap escapeChar ++ '"' :: rest) = some (cs, rest) := by
  induction cs generalizing fuel with
  | nil =>
    obtain ⟨f, fuel, rfl⟩ := List.exists_cons_of_length_pos h
    rfl
  | cons c cs ih =>
    obtain ⟨f, fuel, rfl⟩ := List.exists_cons_of_length_pos (Nat.zero_lt_of_lt h)
    have hfuel : cs.length < fuel.length := by simpa using h
    have hbody := ih hfuel
    rw [List.flatMap_cons, List.append_assoc]
    rcases escapeChar_cases c with ⟨he, hq, hb, h32⟩ | ⟨es, he, hes⟩
    · rw [he, List.singleton_append, stringBody?, if_neg hq, if_neg hb, if_neg (by omega), hbody]
      rfl
    · have hback : ('\\' : Char) ≠ '"' := by decide
      rw [he, List.cons_append, stringBody?, if_neg hback, if_pos rfl]
      simp only [strict, hes, Option.bind_eq_bind, Option.bind_some]
      rw [show (⟨escape?, number?⟩ : Lexis) = strict from rfl, hbody]
      rfl

theorem length_le_length_flatMap_escapeChar (cs : List Char) :
    cs.length ≤ (cs.flatMap escapeChar).length := by
  induction cs with
  | nil => exact Nat.le_refl _
  | cons c cs ih =>
    rw [List.flatMap_cons, List.length_append, List.length_cons]
    have hpos : 0 < (escapeChar c).length := by
      rcases escapeChar_cases c with ⟨he, -⟩ | ⟨es, he, -⟩ <;> rw [he] <;> simp
    omega

/-- **A string** is read back from its escaped characters. -/
theorem string?_escaped (s : String) (rest : List Char) :
    string? strict (s.toList.flatMap escapeChar ++ '"' :: rest) = some (s, rest) := by
  have hlen : s.toList.length < (s.toList.flatMap escapeChar ++ '"' :: rest).length := by
    have := length_le_length_flatMap_escapeChar s.toList
    rw [List.length_append, List.length_cons]
    omega
  rw [string?, stringBody?_escaped _ _ hlen, Option.map_some]
  dsimp only
  rw [String.ofList_toList]

theorem toList_stringText (s : String) :
    (stringText s).toList = '"' :: (s.toList.flatMap escapeChar ++ ['"']) := by
  simp [stringText]

end Marshal.Json
