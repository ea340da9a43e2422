import Marshal.Markup.Source
import Mathlib.Data.List.TakeWhile

/-!
# Escaped texts

A character is written as itself or as a named reference, and what is written holds no quotes and no
angle brackets. `unescape?_escape`: the value of an attribute is read back. `Lexer.referenceText_map`
is the same for a reference in the content of an element.
-/

namespace Marshal.Markup

open Text

/-- How a character is written. -/
theorem escapeChar_cases (c : Char) :
    (escapeChar c = [c] ∧ c ≠ '<' ∧ c ≠ '>' ∧ c ≠ '&' ∧ c ≠ '\'' ∧ c ≠ '"') ∨
      ∃ name, escapeChar c = '&' :: (name ++ [';']) ∧ reference? name = some c ∧
        ∀ d ∈ name, d ∉ [';', '&', '<', '>', '\'', '"'] := by
  by_cases h₁ : c = '<'
  · subst h₁
    exact .inr ⟨"lt".toList, rfl, rfl, by simp⟩
  by_cases h₂ : c = '>'
  · subst h₂
    exact .inr ⟨"gt".toList, rfl, rfl, by simp⟩
  by_cases h₃ : c = '&'
  · subst h₃
    exact .inr ⟨"amp".toList, rfl, rfl, by simp⟩
  by_cases h₄ : c = '\''
  · subst h₄
    exact .inr ⟨"apos".toList, rfl, rfl, by simp⟩
  by_cases h₅ : c = '"'
  · subst h₅
    exact .inr ⟨"quot".toList, rfl, rfl, by simp⟩
  · refine .inl ⟨?_, h₁, h₂, h₃, h₄, h₅⟩
    unfold escapeChar
    rw [if_neg h₁, if_neg h₂, if_neg h₃, if_neg h₄, if_neg h₅]

/-- No quote and no angle bracket stands in an escaped text. -/
theorem ne_of_mem_escaped {cs : List Char} {d : Char} (h : d ∈ cs.flatMap escapeChar) :
    d ≠ '<' ∧ d ≠ '>' ∧ d ≠ '\'' ∧ d ≠ '"' := by
  obtain ⟨c, -, hd⟩ := List.mem_flatMap.1 h
  rcases escapeChar_cases c with ⟨he, hlt, hgt, -, hap, hq⟩ | ⟨name, he, -, hname⟩
  · rw [he, List.mem_singleton] at hd
    subst hd
    exact ⟨hlt, hgt, hap, hq⟩
  · rw [he, List.mem_cons, List.mem_append, List.mem_singleton] at hd
    rcases hd with rfl | hd | rfl
    · decide
    · have := hname d hd
      simp only [List.mem_cons, not_or] at this
      exact ⟨this.2.2.1, this.2.2.2.1, this.2.2.2.2.1, this.2.2.2.2.2.1⟩
    · decide

theorem unescapeChars_escaped (cs : List Char) {fuel : Nat}
    (hf : (cs.flatMap escapeChar).length ≤ fuel) :
    unescapeChars fuel (cs.flatMap escapeChar) = some cs := by
  induction cs generalizing fuel with
  | nil =>
    cases fuel <;> rfl
  | cons c cs ih =>
    rw [List.flatMap_cons] at hf ⊢
    rcases escapeChar_cases c with ⟨he, -, -, hamp, -, -⟩ | ⟨name, he, href, hname⟩
    · rw [he, List.singleton_append] at hf ⊢
      obtain ⟨fuel, rfl⟩ := Nat.exists_eq_succ_of_ne_zero (Nat.ne_of_gt (Nat.zero_lt_of_lt hf))
      rw [unescapeChars, if_neg hamp, ih (Nat.le_of_succ_le_succ hf)]
      rfl
    · rw [he, List.cons_append] at hf ⊢
      obtain ⟨fuel, rfl⟩ := Nat.exists_eq_succ_of_ne_zero (Nat.ne_of_gt (Nat.zero_lt_of_lt hf))
      have hfuel := Nat.le_of_succ_le_succ hf
      rw [List.append_assoc, List.singleton_append, List.length_append, List.length_cons] at hfuel
      have hbody : (name ++ ';' :: cs.flatMap escapeChar).takeWhile
          (fun d => d ≠ ';' && d ≠ '&') = name := by
        rw [List.takeWhile_append_of_pos, List.takeWhile_cons_of_neg (by simp), List.append_nil]
        intro d hd
        have := hname d hd
        simp only [List.mem_cons, not_or] at this
        simp [this.1, this.2.1]
      have hrest : (name ++ ';' :: cs.flatMap escapeChar).drop name.length =
          ';' :: cs.flatMap escapeChar := List.drop_left
      rw [unescapeChars, if_pos rfl, List.append_assoc, List.singleton_append, hbody]
      dsimp only
      rw [hrest]
      simp only
      rw [href, ih (by omega)]
      rfl

/-- **An escaped value** is read back. -/
theorem unescape?_escape (s : String) : unescape? (escape s) = some s := by
  unfold unescape? escape
  dsimp only
  rw [String.toList_ofList, unescapeChars_escaped _ (Nat.le_refl _), Option.map_some,
    String.ofList_toList]

theorem Lexer.referenceText_map {name : List Char} {c : Char} (h : reference? name = some c) :
    Lexer.referenceText (name.map .char) = .ok (String.singleton c) := by
  unfold referenceText
  unfold reference? at h
  rw [Symbol.chars?_map_char]
  split
  · rename_i digits hd
    rw [Option.some.inj hd] at h
    have hnum : numeric? digits = some c := h
    rw [hnum]
  · rename_i hne hd
    obtain rfl := Option.some.inj hd
    split at h
    · exact absurd rfl (hne _)
    · rw [h]
  · rename_i hd
    cases hd

end Marshal.Markup
