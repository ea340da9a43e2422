import Marshal.Base64
import Marshal.Proofs.Text.Blank

/-!
# Base64 texts

`decode?_encode`: a byte sequence is read back from its base64 text.
-/

namespace Marshal.Base64

theorem value?_letter {n : Nat} (h : n < 64) : value? (letter n) = some n :=
  (by decide : ∀ n : Fin 64, value? (letter n.val) = some n.val) ⟨n, h⟩

theorem letter_ne {n : Nat} (h : n < 64) : letter n ≠ '=' :=
  (by decide : ∀ n : Fin 64, letter n.val ≠ '=') ⟨n, h⟩

theorem isBlank_letter {n : Nat} (h : n < 64) : Text.isBlank (letter n) = false :=
  (by decide : ∀ n : Fin 64, Text.isBlank (letter n.val) = false) ⟨n, h⟩

/-- The four letters of three bytes stand for them. -/
theorem group?_letters (a b c : UInt8) :
    group? (letter (a.toNat / 4)) (letter (a.toNat % 4 * 16 + b.toNat / 16))
      (letter (b.toNat % 16 * 4 + c.toNat / 64)) (letter (c.toNat % 64)) = some [a, b, c] := by
  have ha := a.toNat_lt
  have hb := b.toNat_lt
  have hc := c.toNat_lt
  have hfirst : a.toNat / 4 * 4 + (a.toNat % 4 * 16 + b.toNat / 16) / 16 = a.toNat := by omega
  have hsecond : (a.toNat % 4 * 16 + b.toNat / 16) % 16 * 16 +
      (b.toNat % 16 * 4 + c.toNat / 64) / 4 = b.toNat := by omega
  have hthird : (b.toNat % 16 * 4 + c.toNat / 64) % 4 * 64 + c.toNat % 64 = c.toNat := by
    omega
  simp only [group?, value?_letter (n := a.toNat / 4) (by omega),
    value?_letter (n := a.toNat % 4 * 16 + b.toNat / 16) (by omega),
    value?_letter (n := b.toNat % 16 * 4 + c.toNat / 64) (by omega),
    value?_letter (n := c.toNat % 64) (by omega), Option.bind_eq_bind, Option.bind_some, hfirst,
    hsecond, hthird, UInt8.ofNat_toNat]
  rfl

theorem lastGroup?_one (a : UInt8) :
    lastGroup? (letter (a.toNat / 4)) (letter (a.toNat % 4 * 16)) '=' '=' = some [a] := by
  have ha := a.toNat_lt
  have hrest : a.toNat % 4 * 16 % 16 = 0 := by omega
  have hbyte : a.toNat / 4 * 4 + a.toNat % 4 * 16 / 16 = a.toNat := by omega
  simp only [lastGroup?, ne_eq, not_true_eq_false, if_false, if_true,
    value?_letter (n := a.toNat / 4) (by omega), value?_letter (n := a.toNat % 4 * 16) (by omega),
    Option.bind_eq_bind, Option.bind_some, hrest, hbyte, UInt8.ofNat_toNat]

theorem lastGroup?_two (a b : UInt8) :
    lastGroup? (letter (a.toNat / 4)) (letter (a.toNat % 4 * 16 + b.toNat / 16))
      (letter (b.toNat % 16 * 4)) '=' = some [a, b] := by
  have ha := a.toNat_lt
  have hb := b.toNat_lt
  have hne := letter_ne (n := b.toNat % 16 * 4) (by omega)
  have hrest : b.toNat % 16 * 4 % 4 = 0 := by omega
  have hfirst : a.toNat / 4 * 4 + (a.toNat % 4 * 16 + b.toNat / 16) / 16 = a.toNat := by omega
  have hsecond : (a.toNat % 4 * 16 + b.toNat / 16) % 16 * 16 + b.toNat % 16 * 4 / 4 = b.toNat := by
    omega
  simp only [lastGroup?, ne_eq, not_true_eq_false, if_false, if_true,
    value?_letter (n := a.toNat / 4) (by omega),
    value?_letter (n := a.toNat % 4 * 16 + b.toNat / 16) (by omega),
    value?_letter (n := b.toNat % 16 * 4) (by omega), Option.bind_eq_bind, Option.bind_some, hne,
    hrest, hfirst, hsecond, UInt8.ofNat_toNat]

theorem lastGroup?_of_ne {a b c d : Char} (h : d ≠ '=') : lastGroup? a b c d = group? a b c d :=
  if_pos h

/-- **The letters of a byte sequence** stand for it. -/
theorem decodeChars_encodeChars (bytes : List UInt8) :
    decodeChars (encodeChars bytes) = some bytes := by
  induction bytes using encodeChars.induct with
  | case1 => rfl
  | case2 a => exact lastGroup?_one a
  | case3 a b => exact lastGroup?_two a b
  | case4 a b c rest ih =>
    have hgroup := group?_letters a b c
    rw [encodeChars]
    rcases hrest : encodeChars rest with _ | ⟨d, ds⟩
    · rw [hrest] at ih
      obtain rfl : rest = [] := (Option.some.inj ih).symm
      rw [decodeChars, lastGroup?_of_ne (letter_ne (Nat.mod_lt _ (by decide))), hgroup]
    · rw [hrest] at ih
      rw [decodeChars, hgroup, ih]
      · rfl
      · simp

theorem isBlank_of_mem_encodeChars {bytes : List UInt8} {c : Char} (h : c ∈ encodeChars bytes) :
    Text.isBlank c = false := by
  have hpad : Text.isBlank '=' = false := rfl
  induction bytes using encodeChars.induct with
  | case1 => cases h
  | case2 a =>
    have ha := a.toNat_lt
    simp only [encodeChars, List.mem_cons, List.not_mem_nil, or_false] at h
    rcases h with rfl | rfl | rfl | rfl
    · exact isBlank_letter (by omega)
    · exact isBlank_letter (by omega)
    · exact hpad
    · exact hpad
  | case3 a b =>
    have ha := a.toNat_lt
    have hb := b.toNat_lt
    simp only [encodeChars, List.mem_cons, List.not_mem_nil, or_false] at h
    rcases h with rfl | rfl | rfl | rfl
    · exact isBlank_letter (by omega)
    · exact isBlank_letter (by omega)
    · exact isBlank_letter (by omega)
    · exact hpad
  | case4 a b d rest ih =>
    have ha := a.toNat_lt
    have hb := b.toNat_lt
    have hd := d.toNat_lt
    simp only [encodeChars, List.mem_cons] at h
    rcases h with rfl | rfl | rfl | rfl | h
    · exact isBlank_letter (by omega)
    · exact isBlank_letter (by omega)
    · exact isBlank_letter (by omega)
    · exact isBlank_letter (by omega)
    · exact ih h

/-- **A byte sequence** is read back from its text. -/
theorem decode?_encode (bytes : List UInt8) : decode? (encode bytes) = some bytes := by
  rw [decode?, encode, String.toList_ofList,
    Text.trimChars_of_not_blank fun c hc => isBlank_of_mem_encodeChars hc, decodeChars_encodeChars]

end Marshal.Base64
