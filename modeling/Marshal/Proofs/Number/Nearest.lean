import Marshal.Number.Double
import Mathlib.Algebra.Order.Field.Power
import Mathlib.Data.Nat.Log
import Mathlib.Data.Rat.Cast.Order
import Mathlib.Tactic.FieldSimp
import Mathlib.Tactic.Linarith
import Mathlib.Tactic.Positivity
import Mathlib.Tactic.Ring

/-!
# Nearest doubles

Sizes are compared as rationals: `scaled_lt_iff` and `lt_scaled_iff` take the powers of two by which
`nearestBits` scales a quotient there, `roundHalfEven_scaled` says to which significand it is rounded
at an exponent, and `settled_bounds` which exponent that is.
-/

namespace Marshal.Number.Double

/-! ## Scaled quotients -/

theorem two_pow_mul_zpow (k : Nat) (e : Int) : ((2 ^ k : ℕ) : ℚ) * 2 ^ e = 2 ^ (e + k) := by
  rw [zpow_add₀ (by norm_num : (2 : ℚ) ≠ 0), mul_comm, zpow_natCast, Nat.cast_pow, Nat.cast_ofNat]

/-- A power of two as a quotient of naturals. -/
theorem two_zpow_eq_div (e : Int) : (2 : ℚ) ^ e = 2 ^ e.toNat / 2 ^ (-e).toNat := by
  rcases le_total 0 e with he | he
  · lift e to ℕ using he
    simp
  · obtain ⟨n, rfl⟩ := Int.exists_eq_neg_ofNat he
    simp

/-- A quotient that is scaled by a power of two, compared with a natural. -/
theorem scaled_lt_iff {num den : Nat} (hd : 0 < den) (e : Int) (k : Nat) :
    num * 2 ^ (-e).toNat < k * (den * 2 ^ e.toNat) ↔ (num / den : ℚ) < k * 2 ^ e := by
  have hd' : (0 : ℚ) < den := by exact_mod_cast hd
  rw [two_zpow_eq_div, div_lt_iff₀ hd', ← @Nat.cast_lt ℚ]
  push_cast
  rw [mul_div_assoc', div_mul_eq_mul_div, lt_div_iff₀ (by positivity)]
  constructor <;> intro h <;> linarith

theorem lt_scaled_iff {num den : Nat} (hd : 0 < den) (e : Int) (k : Nat) :
    k * (den * 2 ^ e.toNat) < num * 2 ^ (-e).toNat ↔ (k * 2 ^ e : ℚ) < num / den := by
  have hd' : (0 : ℚ) < den := by exact_mod_cast hd
  rw [two_zpow_eq_div, lt_div_iff₀ hd', ← @Nat.cast_lt ℚ]
  push_cast
  rw [mul_div_assoc', div_mul_eq_mul_div, div_lt_iff₀ (by positivity)]
  constructor <;> intro h <;> linarith

/-! ## Rounding -/

/-- Rounding to a natural that is nearest, and even if it is one of two. -/
theorem roundHalfEven_eq {num den k : Nat} (hd : 0 < den) (hlow : 2 * k * den ≤ 2 * num + den)
    (hhigh : 2 * num ≤ (2 * k + 1) * den)
    (hodd : k % 2 = 1 → 2 * k * den < 2 * num + den ∧ 2 * num < (2 * k + 1) * den) :
    roundHalfEven num den = k := by
  have hr := Nat.mod_lt num hd
  have hsplit : num = num / den * den + num % den := (Nat.div_add_mod' num den).symm
  unfold roundHalfEven
  dsimp only
  generalize num / den = q at hsplit ⊢
  generalize num % den = r at hr hsplit ⊢
  subst hsplit
  have hle : q ≤ k := by
    have hlt : 2 * q * den < (2 * k + 2) * den := by
      rw [Nat.mul_assoc]
      rw [Nat.add_mul] at hhigh ⊢
      omega
    have := Nat.lt_of_mul_lt_mul_right hlt
    omega
  have hge : k ≤ q + 1 := by
    have hlt : 2 * k * den < (2 * q + 3) * den := by
      rw [Nat.add_mul, Nat.mul_assoc 2 q]
      omega
    have := Nat.lt_of_mul_lt_mul_right hlt
    omega
  rw [Nat.mul_assoc 2 k] at hlow
  rw [Nat.add_mul, Nat.mul_assoc 2 k, Nat.one_mul] at hhigh hodd
  rcases Nat.lt_or_ge q k with hlt | hge'
  · obtain rfl : k = q + 1 := by omega
    rw [Nat.add_mul, Nat.one_mul] at hlow hhigh hodd
    rw [if_pos]
    rcases Nat.lt_or_ge den (2 * r) with h | h
    · exact .inl h
    · refine .inr ⟨by omega, ?_⟩
      by_contra heven
      have := hodd (by omega)
      omega
  · obtain rfl : k = q := by omega
    rw [if_neg]
    rintro (h | ⟨h, hk⟩)
    · omega
    · have := hodd hk
      omega

/-- Rounding a quotient at an exponent. -/
theorem roundHalfEven_scaled {num den k : Nat} {e : Int} (hd : 0 < den) (hk : 0 < k)
    (hlow : ((2 * k - 1 : ℕ) * 2 ^ e : ℚ) ≤ (2 * num : ℕ) / den)
    (hhigh : ((2 * num : ℕ) / den : ℚ) ≤ (2 * k + 1 : ℕ) * 2 ^ e)
    (hodd : k % 2 = 1 → ((2 * k - 1 : ℕ) * 2 ^ e : ℚ) < (2 * num : ℕ) / den ∧
      ((2 * num : ℕ) / den : ℚ) < (2 * k + 1 : ℕ) * 2 ^ e) :
    roundHalfEven (num * 2 ^ (-e).toNat) (den * 2 ^ e.toNat) = k := by
  rw [← not_lt, ← scaled_lt_iff hd] at hlow
  rw [← not_lt, ← lt_scaled_iff hd] at hhigh
  rw [← scaled_lt_iff hd, ← lt_scaled_iff hd] at hodd
  have hsplit : 2 * k * (den * 2 ^ e.toNat) =
      (2 * k - 1) * (den * 2 ^ e.toNat) + den * 2 ^ e.toNat := by
    rw [← Nat.succ_mul]
    congr 1
    omega
  rw [Nat.mul_assoc 2 num] at hlow hhigh hodd
  exact roundHalfEven_eq (by positivity) (by omega) (by omega) fun hk => by
    have := hodd hk
    omega

/-! ## The exponent of a quotient -/

/-- The size of a quotient in powers of two. -/
theorem div_bounds {num den : Nat} (hn : num ≠ 0) (hd : 0 < den) :
    (2 : ℚ) ^ ((num.log2 : Int) - den.log2 - 1) < num / den ∧
      (num / den : ℚ) < 2 ^ ((num.log2 : Int) - den.log2 + 1) := by
  have hd' : (0 : ℚ) < den := by exact_mod_cast hd
  have hn1 : (2 : ℚ) ^ num.log2 ≤ num := by exact_mod_cast Nat.log2_self_le hn
  have hn2 : (num : ℚ) < 2 ^ (num.log2 + 1) := by exact_mod_cast Nat.lt_log2_self
  have hd1 : (2 : ℚ) ^ den.log2 ≤ den := by exact_mod_cast Nat.log2_self_le hd.ne'
  have hd2 : (den : ℚ) < 2 ^ (den.log2 + 1) := by exact_mod_cast Nat.lt_log2_self
  have h2 : (2 : ℚ) ≠ 0 := by norm_num
  constructor
  · rw [lt_div_iff₀ hd', sub_sub, zpow_sub₀ h2, div_mul_eq_mul_div, div_lt_iff₀ (by positivity)]
    have he : (2 : ℚ) ^ ((den.log2 : Int) + 1) = 2 ^ (den.log2 + 1) := by
      exact_mod_cast rfl
    rw [he, zpow_natCast]
    calc (2 : ℚ) ^ num.log2 * den < 2 ^ num.log2 * 2 ^ (den.log2 + 1) := by gcongr
      _ ≤ num * 2 ^ (den.log2 + 1) := by gcongr
  · rw [div_lt_iff₀ hd', show (num.log2 : Int) - den.log2 + 1 = (num.log2 + 1 : ℕ) - (den.log2 : ℕ) by
      push_cast; ring, zpow_sub₀ h2, zpow_natCast, zpow_natCast, div_mul_eq_mul_div,
      lt_div_iff₀ (by positivity)]
    calc (num : ℚ) * 2 ^ den.log2 < 2 ^ (num.log2 + 1) * 2 ^ den.log2 := by gcongr
      _ ≤ 2 ^ (num.log2 + 1) * den := by gcongr

/-- The exponent at which a quotient has a significand of 53 bits. -/
theorem settled_bounds {num den : Nat} (hn : num ≠ 0) (hd : 0 < den) {first : Int}
    (hf : first = (num.log2 : Int) - den.log2 - 52) {settled : Int}
    (hs : settled = if num * 2 ^ (-first).toNat < 2 ^ 52 * (den * 2 ^ first.toNat) then first - 1
      else first) :
    (2 : ℚ) ^ (settled + 52) ≤ num / den ∧ (num / den : ℚ) < 2 ^ (settled + 53) := by
  obtain ⟨hlow, hhigh⟩ := div_bounds hn hd
  have hsplit : (num * 2 ^ (-first).toNat < 2 ^ 52 * (den * 2 ^ first.toNat)) ↔
      (num / den : ℚ) < 2 ^ (first + 52) := by
    rw [scaled_lt_iff hd, two_pow_mul_zpow]
    rfl
  split at hs
  · rename_i hlt
    rw [hs, show first - 1 + 52 = (num.log2 : Int) - den.log2 - 1 by omega,
      show first - 1 + 53 = first + 52 by omega]
    exact ⟨hlow.le, hsplit.1 hlt⟩
  · rename_i hge
    rw [hs, show first + 53 = (num.log2 : Int) - den.log2 + 1 by omega]
    exact ⟨not_lt.1 fun h => hge (hsplit.2 h), hhigh⟩

end Marshal.Number.Double
