import Marshal.Number.Text
import Marshal.Proofs.Number.Integer
import Mathlib.Data.List.Induction
import Mathlib.Tactic.Ring

/-!
# Decimals in digits

A decimal written positionally is a whole part and a fraction (`Decimal.exists_spelled`), whose
digits together denote it: they are those of the decimal with zeros behind them.
-/

namespace Marshal.Number

theorem ofDigits_append (as bs : List Char) :
    ofDigits (as ++ bs) = ofDigits as * 10 ^ bs.length + ofDigits bs := by
  induction bs using List.reverseRecOn with
  | nil => simp [ofDigits]
  | append_singleton bs b ih =>
    have hlast : ∀ ds : List Char, ofDigits (ds ++ [b]) = 10 * ofDigits ds + digitValue b := by
      intro ds
      rw [ofDigits, ofDigits, List.foldl_append]
      rfl
    rw [← List.append_assoc, hlast, hlast, ih, List.length_append, List.length_singleton, pow_succ]
    ring

theorem ofDigits_replicate_zero (k : Nat) : ofDigits (List.replicate k '0') = 0 := by
  induction k with
  | zero => rfl
  | succ k ih =>
    have hzero : ofDigits ['0'] = 0 := rfl
    rw [List.replicate_succ, ← List.singleton_append, ofDigits_append, ih, hzero, Nat.zero_mul]

/-- **The digits of a decimal** on either side of its point. -/
structure Decimal.Spelled (d : Decimal) (whole fraction : List Char) : Prop where
  text : d.positional = whole ++ (if fraction = [] then [] else '.' :: fraction)
  digits : ∀ c ∈ whole ++ fraction, c.isDigit = true
  nonempty : whole ≠ []
  length : fraction.length = (-d.exponent).toNat
  value : ofDigits (whole ++ fraction) = d.digits * 10 ^ d.exponent.toNat
  /-- There is no needless zero in front. -/
  zero : d.digits ≠ 0 → whole.head? = some '0' → whole.length = 1

theorem isDigit_replicate_zero {k : Nat} {c : Char} (h : c ∈ List.replicate k '0') :
    c.isDigit = true := by
  rw [(List.mem_replicate.1 h).2]
  rfl

/-- A number that is not zero does not begin with a zero. -/
theorem head?_toDigits_ne_zero {n : Nat} (hn : n ≠ 0) : (Nat.toDigits 10 n).head? ≠ some '0' := by
  intro h
  have hlen := length_toDigits_of_head? h
  obtain ⟨c, hc⟩ := List.length_eq_one_iff.1 hlen
  rw [hc, List.head?_cons, Option.some.injEq] at h
  subst h
  have hzero := ofDigits_toDigits n
  rw [hc] at hzero
  exact hn hzero.symm

/-- **Every decimal is spelled** with digits around its point. -/
theorem Decimal.exists_spelled (d : Decimal) : ∃ whole fraction, d.Spelled whole fraction := by
  have hdigits : ∀ c ∈ Nat.toDigits 10 d.digits, c.isDigit = true := fun c => isDigit_toDigits
  have hvalue := ofDigits_toDigits d.digits
  have hne : Nat.toDigits 10 d.digits ≠ [] := Nat.toDigits_ne_nil
  by_cases he : 0 ≤ d.exponent
  · refine ⟨Nat.toDigits 10 d.digits ++ List.replicate d.exponent.toNat '0', [], ?_, ?_, ?_, ?_, ?_, ?_⟩
    · rw [positional, if_pos he, if_pos rfl, List.append_nil]
    · intro c hc
      rw [List.append_nil, List.mem_append] at hc
      exact hc.elim (hdigits c) isDigit_replicate_zero
    · simp [hne]
    · rw [List.length_nil]
      omega
    · rw [List.append_nil, ofDigits_append, ofDigits_replicate_zero, hvalue, List.length_replicate,
        Nat.add_zero]
    · intro hd hz
      rw [List.head?_append, List.head?_eq_some_head hne, Option.some_or,
        ← List.head?_eq_some_head hne] at hz
      exact absurd hz (head?_toDigits_ne_zero hd)
  · have hnat : d.exponent.toNat = 0 := by omega
    by_cases hp : (-d.exponent).toNat < (Nat.toDigits 10 d.digits).length
    · refine ⟨(Nat.toDigits 10 d.digits).take ((Nat.toDigits 10 d.digits).length - (-d.exponent).toNat),
        (Nat.toDigits 10 d.digits).drop ((Nat.toDigits 10 d.digits).length - (-d.exponent).toNat),
        ?_, ?_, ?_, ?_, ?_, ?_⟩
      · rw [positional, if_neg he, if_pos hp, if_neg]
        rw [List.drop_eq_nil_iff]
        omega
      · rwa [List.take_append_drop]
      · rw [ne_eq, List.take_eq_nil_iff, not_or]
        exact ⟨by omega, hne⟩
      · rw [List.length_drop]
        omega
      · rw [List.take_append_drop, hvalue, hnat, pow_zero, mul_one]
      · intro hd hz
        rw [List.head?_take, if_neg (by omega)] at hz
        exact absurd hz (head?_toDigits_ne_zero hd)
    · refine ⟨['0'], List.replicate ((-d.exponent).toNat - (Nat.toDigits 10 d.digits).length) '0' ++
        Nat.toDigits 10 d.digits, ?_, ?_, ?_, ?_, ?_, ?_⟩
      · rw [positional, if_neg he, if_neg hp, if_neg (by simp [hne])]
        rfl
      · intro c hc
        rw [List.singleton_append, List.mem_cons, List.mem_append] at hc
        rcases hc with rfl | hc | hc
        · rfl
        · exact isDigit_replicate_zero hc
        · exact hdigits c hc
      · simp
      · rw [List.length_append, List.length_replicate]
        omega
      · rw [← List.append_assoc, ofDigits_append, hvalue, List.singleton_append,
          ← List.replicate_succ, ofDigits_replicate_zero, hnat]
        simp
      · exact fun _ _ => rfl

end Marshal.Number
