import Marshal.Number.Integer
import Mathlib.Algebra.Group.Nat.Defs
import Mathlib.Data.List.TakeWhile

/-!
# Decimal digits

`ofDigits_toDigits` and `readInt?_intText`: numbers that are written are read back.
-/

namespace Marshal.Number

/-! ## Digits -/

theorem digitValue_lt {d : Char} (h : d.isDigit = true) : digitValue d < 10 := by
  simp only [Char.isDigit, Bool.and_eq_true, decide_eq_true_iff] at h
  obtain ⟨-, h⟩ := h
  have : d.toNat ≤ 57 := h
  have h48 : '0'.toNat = 48 := rfl
  unfold digitValue
  omega

theorem foldl_digits_lt {ds : List Char} (h : ∀ d ∈ ds, d.isDigit = true) (n : Nat) :
    ds.foldl (fun n d => 10 * n + digitValue d) n < (n + 1) * 10 ^ ds.length := by
  induction ds generalizing n with
  | nil => simp
  | cons d ds ih =>
    obtain ⟨hd, hds⟩ := List.forall_mem_cons.1 h
    have hlt := digitValue_lt hd
    calc _ < (10 * n + digitValue d + 1) * 10 ^ ds.length := ih hds _
      _ ≤ (10 * (n + 1)) * 10 ^ ds.length := Nat.mul_le_mul_right _ (by omega)
      _ = (n + 1) * 10 ^ (d :: ds).length := by
        rw [List.length_cons, Nat.pow_succ, Nat.mul_comm 10, Nat.mul_assoc, Nat.mul_comm 10]

theorem ofDigits_lt {ds : List Char} (h : ∀ d ∈ ds, d.isDigit = true) :
    ofDigits ds < 10 ^ ds.length := by
  simpa [ofDigits] using foldl_digits_lt h 0

theorem ofDigits_eq (ds : List Char) : ofDigits ds = Nat.ofDigitChars 10 ds 0 := by
  rw [Nat.ofDigitChars_eq_foldl]
  rfl

/-- **The digits of a number** denote it. -/
theorem ofDigits_toDigits (n : Nat) : ofDigits (Nat.toDigits 10 n) = n := by
  rw [ofDigits_eq, Nat.ofDigitChars_ten_toDigits]

theorem isDigit_toDigits {n : Nat} {d : Char} (h : d ∈ Nat.toDigits 10 n) : d.isDigit = true :=
  Nat.isDigit_of_mem_toDigits (by decide) (by decide) h

/-- The digits of a number do not begin with a sign. -/
theorem toDigits_eq_cons (n : Nat) :
    ∃ d ds, Nat.toDigits 10 n = d :: ds ∧ d.isDigit = true := by
  rcases h : Nat.toDigits 10 n with _ | ⟨d, ds⟩
  · exact absurd h Nat.toDigits_ne_nil
  · exact ⟨d, ds, rfl, isDigit_toDigits (n := n) (h ▸ List.mem_cons_self)⟩

/-- Only zero is written with a zero in front. -/
theorem length_toDigits_of_head? {n : Nat} (h : (Nat.toDigits 10 n).head? = some '0') :
    (Nat.toDigits 10 n).length = 1 := by
  induction n using Nat.strongRecOn with
  | ind n ih =>
    by_cases hn : n < 10
    · rw [Nat.toDigits_of_lt_base hn]
      rfl
    · exfalso
      obtain ⟨d, ds, hds, -⟩ := toDigits_eq_cons (n / 10)
      rw [Nat.toDigits_of_base_le (by decide) (by omega), hds] at h
      obtain rfl := Option.some.inj h
      have hlen := ih (n / 10) (by omega) (by rw [hds]; rfl)
      rw [hds, List.length_cons, Nat.add_eq_right, List.length_eq_zero_iff] at hlen
      have hzero := ofDigits_toDigits (n / 10)
      rw [hds, hlen] at hzero
      have : ofDigits ['0'] = 0 := rfl
      omega

/-! ## Padded digits -/

theorem toList_paddedText (width n : Nat) :
    (paddedText width n).toList =
      List.replicate (width - (Nat.toDigits 10 n).length) '0' ++ Nat.toDigits 10 n :=
  String.toList_ofList

theorem isDigit_paddedText {width n : Nat} {d : Char} (h : d ∈ (paddedText width n).toList) :
    d.isDigit = true := by
  rw [toList_paddedText, List.mem_append] at h
  rcases h with h | h
  · rw [(List.mem_replicate.1 h).2]
    rfl
  · exact isDigit_toDigits h

theorem ofDigits_paddedText (width n : Nat) : ofDigits (paddedText width n).toList = n := by
  have hzeros : ∀ k, (List.replicate k '0').foldl (fun n d => 10 * n + digitValue d) 0 = 0 := by
    intro k
    induction k with
    | zero => rfl
    | succ k ih => exact ih
  rw [toList_paddedText, ofDigits, List.foldl_append, hzeros]
  exact ofDigits_toDigits n

theorem le_length_paddedText (width n : Nat) : width ≤ (paddedText width n).toList.length := by
  rw [toList_paddedText, List.length_append, List.length_replicate]
  omega

theorem length_paddedText {width n : Nat} (hw : 0 < width) (h : n < 10 ^ width) :
    (paddedText width n).toList.length = width := by
  have := (Nat.length_toDigits_le_iff (by decide) hw).2 h
  rw [toList_paddedText, List.length_append, List.length_replicate]
  omega

/-! ## Integers -/

theorem readNat?_toDigits (n : Nat) : readNat? (Nat.toDigits 10 n) = some n := by
  rw [readNat?, if_pos ⟨Nat.toDigits_ne_nil, List.all_eq_true.2 fun d => isDigit_toDigits⟩,
    ofDigits_toDigits]

theorem toList_intText (n : Int) :
    (intText n).toList = (if n < 0 then ['-'] else []) ++ Nat.toDigits 10 n.natAbs := by
  rw [intText, natText]
  split
  · rw [String.toList_append, String.toList_ofList]
    simp
  · rw [String.toList_ofList, List.nil_append]

/-- **Integers that are written** are read back. -/
theorem readInt?_intText (n : Int) : readInt? (intText n).toList = some n := by
  rw [toList_intText]
  split
  · rename_i hn
    rw [List.singleton_append, readInt?, readNat?_toDigits]
    refine congrArg some ?_
    dsimp only
    omega
  · rename_i hn
    obtain ⟨d, ds, hds, hd⟩ := toDigits_eq_cons n.natAbs
    have hread := readNat?_toDigits n.natAbs
    rw [hds] at hread
    rw [List.nil_append, hds]
    unfold readInt?
    split
    · rename_i he
      cases he
      cases hd
    · rename_i he
      cases he
      cases hd
    · rw [hread]
      refine congrArg some ?_
      rw [Int.ofNat_eq_natCast]
      omega

theorem readFitting?_intText {width : Nat} {n : Int} (h : fits width n = true) :
    readFitting? width (intText n) = some (Int64.ofInt n) := by
  rw [readFitting?, readInt?_intText]
  exact if_pos h

theorem fits_64 (n : Int64) : fits 64 n.toInt = true := by
  have h1 := n.le_toInt
  have h2 := n.toInt_lt
  simp only [fits, Bool.and_eq_true, decide_eq_true_iff]
  exact ⟨by simpa using h1, by simpa using h2⟩

end Marshal.Number
