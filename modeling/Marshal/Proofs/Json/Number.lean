import Marshal.Json.Print
import Marshal.Json.Read
import Marshal.Proofs.Number.Integer

/-!
# Integers in JSON texts

`number?_intText`: an integer of 64 bits is read back from its text, whatever follows it in a
document.
-/

namespace Marshal.Json

open Number

/-- What may follow a value in a document: nothing, or a mark that ends it. -/
def Delimited (rest : List Char) : Prop :=
  ∀ c, rest.head? = some c → c = ',' ∨ c = ']' ∨ c = '}'

theorem delimited_nil : Delimited [] := by simp [Delimited]

theorem delimited_cons {c : Char} {rest : List Char} :
    Delimited (c :: rest) ↔ c = ',' ∨ c = ']' ∨ c = '}' := by
  simp [Delimited]

/-- Digits are passed up to what ends a value. -/
theorem takeWhile_isDigit_append {ds rest : List Char} (hd : ∀ d ∈ ds, d.isDigit = true)
    (hr : Delimited rest) :
    (ds ++ rest).takeWhile Char.isDigit = ds ∧ (ds ++ rest).dropWhile Char.isDigit = rest := by
  rw [List.takeWhile_append_of_pos hd, List.dropWhile_append_of_pos hd]
  rcases rest with _ | ⟨c, rest⟩
  · simp
  · have hc : c.isDigit = false := by
      rcases delimited_cons.1 hr with rfl | rfl | rfl <;> rfl
    simp [hc]

/-- Digits whose number fits the significand are all gathered. -/
theorem gather_eq {n : Nat} {ds : List Char}
    (h : ds.foldl (fun n d => 10 * n + digitValue d) n ≤ significandLimit) :
    gather n ds = (ds.foldl (fun n d => 10 * n + digitValue d) n, []) := by
  have hmono : ∀ (ds : List Char) (n : Nat), n ≤ ds.foldl (fun n d => 10 * n + digitValue d) n := by
    intro ds
    induction ds with
    | nil => exact fun n => le_refl n
    | cons d ds ih => exact fun n => le_trans (by omega) (ih (10 * n + digitValue d))
  induction ds generalizing n with
  | nil => rfl
  | cons d ds ih =>
    have hlt := le_trans (hmono ds _) h
    rw [gather, if_neg (Nat.not_lt.2 hlt), ih h]
    rfl

theorem takeWhole?_toDigits (n : Nat) {rest : List Char} (hr : Delimited rest) :
    takeWhole? (Nat.toDigits 10 n ++ rest) = some (Nat.toDigits 10 n, rest) := by
  obtain ⟨ht, hdrop⟩ := takeWhile_isDigit_append (fun d => isDigit_toDigits (n := n)) hr
  have hdigits : takeDigits? (Nat.toDigits 10 n ++ rest) = some (Nat.toDigits 10 n, rest) := by
    unfold takeDigits?
    dsimp only
    rw [ht, hdrop, if_neg Nat.toDigits_ne_nil]
  rw [takeWhole?, hdigits]
  refine if_neg fun ⟨hhead, hlen⟩ => hlen (length_toDigits_of_head? hhead)

theorem takeFraction?_of_delimited {rest : List Char} (hr : Delimited rest) :
    takeFraction? rest = some (none, rest) := by
  unfold takeFraction?
  split
  · rcases delimited_cons.1 hr with h | h | h <;> simp at h
  · rfl

theorem takeExponent?_of_delimited {rest : List Char} (hr : Delimited rest) :
    takeExponent? rest = some (none, rest) := by
  rcases rest with _ | ⟨c, rest⟩
  · rfl
  · have hc : ¬ (c = 'e' ∨ c = 'E') := by
      rcases delimited_cons.1 hr with rfl | rfl | rfl <;> decide
    exact if_neg hc

/-- **An integer of 64 bits** is read back. -/
theorem number?_intText {n : Int} (hn : fits 64 n = true) {rest : List Char}
    (hr : Delimited rest) :
    number? ((intText n).toList ++ rest) = some (.integer n, rest) := by
  have hb : -9223372036854775808 ≤ n ∧ n < 9223372036854775808 := by
    simpa [fits] using hn
  have hgather : gather 0 (Nat.toDigits 10 n.natAbs) = (n.natAbs, []) := by
    have hfold := ofDigits_toDigits n.natAbs
    unfold ofDigits at hfold
    rw [gather_eq, hfold]
    rw [hfold]
    unfold significandLimit
    simp
    omega
  have hparts : takeNumber? ((intText n).toList ++ rest) =
      some (⟨decide (n < 0), Nat.toDigits 10 n.natAbs, none, none⟩, rest) := by
    rw [toList_intText]
    split
    · rename_i hneg
      rw [List.append_assoc, List.singleton_append, takeNumber?]
      simp only [takeWhole?_toDigits _ hr, takeFraction?_of_delimited hr,
        takeExponent?_of_delimited hr, Option.bind_eq_bind, Option.bind_some, hneg, decide_true]
      rfl
    · rename_i hneg
      have hsign : ∀ cs, Nat.toDigits 10 n.natAbs ++ rest ≠ '-' :: cs := by
        intro cs he
        obtain ⟨d, ds, hds, hd⟩ := toDigits_eq_cons n.natAbs
        rw [hds] at he
        obtain ⟨rfl, -⟩ := List.cons.inj he
        cases hd
      rw [List.nil_append, takeNumber?]
      · simp only [takeWhole?_toDigits _ hr, takeFraction?_of_delimited hr,
          takeExponent?_of_delimited hr, Option.bind_eq_bind, Option.bind_some, hneg, decide_false]
        rfl
      · exact hsign
  rw [number?, hparts]
  simp only [Option.bind_eq_bind, Option.bind_some, NumberParts.value?, hgather]
  by_cases hneg : n < 0
  · have hlarge : ¬ (n.natAbs = 0 ∨ Nat.pow 2 63 < n.natAbs) := by
      have : Nat.pow 2 63 = 9223372036854775808 := by decide
      omega
    simp only [hneg, decide_true, if_true, if_neg hlarge, Option.bind_some]
    refine congrArg some (Prod.ext ?_ rfl)
    dsimp only
    congr 1
    omega
  · simp only [hneg, decide_false, Bool.false_eq_true, if_false, Option.bind_some]
    refine congrArg some (Prod.ext ?_ rfl)
    dsimp only
    congr 1
    omega

end Marshal.Json
