import Marshal.Proofs.Json.Number
import Marshal.Proofs.Number.Decimal

/-!
# Doubles in JSON texts

A double is not always read back to the bit, and one that comes out infinite is refused. But its
text is a number of the grammar, and reading it takes all of it and nothing of what follows
(`number?_doubleText`).
-/

namespace Marshal.Json

open Number

variable {whole fraction ds rest : List Char}

/-- A text that does not go on with a digit. -/
def Stops (rest : List Char) : Prop := ∀ c, rest.head? = some c → c.isDigit = false

theorem stops_of_delimited (hr : Delimited rest) : Stops rest := by
  intro c hc
  rcases hr c hc with rfl | rfl | rfl <;> rfl

theorem takeDigits?_append (hd : ∀ c ∈ ds, c.isDigit = true) (hne : ds ≠ []) (hr : Stops rest) :
    takeDigits? (ds ++ rest) = some (ds, rest) := by
  have hstop : rest.takeWhile Char.isDigit = [] ∧ rest.dropWhile Char.isDigit = rest := by
    rcases rest with _ | ⟨c, rest⟩
    · simp
    · simp [hr c rfl]
  unfold takeDigits?
  dsimp only
  rw [List.takeWhile_append_of_pos hd, List.dropWhile_append_of_pos hd, hstop.1, hstop.2,
    List.append_nil, if_neg hne]

/-- What a number of the grammar is made of. -/
structure Numeral (whole fraction exponent : List Char) : Prop where
  digits : ∀ c ∈ whole, c.isDigit = true
  nonempty : whole ≠ []
  zero : whole.head? = some '0' → whole.length = 1
  fractionDigits : ∀ c ∈ fraction, c.isDigit = true
  exponentDigits : ∀ c ∈ exponent, c.isDigit = true

/-- The part of a number behind its point. -/
def fractionPart (fraction : List Char) : List Char := if fraction = [] then [] else '.' :: fraction

/-- The exponent of a number. -/
def exponentPart (below : Bool) (exponent : List Char) : List Char :=
  if exponent = [] then [] else 'e' :: (if below then '-' else '+') :: exponent

theorem takeFraction?_fractionPart (hd : ∀ c ∈ fraction, c.isDigit = true) (hr : Stops rest)
    (hpoint : rest.head? ≠ some '.') :
    ∃ f, takeFraction? (fractionPart fraction ++ rest) = some (f, rest) := by
  rw [fractionPart]
  split
  · refine ⟨none, ?_⟩
    rw [List.nil_append]
    unfold takeFraction?
    split
    · simp at hpoint
    · rfl
  · rename_i hne
    refine ⟨some fraction, ?_⟩
    rw [List.cons_append, takeFraction?, takeDigits?_append hd hne hr]
    rfl

theorem takeExponent?_exponentPart {exponent : List Char} {below : Bool}
    (hd : ∀ c ∈ exponent, c.isDigit = true) (hr : Delimited rest) :
    ∃ e, takeExponent? (exponentPart below exponent ++ rest) = some (e, rest) := by
  rw [exponentPart]
  split
  · exact ⟨none, takeExponent?_of_delimited hr⟩
  · rename_i hne
    refine ⟨some (below, exponent), ?_⟩
    have htake := takeDigits?_append hd hne (stops_of_delimited hr)
    cases below <;>
    · simp only [List.cons_append, takeExponent?, Bool.false_eq_true, if_false, if_true, true_or]
      rw [htake]
      rfl

/-- **A number of the grammar is taken whole.** -/
theorem takeNumber?_numeral {exponent : List Char} (h : Numeral whole fraction exponent)
    (negative below : Bool) (hr : Delimited rest) :
    ∃ parts, takeNumber? ((if negative then ['-'] else []) ++
      (whole ++ (fractionPart fraction ++ (exponentPart below exponent ++ rest)))) =
        some (parts, rest) := by
  have hexponent : Stops (exponentPart below exponent ++ rest) ∧
      (exponentPart below exponent ++ rest).head? ≠ some '.' := by
    rw [exponentPart]
    split
    · refine ⟨stops_of_delimited hr, fun hc => ?_⟩
      rcases hr _ hc with hc | hc | hc <;> cases hc
    · exact ⟨fun c hc => by rw [← Option.some.inj hc]; rfl, by simp⟩
  have hfraction : Stops (fractionPart fraction ++ (exponentPart below exponent ++ rest)) := by
    rw [fractionPart]
    split
    · exact hexponent.1
    · exact fun c hc => by rw [← Option.some.inj hc]; rfl
  have hwhole : takeWhole? (whole ++ (fractionPart fraction ++ (exponentPart below exponent ++ rest))) =
      some (whole, fractionPart fraction ++ (exponentPart below exponent ++ rest)) := by
    rw [takeWhole?, takeDigits?_append h.digits h.nonempty hfraction]
    exact if_neg fun hz => hz.2 (h.zero hz.1)
  obtain ⟨f, hf⟩ := takeFraction?_fractionPart h.fractionDigits hexponent.1 hexponent.2
  obtain ⟨e, he⟩ := @takeExponent?_exponentPart rest exponent below h.exponentDigits hr
  cases negative with
  | true =>
    refine ⟨⟨true, whole, f, e⟩, ?_⟩
    rw [if_pos rfl, List.singleton_append, takeNumber?]
    simp only [hwhole, hf, he, Option.bind_eq_bind, Option.bind_some]
    rfl
  | false =>
    refine ⟨⟨false, whole, f, e⟩, ?_⟩
    rw [if_neg Bool.false_ne_true, List.nil_append, takeNumber?]
    · simp only [hwhole, hf, he, Option.bind_eq_bind, Option.bind_some]
      rfl
    · intro cs hcs
      obtain ⟨c, cs', rfl⟩ := List.exists_cons_of_ne_nil h.nonempty
      obtain ⟨rfl, -⟩ := List.cons.inj hcs
      cases h.digits _ List.mem_cons_self

/-- The text of a decimal is a number of the grammar. -/
theorem exists_numeral (d : Decimal) : ∃ whole fraction below exponent,
    Numeral whole fraction exponent ∧
      decimalText d = whole ++ (fractionPart fraction ++ exponentPart below exponent) := by
  obtain ⟨whole, fraction, hd⟩ := d.exists_spelled
  have hwhole : ∀ c ∈ whole, c.isDigit = true := fun c hc => hd.digits c (List.mem_append_left _ hc)
  have hfraction : ∀ c ∈ fraction, c.isDigit = true := fun c hc =>
    hd.digits c (List.mem_append_right _ hc)
  have hds : ∀ c ∈ Nat.toDigits 10 d.digits, c.isDigit = true := fun c => isDigit_toDigits
  unfold decimalText
  dsimp only
  by_cases hz : d.digits = 0
  · rw [if_pos hz]
    exact ⟨['0'], ['0'], false, [], ⟨by simp, by simp, by simp, by simp, by simp⟩, rfl⟩
  · rw [if_neg hz]
    split
    · split
      · rename_i he
        have hnil : fraction = [] := by
          rw [← List.length_eq_zero_iff, hd.length]
          omega
        refine ⟨whole, ['0'], false, [], ⟨hwhole, hd.nonempty, hd.zero hz, by simp, by simp⟩, ?_⟩
        rw [hd.text, if_pos hnil, List.append_nil]
        rfl
      · refine ⟨whole, fraction, false, [], ⟨hwhole, hd.nonempty, hd.zero hz, hfraction, by simp⟩, ?_⟩
        rw [hd.text, exponentPart, if_pos rfl, List.append_nil]
        rfl
    · obtain ⟨c, cs, hcs, hc⟩ := toDigits_eq_cons d.digits
      rw [hcs] at hds ⊢
      refine ⟨[c], cs, decide (d.exponent + (c :: cs).length - 1 < 0),
        Nat.toDigits 10 (d.exponent + (c :: cs).length - 1).natAbs,
        ⟨by simpa using hc, by simp, by simp, fun e he => hds e (List.mem_cons_of_mem _ he),
          fun e => isDigit_toDigits⟩, ?_⟩
      rw [exponentPart, if_neg Nat.toDigits_ne_nil]
      simp [fractionPart]

theorem isDigit_or_minus_doubleText (x : Double) :
    ∃ c cs, (doubleText x).toList = c :: cs ∧ (c = '-' ∨ c.isDigit = true) := by
  obtain ⟨whole, fraction, below, exponent, h, he⟩ := exists_numeral (x.shortest .toEven)
  obtain ⟨c, cs, rfl⟩ := List.exists_cons_of_ne_nil h.nonempty
  rw [doubleText, he, String.toList_append, String.toList_ofList]
  cases x.isNegative with
  | true => exact ⟨'-', _, rfl, .inl rfl⟩
  | false => exact ⟨c, _, rfl, .inr (h.digits c List.mem_cons_self)⟩

/-- Whether a tree is a number. -/
def isNumber : Json → Bool
  | .integer _ => true
  | .float _ => true
  | _ => false

theorem isNumber_of_value? {parts : NumberParts} {j : Json} (h : parts.value? = some j) :
    j.isNumber = true := by
  unfold NumberParts.value? at h
  dsimp only at h
  split at h
  · split at h
    · split at h <;>
      · rw [← Option.some.inj h]
        rfl
    · rw [← Option.some.inj h]
      rfl
  · obtain ⟨y, -, rfl⟩ := Option.map_eq_some_iff.1 h
    rfl

/-- **The text of a double is taken whole**, and where it is read it is read as a number. -/
theorem number?_doubleText (x : Double) (hr : Delimited rest) {j : Json} {rest' : List Char}
    (h : number? ((doubleText x).toList ++ rest) = some (j, rest')) :
    rest' = rest ∧ j.isNumber = true := by
  obtain ⟨whole, fraction, below, exponent, hnum, he⟩ := exists_numeral (x.shortest .toEven)
  obtain ⟨parts, hparts⟩ := takeNumber?_numeral hnum x.isNegative below hr
  have htext : (doubleText x).toList ++ rest = (if x.isNegative then ['-'] else []) ++
      (whole ++ (fractionPart fraction ++ (exponentPart below exponent ++ rest))) := by
    rw [doubleText, he, String.toList_append, String.toList_ofList]
    cases x.isNegative <;> simp
  rw [htext, number?, hparts, Option.bind_eq_bind, Option.bind_some] at h
  obtain ⟨j', hj', h⟩ := Option.bind_eq_some_iff.1 h
  cases h
  exact ⟨rfl, isNumber_of_value? hj'⟩

end Marshal.Json
