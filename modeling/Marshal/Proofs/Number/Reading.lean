import Marshal.Proofs.Number.Decimal
import Marshal.Proofs.Number.Shortest
import Marshal.Proofs.Text.Blank
import Marshal.Wire.Token

/-!
# Doubles are read back

The text of a finite double has no blanks around it, is none of the words for an infinity or for no
number, and spells digits that are rounded to the double. So it is read as the same double, to the
bit (`readFinite?_text`).
-/

namespace Marshal.Number.Double

/-- **The text of a decimal** is read as its digits. -/
theorem readDecimal?_positional (d : Decimal) (negative : Bool) : ∃ whole fraction,
    d.Spelled whole fraction ∧ readDecimal? negative d.positional =
      some (ofDecimal negative (ofDigits (whole ++ fraction)) (-(fraction.length : Nat))) := by
  obtain ⟨whole, fraction, hd⟩ := d.exists_spelled
  have hwhole : ∀ c ∈ whole, c.isDigit = true := fun c hc => hd.digits c (List.mem_append_left _ hc)
  have hfraction : ∀ c ∈ fraction, c.isDigit = true := fun c hc =>
    hd.digits c (List.mem_append_right _ hc)
  refine ⟨whole, fraction, hd, ?_⟩
  rw [hd.text]
  unfold readDecimal?
  dsimp only
  rw [List.takeWhile_append_of_pos hwhole, List.dropWhile_append_of_pos hwhole]
  by_cases hf : fraction = []
  · simp [hf, hd.nonempty, readExponent?]
  · have htake : fraction.takeWhile Char.isDigit = fraction := List.takeWhile_eq_self_iff.2 hfraction
    have hdrop : fraction.dropWhile Char.isDigit = [] := List.dropWhile_eq_nil_iff.2 hfraction
    have hpoint : ('.' : Char).isDigit = false := rfl
    simp [hf, hd.nonempty, hpoint, htake, hdrop, readExponent?]

/-- The characters of a decimal. -/
theorem mem_positional {d : Decimal} {c : Char} (h : c ∈ d.positional) :
    c.isDigit = true ∨ c = '.' := by
  obtain ⟨whole, fraction, hd⟩ := d.exists_spelled
  rw [hd.text, List.mem_append] at h
  rcases h with h | h
  · exact .inl (hd.digits c (List.mem_append_left _ h))
  · split at h
    · cases h
    · rcases List.mem_cons.1 h with h | h
      · exact .inr h
      · exact .inl (hd.digits c (List.mem_append_right _ h))

theorem exists_positional (d : Decimal) :
    ∃ c cs, d.positional = c :: cs ∧ c.isDigit = true := by
  obtain ⟨whole, fraction, hd⟩ := d.exists_spelled
  obtain ⟨c, cs, rfl⟩ := List.exists_cons_of_ne_nil hd.nonempty
  exact ⟨c, _, by rw [hd.text]; rfl, hd.digits c List.mem_cons_self⟩

/-- What begins with a digit is not one of the words. -/
theorem readUnsigned?_of_isDigit {negative : Bool} {c : Char} {cs : List Char}
    (hc : c.isDigit = true) : readUnsigned? negative (c :: cs) = readDecimal? negative (c :: cs) := by
  have hword : ∀ w : Char, w.isDigit = false → ∀ ws,
      String.ofList ((c :: cs).map Char.toLower) ≠ String.ofList (w :: ws) := by
    intro w hw ws h
    have hlist := String.ofList_injective h
    have hhead : c.toLower = w := (List.cons.inj hlist).1
    have hlower : c.toLower = c := by
      simp only [Char.isDigit, Bool.and_eq_true, decide_eq_true_iff] at hc
      have hhi : c.val ≤ 57 := hc.2
      refine dif_neg ?_
      intro hup
      have hlo : (65 : UInt32) ≤ c.val := hup.1
      exact absurd (UInt32.le_trans hlo hhi) (by decide)
    rw [← hhead, hlower, hc] at hw
    cases hw
  unfold readUnsigned?
  dsimp only
  rw [if_neg, if_neg (hword 'n' rfl ['a', 'n'])]
  rintro (h | h)
  · exact hword 'i' rfl ['n', 'f'] h
  · exact hword 'i' rfl ['n', 'f', 'i', 'n', 'i', 't', 'y'] h

/-- **The text of a finite double** is read as the double itself. -/
theorem readFinite?_text {x : Double} (hx : x.isFinite = true) :
    Token.readFinite? x.text = some x := by
  have hnan : x.isNaN = false := by
    have := of_decide_eq_true hx
    exact decide_eq_false (by omega)
  have hread : readDecimal? x.isNegative (x.shortest .up).positional = some x := by
    obtain ⟨whole, fraction, hd, hread⟩ := readDecimal?_positional (x.shortest .up) x.isNegative
    rw [hread, hd.value, hd.length, ofDecimal_shortest hx]
  obtain ⟨c, cs, hcs, hc⟩ := exists_positional (x.shortest .up)
  have htext : x.text.toList = (if x.isNegative then ['-'] else []) ++ (x.shortest .up).positional := by
    rw [text, hnan, hx]
    cases x.isNegative <;> simp
  have hblank : ∀ e ∈ x.text.toList, Text.isBlank e = false := by
    intro e he
    rw [htext, List.mem_append] at he
    rcases he with he | he
    · split at he
      · rw [List.mem_singleton.1 he]
        rfl
      · cases he
    · rcases mem_positional he with he | rfl
      · exact Text.isBlank_of_isDigit he
      · rfl
  have htrim : Text.trim x.text = x.text :=
    Text.trim_of_ends (fun e he => hblank e (List.mem_of_head? he))
      fun e he => hblank e (List.mem_of_getLast? he)
  refine Option.filter_eq_some_iff.2 ⟨?_, hx⟩
  rw [htrim, read?, htext, ← hread, hcs]
  cases hneg : x.isNegative with
  | true => exact readUnsigned?_of_isDigit hc
  | false =>
    rw [if_neg Bool.false_ne_true, List.nil_append]
    split
    · rename_i h
      obtain ⟨rfl, -⟩ := List.cons.inj h
      cases hc
    · rename_i h
      obtain ⟨rfl, -⟩ := List.cons.inj h
      cases hc
    · exact readUnsigned?_of_isDigit hc

end Marshal.Number.Double
