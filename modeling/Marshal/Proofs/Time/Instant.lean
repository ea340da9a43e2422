import Marshal.Proofs.Number.Integer
import Marshal.Proofs.Time.Civil
import Marshal.Time.Instant

/-!
# Instants that exist

`Instant.read?_valid`: every instant that is read from a text lies in the calendar.
-/

namespace Marshal.Time

open Number

/-- An instant that exists: its day lies in the calendar, and what exceeds a second is a leap second,
at the end of a minute. -/
structure Instant.Valid (t : Instant) : Prop where
  inRange : yearInRange (Date.ofDays (t.seconds / 86400)).year = true
  nanos : t.nanos < 2000000000
  leap : 1000000000 ≤ t.nanos → t.seconds % 60 = 59

/-! ## Fields -/

/-- Digits at the front of a text, of which at most `most` are looked at. -/
theorem length_frontDigits_le (most : Nat) (cs : List Char) :
    ((cs.take most).takeWhile Char.isDigit).length ≤ most :=
  le_trans (List.takeWhile_sublist _).length_le (List.length_take_le _ _)

theorem digits?_lt {least most : Nat} {cs rest : List Char} {n : Nat}
    (h : digits? least most cs = some (n, rest)) : n < 10 ^ most := by
  unfold digits? at h
  dsimp only at h
  split at h
  · obtain ⟨rfl, -⟩ := Prod.mk.inj (Option.some.inj h)
    refine lt_of_lt_of_le (ofDigits_lt fun d => List.mem_takeWhile_imp) ?_
    exact Nat.pow_le_pow_right (by decide) (length_frontDigits_le most cs)
  · cases h

theorem fraction?_lt {cs rest : List Char} {n : Nat} (h : fraction? cs = some (n, rest)) :
    n < 1000000000 := by
  unfold fraction? at h
  split at h
  · rename_i cs
    dsimp only at h
    split at h
    · cases h
    · obtain ⟨rfl, -⟩ := Prod.mk.inj (Option.some.inj h)
      have hlen := length_frontDigits_le 9 cs
      have hlt : ofDigits ((cs.take 9).takeWhile Char.isDigit) < _ :=
        ofDigits_lt fun d => List.mem_takeWhile_imp
      generalize (cs.take 9).takeWhile Char.isDigit = ds at *
      calc _ < 10 ^ ds.length * 10 ^ (9 - ds.length) :=
            Nat.mul_lt_mul_of_pos_right hlt (Nat.pow_pos (by decide))
        _ = 10 ^ 9 := by rw [← Nat.pow_add]; congr 1; omega
        _ = 1000000000 := by decide
  · obtain ⟨rfl, -⟩ := Prod.mk.inj (Option.some.inj h)
    decide

/-- An offset is a number of minutes within a day. -/
theorem offset?_spec {cs rest : List Char} {z : Int} (h : offset? cs = some (z, rest)) :
    z % 60 = 0 ∧ -86400 < z ∧ z < 86400 := by
  unfold offset? at h
  split at h
  · cases h
  · rename_i c cs
    split at h
    · obtain ⟨rfl, -⟩ := Prod.mk.inj (Option.some.inj h)
      decide
    · split at h
      · obtain ⟨⟨hours, cs₁⟩, -, h⟩ := Option.bind_eq_some_iff.1 h
        obtain ⟨cs₂, -, h⟩ := Option.bind_eq_some_iff.1 h
        obtain ⟨⟨minutes, cs₃⟩, -, h⟩ := Option.bind_eq_some_iff.1 h
        dsimp only at h
        split at h
        · obtain ⟨rfl, -⟩ := Prod.mk.inj (Option.some.inj h)
          split <;> omega
        · cases h
      · cases h

/-- Days that lie close together have years that lie close together. -/
theorem Date.Exists.year_le {d e : Date} (hd : d.Exists) (he : e.Exists) {k : Nat}
    (h : d.toDays ≤ e.toDays + 365 * k) : d.year ≤ e.year + k := by
  by_contra hlt
  have hmono := daysBefore_mono (show e.year ≤ d.year - 1 by omega)
  have := hd.toDays_bounds.1
  have := he.toDays_bounds.2
  omega

theorem yearInRange_iff {y : Int} : yearInRange y = true ↔ -262143 ≤ y ∧ y ≤ 262142 := by
  simp [yearInRange]

/-- **Fields that denote an instant** denote one that exists, unless an offset moves it out of the
calendar. -/
theorem Fields.instant?_valid {f : Fields} {offset : Int} {t : Instant}
    (h : f.instant? offset = some t) (hn : f.nanos < 1000000000)
    (ho : offset % 60 = 0 ∧ -86400 < offset ∧ offset < 86400)
    (hy : offset = 0 ∨ (0 ≤ f.year ∧ f.year < 10000)) : t.Valid := by
  unfold instant? at h
  dsimp only at h
  split at h
  · rename_i hf
    obtain ⟨hdate, hhour, hminute, hsecond⟩ := hf
    obtain ⟨hrange, hex⟩ := Date.isValid_iff.1 hdate
    obtain rfl := Option.some.inj h
    rw [yearInRange_iff] at hrange
    generalize hd : (⟨f.year, f.month, f.day⟩ : Date) = d at *
    have hyear : d.year = f.year := by rw [← hd]
    obtain ⟨hex', hdays⟩ := Date.ofDays_spec ((d.toDays * 86400 + (f.hour * 3600 + f.minute * 60 +
      (if f.second = 60 then 59 else f.second) : Nat) - offset) / 86400)
    refine ⟨?_, ?_, ?_⟩
    · rw [yearInRange_iff]
      dsimp only
      rcases hy with rfl | hy
      · have hle := hex'.year_le hex (k := 0) (by rw [hdays]; split <;> omega)
        have hge := hex.year_le hex' (k := 0) (by rw [hdays]; split <;> omega)
        omega
      · have hle := hex'.year_le hex (k := 1) (by rw [hdays]; split <;> omega)
        have hge := hex.year_le hex' (k := 1) (by rw [hdays]; split <;> omega)
        omega
    · dsimp only
      split <;> omega
    · dsimp only
      intro hleap
      split at hleap
      · rename_i hs
        rw [if_pos hs]
        omega
      · omega
  · cases h

/-! ## Texts -/

theorem readFixed?_valid {cs : List Char} {t : Instant} (h : readFixed? cs = some t) : t.Valid := by
  obtain ⟨⟨year, cs⟩, hyear, h⟩ := Option.bind_eq_some_iff.1 h
  obtain ⟨cs, -, h⟩ := Option.bind_eq_some_iff.1 h
  obtain ⟨⟨month, cs⟩, -, h⟩ := Option.bind_eq_some_iff.1 h
  obtain ⟨cs, -, h⟩ := Option.bind_eq_some_iff.1 h
  obtain ⟨⟨day, cs⟩, -, h⟩ := Option.bind_eq_some_iff.1 h
  obtain ⟨cs, -, h⟩ := Option.bind_eq_some_iff.1 h
  obtain ⟨⟨hour, cs⟩, -, h⟩ := Option.bind_eq_some_iff.1 h
  obtain ⟨cs, -, h⟩ := Option.bind_eq_some_iff.1 h
  obtain ⟨⟨minute, cs⟩, -, h⟩ := Option.bind_eq_some_iff.1 h
  obtain ⟨cs, -, h⟩ := Option.bind_eq_some_iff.1 h
  obtain ⟨⟨second, cs⟩, -, h⟩ := Option.bind_eq_some_iff.1 h
  obtain ⟨⟨nanos, cs⟩, hnanos, h⟩ := Option.bind_eq_some_iff.1 h
  obtain ⟨⟨offset, cs⟩, hoffset, h⟩ := Option.bind_eq_some_iff.1 h
  dsimp only at h
  split at h
  · refine Fields.instant?_valid h (fraction?_lt hnanos) (offset?_spec hoffset) (.inr ?_)
    have := digits?_lt hyear
    dsimp only
    omega
  · cases h

theorem readLoose?_valid {cs : List Char} {t : Instant} (h : readLoose? cs = some t) : t.Valid := by
  obtain ⟨⟨year, cs⟩, -, h⟩ := Option.bind_eq_some_iff.1 h
  obtain ⟨cs, -, h⟩ := Option.bind_eq_some_iff.1 h
  obtain ⟨⟨month, cs⟩, -, h⟩ := Option.bind_eq_some_iff.1 h
  obtain ⟨cs, -, h⟩ := Option.bind_eq_some_iff.1 h
  obtain ⟨⟨day, cs⟩, -, h⟩ := Option.bind_eq_some_iff.1 h
  obtain ⟨cs, -, h⟩ := Option.bind_eq_some_iff.1 h
  obtain ⟨⟨hour, cs⟩, -, h⟩ := Option.bind_eq_some_iff.1 h
  obtain ⟨cs, -, h⟩ := Option.bind_eq_some_iff.1 h
  obtain ⟨⟨minute, cs⟩, -, h⟩ := Option.bind_eq_some_iff.1 h
  obtain ⟨cs, -, h⟩ := Option.bind_eq_some_iff.1 h
  obtain ⟨⟨second, cs⟩, -, h⟩ := Option.bind_eq_some_iff.1 h
  obtain ⟨⟨nanos, cs⟩, hnanos, h⟩ := Option.bind_eq_some_iff.1 h
  obtain ⟨cs, -, h⟩ := Option.bind_eq_some_iff.1 h
  split at h
  · exact Fields.instant?_valid h (fraction?_lt hnanos) (by decide) (.inl rfl)
  · cases h

/-- **An instant that is read exists.** -/
theorem Instant.read?_valid {s : String} {t : Instant} (h : Instant.read? s = some t) :
    t.Valid := by
  unfold Instant.read? at h
  rcases hf : readFixed? s.toList with _ | u
  · rw [hf] at h
    exact readLoose?_valid h
  · rw [hf] at h
    obtain rfl := Option.some.inj h
    exact readFixed?_valid hf

end Marshal.Time
