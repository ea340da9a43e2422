import Marshal.Proofs.Time.Text

/-!
# Instants between the first and the last second

`Instant.valid_iff`: the instants that exist are those from the first midnight of the calendar until
it ends, in nanoseconds that exceed a second only at the end of a minute. `Instant.text_lossless`:
the text of each of them, before the year 0 and after the year 9999 as well, is read back as the
same instant, and its fraction is the shortest that can be.
-/

namespace Marshal.Time

open Number

/-! ## The ends of the calendar -/

/-- The days of the years before `y` are those before its first of January. -/
theorem Date.Exists.year_lt_iff {d : Date} (h : d.Exists) (y : Int) :
    d.year < y ↔ d.toDays < (⟨y, 1, 1⟩ : Date).toDays := by
  have hfirst : (⟨y, 1, 1⟩ : Date).toDays = daysBefore (y - 1) + 306 - 719468 := by
    have hmonth : (1 : Nat) ≤ 2 := by decide
    rw [toDays_eq, if_pos hmonth, if_pos hmonth]
    dsimp only
    omega
  obtain ⟨hlow, hhigh⟩ := h.toDays_bounds
  rw [hfirst]
  constructor
  · intro hlt
    have := daysBefore_mono (show d.year ≤ y - 1 by omega)
    omega
  · intro hlt
    by_contra hge
    have := daysBefore_mono (show y - 1 ≤ d.year - 1 by omega)
    omega

/-- **The calendar** reaches from the first midnight of its first year to the last of its last. -/
theorem yearInRange_ofDays_iff (days : Int) :
    yearInRange (Date.ofDays days).year = true ↔
      (⟨-262143, 1, 1⟩ : Date).toDays ≤ days ∧ days < (⟨262143, 1, 1⟩ : Date).toDays := by
  obtain ⟨hex, hdays⟩ := Date.ofDays_spec days
  have hfirst := hex.year_lt_iff (-262143)
  have hlast := hex.year_lt_iff 262143
  rw [hdays] at hfirst hlast
  rw [yearInRange_iff]
  omega

theorem Instant.valid_iff {t : Instant} :
    t.Valid ↔ (⟨-262143, 1, 1⟩ : Date).toDays * 86400 ≤ t.seconds ∧
      t.seconds < (⟨262143, 1, 1⟩ : Date).toDays * 86400 ∧ t.nanos < 2000000000 ∧
      (1000000000 ≤ t.nanos → t.seconds % 60 = 59) := by
  have hrange := yearInRange_ofDays_iff (t.seconds / 86400)
  constructor
  · intro h
    have := hrange.1 h.inRange
    exact ⟨by omega, by omega, h.nanos, h.leap⟩
  · rintro ⟨hfirst, hlast, hnanos, hleap⟩
    exact ⟨hrange.2 ⟨by omega, by omega⟩, hnanos, hleap⟩

/-! ## Texts -/

/-- What stands before the fraction of a text has no point in it. -/
theorem Instant.exists_stem (t : Instant) :
    ∃ stem, t.text.toList = stem ++ ((fractionText t.fields.nanos).toList ++ ['Z']) ∧
      '.' ∉ stem := by
  have hpad : ∀ width n, '.' ∉ (paddedText width n).toList := fun width n hdot => by
    have : '.'.isDigit = true := isDigit_paddedText hdot
    simp at this
  have hyear : '.' ∉ (yearText t.fields.year).toList := by
    unfold yearText
    split
    · exact hpad 4 _
    · rw [String.toList_append, List.mem_append, not_or]
      refine ⟨?_, hpad 4 _⟩
      split <;> decide
  refine ⟨(yearText t.fields.year).toList ++ '-' :: ((paddedText 2 t.fields.month).toList ++
    '-' :: ((paddedText 2 t.fields.day).toList ++ 'T' :: ((paddedText 2 t.fields.hour).toList ++
      ':' :: ((paddedText 2 t.fields.minute).toList ++
        ':' :: (paddedText 2 t.fields.second).toList)))), ?_, ?_⟩
  · rw [t.toList_text, tailChars]
    simp only [List.append_assoc, List.cons_append]
  · simp only [List.mem_append, List.mem_cons, not_or]
    exact ⟨hyear, by decide, hpad 2 _, by decide, hpad 2 _, by decide, hpad 2 _, by decide,
      hpad 2 _, by decide, hpad 2 _⟩

/-- **Every instant of the calendar**, leap seconds included, is read back from its text. The
fraction there has three, six or nine digits that lose nothing, and the fewest of these that do. -/
theorem Instant.text_lossless {t : Instant}
    (hfirst : (⟨-262143, 1, 1⟩ : Date).toDays * 86400 ≤ t.seconds)
    (hlast : t.seconds < (⟨262143, 1, 1⟩ : Date).toDays * 86400) (hnanos : t.nanos < 2000000000)
    (hleap : 1000000000 ≤ t.nanos → t.seconds % 60 = 59) :
    Instant.read? t.text = some t ∧
      ∃ stem ds, t.text.toList = stem ++ '.' :: (ds ++ ['Z']) ∧ '.' ∉ stem ∧
        Fraction (t.nanos % 1000000000) ds ∧
        ∀ es, Fraction (t.nanos % 1000000000) es → ds.length ≤ es.length := by
  obtain ⟨stem, htext, hdot⟩ := t.exists_stem
  obtain ⟨ds, hfraction, hds, hleast⟩ :=
    fractionText_spec (show t.nanos % 1000000000 < 1000000000 from Nat.mod_lt _ (by decide))
  have hnanos' : t.fields.nanos = t.nanos % 1000000000 := rfl
  refine ⟨read?_text (valid_iff.2 ⟨hfirst, hlast, hnanos, hleap⟩), stem, ds, ?_, hdot, hds, hleast⟩
  rw [htext, hnanos', hfraction, List.cons_append]

/-- A leap second before the year 0, to the last nanosecond. -/
theorem Instant.leap_text_lossless :
    Instant.text ⟨-62167219201, 1999999999⟩ = "-0001-12-31T23:59:60.999999999Z" ∧
      Instant.read? "-0001-12-31T23:59:60.999999999Z" = some ⟨-62167219201, 1999999999⟩ := by
  have htext : Instant.text ⟨-62167219201, 1999999999⟩ = "-0001-12-31T23:59:60.999999999Z" := by
    decide +kernel
  refine ⟨htext, ?_⟩
  rw [← htext]
  exact (Instant.text_lossless (by decide) (by decide) (by decide) (by decide)).1

end Marshal.Time
