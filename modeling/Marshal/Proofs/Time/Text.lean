import Marshal.Proofs.Text.Blank
import Marshal.Proofs.Time.Instant

/-!
# Texts of instants

`Instant.read?_text`: an instant that exists is read back from its text. Years from 0 to 9999 are
read in the form of fixed width, others in the loose form.
-/

namespace Marshal.Time

open Number

/-! ## Fields -/

/-- Digits up to what is no digit, or as many as are looked at. -/
theorem digits?_append {least most : Nat} {ds rest : List Char}
    (hd : ∀ d ∈ ds, d.isDigit = true) (hl : least ≤ ds.length) (hm : ds.length ≤ most)
    (hr : ∀ c, rest.head? = some c → c.isDigit = false) :
    digits? least most (ds ++ rest) = some (ofDigits ds, rest) := by
  have htake : ((ds ++ rest).take most).takeWhile Char.isDigit = ds := by
    rw [List.take_append, List.take_of_length_le hm, List.takeWhile_append_of_pos hd]
    rcases hrest : rest.take (most - ds.length) with _ | ⟨c, cs⟩
    · rw [List.takeWhile_nil, List.append_nil]
    · have hc : c.isDigit = false := by
        rcases rest with _ | ⟨c', rest⟩
        · simp at hrest
        · obtain ⟨k, hk⟩ : ∃ k, most - ds.length = k + 1 :=
            Nat.exists_eq_succ_of_ne_zero fun h0 => by simp [h0] at hrest
          rw [hk, List.take_succ_cons] at hrest
          obtain ⟨rfl, -⟩ := List.cons.inj hrest
          exact hr _ rfl
      rw [List.takeWhile_cons_of_neg (by simp [hc]), List.append_nil]
  unfold digits?
  rw [htake]
  dsimp only
  rw [if_pos hl, List.drop_left]

/-- A padded number of the width that is read. -/
theorem digits?_paddedText {least width n : Nat} (hw : 0 < width) (hn : n < 10 ^ width)
    (hl : least ≤ width) {rest : List Char} (hr : ∀ c, rest.head? = some c → c.isDigit = false) :
    digits? least width ((paddedText width n).toList ++ rest) = some (n, rest) := by
  have hlen := length_paddedText hw hn
  rw [digits?_append (fun d => isDigit_paddedText) (by omega) (by omega) hr, ofDigits_paddedText]

theorem not_isDigit_head? {c : Char} {cs : List Char} (hc : c.isDigit = false) :
    ∀ d, (c :: cs).head? = some d → d.isDigit = false := by
  rintro d hd
  rwa [← Option.some.inj hd]

theorem head?_paddedText {width n : Nat} (rest : List Char) {c : Char}
    (h : ((paddedText width n).toList ++ rest).head? = some c) : c.isDigit = true := by
  rcases hp : (paddedText width n).toList with _ | ⟨d, ds⟩
  · rw [toList_paddedText, List.append_eq_nil_iff] at hp
    exact absurd hp.2 Nat.toDigits_ne_nil
  · rw [hp] at h
    obtain rfl := Option.some.inj h
    exact isDigit_paddedText (hp ▸ List.mem_cons_self)

theorem dropBlank_paddedText (width n : Nat) (rest : List Char) :
    Text.dropBlank ((paddedText width n).toList ++ rest) = (paddedText width n).toList ++ rest :=
  Text.dropBlank_of_head fun _ hc => Text.isBlank_of_isDigit (head?_paddedText rest hc)

theorem loosePair?_paddedText {n : Nat} (hn : n < 100) {rest : List Char}
    (hr : ∀ c, rest.head? = some c → c.isDigit = false) :
    loosePair? ((paddedText 2 n).toList ++ rest) = some (n, rest) := by
  rw [loosePair?, dropBlank_paddedText, digits?_paddedText (by decide) hn (by decide) hr]

/-- The digits of a fraction that stand for a number of nanoseconds and lose none of it. -/
structure Fraction (nanos : Nat) (ds : List Char) : Prop where
  digits : ∀ d ∈ ds, d.isDigit = true
  width : ds.length = 3 ∨ ds.length = 6 ∨ ds.length = 9
  value : ofDigits ds * 10 ^ (9 - ds.length) = nanos

theorem Fraction.of_paddedText {nanos width : Nat} (hw : width = 3 ∨ width = 6 ∨ width = 9)
    (h : nanos < 1000000000) (hn : 10 ^ (9 - width) ∣ nanos) :
    Fraction nanos (paddedText width (nanos / 10 ^ (9 - width))).toList := by
  have hlen : (paddedText width (nanos / 10 ^ (9 - width))).toList.length = width := by
    refine length_paddedText (by omega) ?_
    rcases hw with rfl | rfl | rfl <;> omega
  refine ⟨fun d => isDigit_paddedText, by rw [hlen]; exact hw, ?_⟩
  rw [ofDigits_paddedText, hlen, Nat.div_mul_cancel hn]

/-- A fraction of few digits leaves zeros at the end of the nanoseconds. -/
theorem Fraction.dvd {nanos : Nat} {ds : List Char} (h : Fraction nanos ds) :
    10 ^ (9 - ds.length) ∣ nanos := ⟨_, (Nat.mul_comm _ _ ▸ h.value).symm⟩

/-- **The fraction of a text** loses nothing, and no shorter one does. -/
theorem fractionText_spec {nanos : Nat} (h : nanos < 1000000000) :
    ∃ ds, (fractionText nanos).toList = '.' :: ds ∧ Fraction nanos ds ∧
      ∀ es, Fraction nanos es → ds.length ≤ es.length := by
  have hpad : ∀ width, width = 3 ∨ width = 6 ∨ width = 9 → 10 ^ (9 - width) ∣ nanos →
      (∀ es, Fraction nanos es → width ≤ es.length) →
      (fractionText nanos).toList = '.' :: (paddedText width (nanos / 10 ^ (9 - width))).toList →
      ∃ ds, (fractionText nanos).toList = '.' :: ds ∧ Fraction nanos ds ∧
        ∀ es, Fraction nanos es → ds.length ≤ es.length := by
    intro width hw hn hleast htext
    refine ⟨_, htext, .of_paddedText hw h hn, fun es hes => ?_⟩
    rw [length_paddedText (by omega) (by rcases hw with rfl | rfl | rfl <;> omega)]
    exact hleast es hes
  by_cases hmilli : nanos % 1000000 = 0
  · refine hpad 3 (.inl rfl) (Nat.dvd_of_mod_eq_zero hmilli) (fun es hes => ?_) ?_
    · have := hes.width
      omega
    · rw [fractionText, if_pos hmilli, String.toList_append]
      rfl
  · have hthree : ∀ es, Fraction nanos es → es.length ≠ 3 := fun es hes hlen =>
      hmilli (Nat.mod_eq_zero_of_dvd (show 10 ^ (9 - 3) ∣ nanos from hlen ▸ hes.dvd))
    by_cases hmicro : nanos % 1000 = 0
    · refine hpad 6 (.inr (.inl rfl)) (Nat.dvd_of_mod_eq_zero hmicro) (fun es hes => ?_) ?_
      · have := hes.width
        have := hthree es hes
        omega
      · rw [fractionText, if_neg hmilli, if_pos hmicro, String.toList_append]
        rfl
    · have hsix : ∀ es, Fraction nanos es → es.length ≠ 6 := fun es hes hlen =>
        hmicro (Nat.mod_eq_zero_of_dvd (show 10 ^ (9 - 6) ∣ nanos from hlen ▸ hes.dvd))
      refine hpad 9 (.inr (.inr rfl)) (one_dvd nanos) (fun es hes => ?_) ?_
      · have := hes.width
        have := hthree es hes
        have := hsix es hes
        omega
      · rw [fractionText, if_neg hmilli, if_neg hmicro, String.toList_append, Nat.sub_self,
          Nat.pow_zero, Nat.div_one]
        rfl

theorem fraction?_fractionText {nanos : Nat} (h : nanos < 1000000000) :
    fraction? ((fractionText nanos).toList ++ ['Z']) = some (nanos, ['Z']) := by
  obtain ⟨ds, htext, ⟨hd, hwidth, hval⟩, -⟩ := fractionText_spec h
  have hlen : ds.length ≤ 9 := by omega
  have hne : ds ≠ [] := fun h0 => by simp [h0] at hwidth
  have htake : ((ds ++ ['Z']).take 9).takeWhile Char.isDigit = ds := by
    rw [List.take_append, List.take_of_length_le hlen, List.takeWhile_append_of_pos hd]
    rcases 9 - ds.length with _ | k <;> simp
  rw [htext, List.cons_append, fraction?, htake, if_neg hne, List.drop_left]
  exact congrArg (fun n => some (n, ['Z'])) hval

/-! ## Texts -/

/-- The characters of the text after the year. -/
def tailChars (month day hour minute second nanos : Nat) : List Char :=
  '-' :: ((paddedText 2 month).toList ++ '-' :: ((paddedText 2 day).toList ++
    'T' :: ((paddedText 2 hour).toList ++ ':' :: ((paddedText 2 minute).toList ++
      ':' :: ((paddedText 2 second).toList ++ ((fractionText nanos).toList ++ ['Z']))))))

variable {year : Int} {month day hour minute second nanos : Nat}

theorem head?_fractionText (nanos : Nat) (rest : List Char) :
    ∀ c, ((fractionText nanos).toList ++ rest).head? = some c → c.isDigit = false := by
  intro c hc
  rw [fractionText, String.toList_append] at hc
  obtain rfl := Option.some.inj hc
  rfl

/-- A step of a reader that succeeds. -/
theorem bind_of_eq_some {α β : Type} {x : Option α} {a : α} {f : α → Option β} (h : x = some a) :
    x >>= f = f a := by
  rw [h]
  rfl

/-- The form of fixed width. -/
theorem readFixed?_tailChars {y : Nat} (hy : y < 10000) (hmonth : month < 100) (hday : day < 100)
    (hhour : hour < 100) (hminute : minute < 100) (hsecond : second < 100)
    (hnanos : nanos < 1000000000) :
    readFixed? ((paddedText 4 y).toList ++ tailChars month day hour minute second nanos) =
      Fields.instant? ⟨y, month, day, hour, minute, second, nanos⟩ 0 := by
  have hpair : ∀ {n : Nat} {rest : List Char}, n < 100 →
      (∀ c, rest.head? = some c → c.isDigit = false) →
      digits? 2 2 ((paddedText 2 n).toList ++ rest) = some (n, rest) :=
    fun hn hr => digits?_paddedText (by decide) hn (by decide) hr
  have hyear : ∀ cs, digits? 4 4 ((paddedText 4 y).toList ++ '-' :: cs) = some (y, '-' :: cs) :=
    fun cs => digits?_paddedText (by decide) hy (by decide) (not_isDigit_head? rfl)
  have hminus : ∀ cs d, ('-' :: cs).head? = some d → d.isDigit = false :=
    fun _ => not_isDigit_head? rfl
  have hseparated : ∀ cs d, ('T' :: cs).head? = some d → d.isDigit = false :=
    fun _ => not_isDigit_head? rfl
  have hcolon : ∀ cs d, (':' :: cs).head? = some d → d.isDigit = false :=
    fun _ => not_isDigit_head? rfl
  have hliteral : ∀ c cs, literal? c (c :: cs) = some cs := fun c cs => if_pos rfl
  have hseparator : ∀ cs, separator? ('T' :: cs) = some cs := fun cs => rfl
  have hoffset : offset? ['Z'] = some (0, []) := rfl
  refine (bind_of_eq_some (hyear _)).trans ?_
  refine (bind_of_eq_some (hliteral _ _)).trans ?_
  refine (bind_of_eq_some (hpair hmonth (hminus _))).trans ?_
  refine (bind_of_eq_some (hliteral _ _)).trans ?_
  refine (bind_of_eq_some (hpair hday (hseparated _))).trans ?_
  refine (bind_of_eq_some (hseparator _)).trans ?_
  refine (bind_of_eq_some (hpair hhour (hcolon _))).trans ?_
  refine (bind_of_eq_some (hliteral _ _)).trans ?_
  refine (bind_of_eq_some (hpair hminute (hcolon _))).trans ?_
  refine (bind_of_eq_some (hliteral _ _)).trans ?_
  refine (bind_of_eq_some (hpair hsecond (head?_fractionText nanos _))).trans ?_
  refine (bind_of_eq_some (fraction?_fractionText hnanos)).trans ?_
  exact (bind_of_eq_some hoffset).trans (if_pos rfl)

/-- The loose form, after a year that is read. -/
theorem readLoose?_tailChars {cs : List Char}
    (hyear : looseYear? cs = some (year, tailChars month day hour minute second nanos))
    (hmonth : month < 100) (hday : day < 100) (hhour : hour < 100) (hminute : minute < 100)
    (hsecond : second < 100) (hnanos : nanos < 1000000000) :
    readLoose? cs = Fields.instant? ⟨year, month, day, hour, minute, second, nanos⟩ 0 := by
  have hminus : ∀ cs d, ('-' :: cs).head? = some d → d.isDigit = false :=
    fun _ => not_isDigit_head? rfl
  have hseparated : ∀ cs d, ('T' :: cs).head? = some d → d.isDigit = false :=
    fun _ => not_isDigit_head? rfl
  have hcolon : ∀ cs d, (':' :: cs).head? = some d → d.isDigit = false :=
    fun _ => not_isDigit_head? rfl
  have hliteral : ∀ c cs, literal? c (c :: cs) = some cs := fun c cs => if_pos rfl
  refine (bind_of_eq_some hyear).trans ?_
  refine (bind_of_eq_some (hliteral _ _)).trans ?_
  refine (bind_of_eq_some (loosePair?_paddedText hmonth (hminus _))).trans ?_
  refine (bind_of_eq_some (hliteral _ _)).trans ?_
  refine (bind_of_eq_some (loosePair?_paddedText hday (hseparated _))).trans ?_
  refine (bind_of_eq_some (hliteral _ _)).trans ?_
  refine (bind_of_eq_some (loosePair?_paddedText hhour (hcolon _))).trans ?_
  refine (bind_of_eq_some (hliteral _ _)).trans ?_
  refine (bind_of_eq_some (loosePair?_paddedText hminute (hcolon _))).trans ?_
  refine (bind_of_eq_some (hliteral _ _)).trans ?_
  refine (bind_of_eq_some (loosePair?_paddedText hsecond (head?_fractionText nanos _))).trans ?_
  refine (bind_of_eq_some (fraction?_fractionText hnanos)).trans ?_
  exact (bind_of_eq_some (hliteral _ _)).trans (if_pos rfl)

/-! ## Instants -/

/-- A year outside of the four digits is read after its sign. -/
theorem looseYear?_yearText {y : Int} (hy : ¬ (0 ≤ y ∧ y ≤ 9999)) {rest : List Char}
    (hr : ∀ c, rest.head? = some c → c.isDigit = false) :
    looseYear? ((yearText y).toList ++ rest) = some (y, rest) := by
  have hdigits : digits? 1 ((paddedText 4 y.natAbs).toList ++ rest).length
      ((paddedText 4 y.natAbs).toList ++ rest) = some (y.natAbs, rest) := by
    have hlen := le_length_paddedText 4 y.natAbs
    rw [digits?_append (fun d => isDigit_paddedText) (by omega)
      (by rw [List.length_append]; omega) hr, ofDigits_paddedText]
  have hminus : ∀ cs, looseYear? ('-' :: cs) =
      (digits? 1 cs.length cs).map fun x => (-(x.1 : Int), x.2) := fun _ => rfl
  have hplus : ∀ cs, looseYear? ('+' :: cs) =
      (digits? 1 cs.length cs).map fun x => ((x.1 : Int), x.2) := fun _ => rfl
  rw [yearText, if_neg hy, String.toList_append, List.append_assoc]
  by_cases hneg : y < 0
  · rw [if_pos hneg]
    have hsign : "-".toList = ['-'] := rfl
    rw [hsign, List.singleton_append, hminus, hdigits, Option.map_some]
    refine congrArg some (Prod.ext ?_ rfl)
    dsimp only
    omega
  · rw [if_neg hneg]
    have hsign : "+".toList = ['+'] := rfl
    rw [hsign, List.singleton_append, hplus, hdigits, Option.map_some]
    refine congrArg some (Prod.ext ?_ rfl)
    dsimp only
    omega

/-- A year outside of the four digits is not read in the form of fixed width. -/
theorem readFixed?_yearText {y : Int} (hy : ¬ (0 ≤ y ∧ y ≤ 9999)) (rest : List Char) :
    readFixed? ((yearText y).toList ++ rest) = none := by
  have hnone : ∀ c cs, c.isDigit = false → readFixed? (c :: cs) = none := by
    intro c cs hc
    have hdigits : digits? 4 4 (c :: cs) = none := by
      unfold digits?
      rw [List.take_succ_cons, List.takeWhile_cons_of_neg (by simp [hc])]
      rfl
    rw [readFixed?, hdigits]
    rfl
  rw [yearText, if_neg hy, String.toList_append]
  split
  · exact hnone '-' _ rfl
  · exact hnone '+' _ rfl

/-- The fields of an instant. -/
def Instant.fields (t : Instant) : Fields :=
  let date := Date.ofDays (t.seconds / 86400)
  let clock := (t.seconds % 86400).toNat
  ⟨date.year, date.month, date.day, clock / 3600, clock / 60 % 60,
    clock % 60 + (if 1000000000 ≤ t.nanos then 1 else 0), t.nanos % 1000000000⟩

theorem Instant.toList_text (t : Instant) :
    t.text.toList = (yearText t.fields.year).toList ++ tailChars t.fields.month t.fields.day
      t.fields.hour t.fields.minute t.fields.second t.fields.nanos := by
  have hminus : "-".toList = ['-'] := rfl
  have hseparator : "T".toList = ['T'] := rfl
  have hcolon : ":".toList = [':'] := rfl
  have hzone : "Z".toList = ['Z'] := rfl
  simp only [text, tailChars, fields, String.toList_append, List.append_assoc, hminus, hseparator,
    hcolon, hzone, List.cons_append, List.nil_append]

/-- The fields of an instant that exists denote it. -/
theorem Instant.Valid.instant?_fields {t : Instant} (h : t.Valid) :
    t.fields.instant? 0 = some t := by
  obtain ⟨hex, hdays⟩ := Date.ofDays_spec (t.seconds / 86400)
  have hnanos := h.nanos
  have hleap := h.leap
  have hvalid := Date.isValid_iff.2 ⟨h.inRange, hex⟩
  have hhour : t.fields.hour < 24 := by
    dsimp only [fields]
    omega
  have hminute : t.fields.minute < 60 := Nat.mod_lt _ (by decide)
  have hsecond : t.fields.second ≤ 60 := by
    dsimp only [fields]
    split <;> omega
  have hdate : (⟨t.fields.year, t.fields.month, t.fields.day⟩ : Date).toDays =
      t.seconds / 86400 := hdays
  refine (if_pos ⟨hvalid, hhour, hminute, hsecond⟩).trans (congrArg some ?_)
  by_cases hl : 1000000000 ≤ t.nanos
  · have hsixty : t.fields.second = 60 := by
      have := hleap hl
      dsimp only [fields]
      rw [if_pos hl]
      omega
    have hn : t.fields.nanos + 1000000000 = t.nanos := by
      dsimp only [fields]
      omega
    have hs : t.seconds / 86400 * 86400 +
        ((t.fields.hour * 3600 + t.fields.minute * 60 + 59 : Nat) : Int) - 0 = t.seconds := by
      have := hleap hl
      dsimp only [fields]
      omega
    rw [if_pos hsixty, if_pos hsixty, hdate, hs, hn]
  · have hother : t.fields.second = (t.seconds % 86400).toNat % 60 := by
      dsimp only [fields]
      rw [if_neg hl, Nat.add_zero]
    have hsixty : t.fields.second ≠ 60 := by omega
    have hn : t.fields.nanos + 0 = t.nanos := by
      dsimp only [fields]
      omega
    have hs : t.seconds / 86400 * 86400 +
        ((t.fields.hour * 3600 + t.fields.minute * 60 + t.fields.second : Nat) : Int) - 0 =
          t.seconds := by
      rw [hother]
      dsimp only [fields]
      omega
    rw [if_neg hsixty, if_neg hsixty, hdate, hs, hn]

/-- The fields of an instant that exists fit into the widths they are written in. -/
theorem Instant.fields_lt (t : Instant) :
    t.fields.month < 100 ∧ t.fields.day < 100 ∧ t.fields.hour < 100 ∧ t.fields.minute < 100 ∧
      t.fields.second < 100 ∧ t.fields.nanos < 1000000000 := by
  obtain ⟨⟨⟨hm1, hm12⟩, hd1, hd31⟩, -⟩ := Date.ofDays_spec (t.seconds / 86400)
  have hmonth : ∀ y m, daysInMonth y m ≤ 31 := by
    intro y m
    unfold daysInMonth
    split <;> (try split) <;> decide
  have := hmonth (Date.ofDays (t.seconds / 86400)).year (Date.ofDays (t.seconds / 86400)).month
  have hclock : t.seconds % 86400 < 86400 := Int.emod_lt_of_pos _ (by decide)
  dsimp only [fields]
  refine ⟨by omega, by omega, by omega, by omega, ?_, Nat.mod_lt _ (by decide)⟩
  split <;> omega

/-- The form of fixed width is that of the years from 0 to 9999, and of no other. -/
theorem Instant.readFixed?_text {t : Instant} (h : t.Valid) :
    readFixed? t.text.toList =
      if 0 ≤ t.fields.year ∧ t.fields.year ≤ 9999 then some t else none := by
  obtain ⟨hmonth, hday, hhour, hminute, hsecond, hnanos⟩ := t.fields_lt
  rw [t.toList_text]
  split
  · rename_i hy
    obtain ⟨y, hy'⟩ := Int.eq_ofNat_of_zero_le hy.1
    have hyear : (yearText t.fields.year).toList = (paddedText 4 y).toList := by
      rw [yearText, if_pos hy, hy', Int.natAbs_natCast]
    rw [hyear, readFixed?_tailChars (by omega) hmonth hday hhour hminute hsecond hnanos, ← hy',
      h.instant?_fields]
  · rename_i hy
    exact readFixed?_yearText hy _

/-- **An instant that exists** is read back from its text. -/
theorem Instant.read?_text {t : Instant} (h : t.Valid) : Instant.read? t.text = some t := by
  obtain ⟨hmonth, hday, hhour, hminute, hsecond, hnanos⟩ := t.fields_lt
  rw [Instant.read?, Instant.readFixed?_text h]
  split
  · rfl
  · rename_i hy
    rw [t.toList_text, readLoose?_tailChars (looseYear?_yearText hy (not_isDigit_head? rfl))
      hmonth hday hhour hminute hsecond hnanos, h.instant?_fields]
    rfl

/-- Nothing is trimmed from the text of an instant. -/
theorem Instant.trim_text (t : Instant) : Text.trim t.text = t.text := by
  refine Text.trim_of_ends (fun c hc => ?_) fun c hc => ?_
  · rw [t.toList_text, yearText] at hc
    split at hc
    · exact Text.isBlank_of_isDigit (head?_paddedText _ hc)
    · rw [String.toList_append] at hc
      split at hc <;> (obtain rfl := Option.some.inj hc; rfl)
  · have hlast : t.text.toList.getLast? = some 'Z' := by
      simp only [text]
      rw [String.toList_append, List.getLast?_append]
      rfl
    rw [hlast] at hc
    obtain rfl := Option.some.inj hc
    rfl

end Marshal.Time
