import Marshal.Text.Words
import Mathlib.Data.List.Basic
import Mathlib.Data.List.Flatten
import Mathlib.Tactic.Common

/-!
# Words of plain names

A plain name is an ASCII letter, followed by ASCII letters, digits and underscores. Its words are its
letters and digits, cut into stretches that are not empty (`flatten_ofText`). Both joined forms begin
with a letter. The snake form tells the words apart up to their case (`snake_inj`), and the Pascal
form keeps the letters and digits up to their case (`map_toLower_pascal`).
-/

namespace Marshal.Text

/-! ## ASCII characters -/

/-- What holds of the first characters holds of every ASCII character. -/
theorem forall_ascii {P : Char → Prop} (h : ∀ n < 128, P (Char.ofNat n)) (c : Char)
    (hc : c.toNat < 128) : P c := by
  have := h c.toNat hc
  rwa [Char.ofNat_toNat] at this

theorem isUpper_iff {c : Char} : c.isUpper = true ↔ 0x41 ≤ c.toNat ∧ c.toNat ≤ 0x5A :=
  decide_eq_true_iff

theorem isLower_iff {c : Char} : c.isLower = true ↔ 0x61 ≤ c.toNat ∧ c.toNat ≤ 0x7A :=
  Bool.and_eq_true_iff.trans (and_congr decide_eq_true_iff decide_eq_true_iff)

theorem isAlpha_iff {c : Char} : c.isAlpha = true ↔ c.isUpper = true ∨ c.isLower = true :=
  Bool.or_eq_true_iff

theorem isAlphanum_iff {c : Char} : c.isAlphanum = true ↔ c.isAlpha = true ∨ c.isDigit = true :=
  Bool.or_eq_true_iff

theorem toNat_lt_of_isAlphanum {c : Char} (h : c.isAlphanum = true) : c.toNat < 128 := by
  simp only [isAlphanum_iff, isAlpha_iff, isUpper_iff, isLower_iff, Char.isDigit_iff_toNat,
    Char.reduceToNat] at h
  omega

theorem isAlphanumeric_of_ascii {c : Char} (h : c.toNat < 128) :
    isAlphanumeric c = c.isAlphanum := by
  simp [isAlphanumeric, isAlphabetic, isNumeric, Char.isAlphanum, h]

theorem toLower_of_isAlphanum {c : Char} (h : c.isAlphanum = true) : toLower c = [c.toLower] := by
  rw [toLower, if_pos (toNat_lt_of_isAlphanum h)]

theorem toUpper_of_isAlphanum {c : Char} (h : c.isAlphanum = true) : toUpper c = [c.toUpper] := by
  rw [toUpper, if_pos (toNat_lt_of_isAlphanum h)]

/-- Whether a character is a small ASCII letter or a digit. -/
def isSmall (c : Char) : Bool := c.isLower || c.isDigit

theorem isSmall_toLower {c : Char} (h : c.isAlphanum = true) : isSmall c.toLower = true :=
  forall_ascii (P := fun c => c.isAlphanum = true → isSmall c.toLower = true) (by decide) c
    (toNat_lt_of_isAlphanum h) h

theorem isLower_toLower {c : Char} (h : c.isAlpha = true) : c.toLower.isLower = true :=
  forall_ascii (P := fun c => c.isAlpha = true → c.toLower.isLower = true) (by decide) c
    (toNat_lt_of_isAlphanum (by simp [Char.isAlphanum, h])) h

theorem isUpper_toUpper {c : Char} (h : c.isAlpha = true) : c.toUpper.isUpper = true :=
  forall_ascii (P := fun c => c.isAlpha = true → c.toUpper.isUpper = true) (by decide) c
    (toNat_lt_of_isAlphanum (by simp [Char.isAlphanum, h])) h

theorem toLower_toUpper {c : Char} (h : c.isAlphanum = true) : c.toUpper.toLower = c.toLower :=
  forall_ascii (P := fun c => c.toUpper.toLower = c.toLower) (by decide) c
    (toNat_lt_of_isAlphanum h)

theorem isAlphanum_of_isSmall {c : Char} (h : isSmall c = true) : c.isAlphanum = true := by
  simp only [isSmall, Bool.or_eq_true] at h
  rcases h with h | h <;> simp [isAlphanum_iff, isAlpha_iff, h]

theorem isAlphanum_toUpper {c : Char} (h : c.isAlphanum = true) : c.toUpper.isAlphanum = true :=
  forall_ascii (P := fun c => c.isAlphanum = true → c.toUpper.isAlphanum = true) (by decide) c
    (toNat_lt_of_isAlphanum h) h

theorem toLower_of_isSmall {c : Char} (h : isSmall c = true) : c.toLower = c :=
  forall_ascii (P := fun c => isSmall c = true → c.toLower = c) (by decide) c
    (toNat_lt_of_isAlphanum (isAlphanum_of_isSmall h)) h

/-! ## Plain names -/

/-- Whether a text is an ASCII letter followed by ASCII letters, digits and underscores. -/
def isPlain (s : String) : Bool :=
  match s.toList with
  | [] => false
  | c :: cs => c.isAlpha && cs.all fun d => d.isAlphanum || d == '_'

theorem exists_of_isPlain {s : String} (h : isPlain s = true) : ∃ c cs, s.toList = c :: cs ∧
    c.isAlpha = true ∧ ∀ d ∈ cs, d.isAlphanum = true ∨ d = '_' := by
  unfold isPlain at h
  split at h
  · cases h
  · rename_i c cs hs
    simp only [Bool.and_eq_true, List.all_eq_true, Bool.or_eq_true, beq_iff_eq] at h
    exact ⟨c, cs, hs, h⟩

namespace Words

/-! ## Cutting -/

/-- Cutting loses no character. -/
theorem flatten_split (m : Mode) (word cs : List Char) (hcs : cs ≠ []) :
    (split m word cs).flatten = word.reverse ++ cs := by
  induction m, word, cs using split.induct with
  | case1 => exact absurd rfl hcs
  | case2 m word c => simp [split]
  | case3 m word c d rest m' hcut ih =>
    rw [split, if_pos hcut]
    simp [ih]
  | case4 m word c d rest m' hcut hcap ih =>
    rw [split, if_neg hcut, if_pos hcap]
    simp [ih]
  | case5 m word c d rest m' hcut hcap ih =>
    rw [split, if_neg hcut, if_neg hcap]
    simp [ih, m']

/-- No word is empty. Capitals can only have been passed within a word. -/
theorem ne_nil_of_mem_split {m : Mode} {word cs w : List Char} (hm : m = .upper → word ≠ [])
    (hw : w ∈ split m word cs) : w ≠ [] := by
  induction m, word, cs using split.induct with
  | case1 => simp [split] at hw
  | case2 m word c =>
    simp only [split, List.mem_singleton] at hw
    simp [hw]
  | case3 m word c d rest m' hcut ih =>
    rw [split, if_pos hcut, List.mem_cons] at hw
    rcases hw with rfl | hw
    · simp
    · exact ih nofun hw
  | case4 m word c d rest m' hcut hcap ih =>
    rw [split, if_neg hcut, if_pos hcap, List.mem_cons] at hw
    rcases hw with rfl | hw
    · simpa using hm hcap.1
    · exact ih nofun hw
  | case5 m word c d rest m' hcut hcap ih =>
    rw [split, if_neg hcut, if_neg hcap] at hw
    exact ih (fun _ => List.cons_ne_nil _ _) hw

theorem flatten_pieces (cs : List Char) : (pieces cs).flatten = cs.filter isAlphanumeric := by
  induction cs with
  | nil => rfl
  | cons c cs ih =>
    rw [pieces, List.splitOnP_cons_eq_if_modifyHead, ← pieces]
    rcases hc : isAlphanumeric c with _ | _
    · simp [hc, ih]
    · obtain ⟨p, ps, hps⟩ := List.exists_cons_of_ne_nil (l := pieces cs) (List.splitOnP_ne_nil _ _)
      simp [hc, hps, ← ih]

/-- **The words are the letters and digits of a name**, cut into stretches. -/
theorem flatten_ofText (s : String) : (ofText s).flatten = s.toList.filter isAlphanumeric := by
  have hpiece : ∀ p : List Char, (split .boundary [] p).flatten = p := fun p => by
    by_cases hp : p = []
    · simp [hp, split]
    · simpa using flatten_split .boundary [] p hp
  rw [ofText, List.flatMap_def, List.flatten_flatten, List.map_map, ← flatten_pieces]
  congr 1
  conv_rhs => rw [← List.map_id (pieces s.toList)]
  exact List.map_congr_left fun p _ => hpiece p

theorem ne_nil_of_mem_ofText {s : String} {w : List Char} (hw : w ∈ ofText s) : w ≠ [] := by
  obtain ⟨p, -, hp⟩ := List.mem_flatMap.1 hw
  exact ne_nil_of_mem_split (m := .boundary) (by simp) hp

variable {s t : String} {w : List Char}

theorem isAlphanum_of_mem_ofText (hs : isPlain s = true) (hw : w ∈ ofText s) {c : Char}
    (hc : c ∈ w) : c.isAlphanum = true := by
  obtain ⟨a, cs, hcs, ha, hrest⟩ := exists_of_isPlain hs
  have hmem : c ∈ s.toList.filter isAlphanumeric := by
    rw [← flatten_ofText]
    exact List.mem_flatten_of_mem hw hc
  rw [List.mem_filter, hcs, List.mem_cons] at hmem
  rcases hmem with ⟨rfl | hmem, halpha⟩
  · simp [Char.isAlphanum, ha]
  · rcases hrest c hmem with hc | rfl
    · exact hc
    · exact absurd halpha (by decide)

/-- The first word begins as the name does. -/
theorem exists_ofText (hs : isPlain s = true) : ∃ c w ws, c.isAlpha = true ∧
    s.toList.head? = some c ∧ ofText s = (c :: w) :: ws := by
  obtain ⟨c, cs, hcs, hc, -⟩ := exists_of_isPlain hs
  have halpha : isAlphanumeric c = true := by
    have hnum : c.isAlphanum = true := by simp [Char.isAlphanum, hc]
    rw [isAlphanumeric_of_ascii (toNat_lt_of_isAlphanum hnum), hnum]
  have hflat := flatten_ofText s
  rw [hcs, List.filter_cons_of_pos halpha] at hflat
  rcases hw : ofText s with _ | ⟨_ | ⟨d, w⟩, ws⟩
  · simp [hw] at hflat
  · exact absurd rfl (ne_nil_of_mem_ofText (s := s) (w := []) (by simp [hw]))
  · simp only [hw, List.flatten_cons, List.cons_append, List.cons.injEq] at hflat
    exact ⟨c, w, ws, hc, by simp [hcs], by rw [hflat.1]⟩

/-! ## Joining -/

theorem lowercase_eq (hw : ∀ c ∈ w, c.isAlphanum = true) : lowercase w = w.map Char.toLower := by
  induction w using lowercase.induct with
  | case1 => rfl
  | case2 => exact absurd (hw 'Σ' (by simp)) (by decide)
  | case3 c hsigma => simp [lowercase, hsigma, toLower_of_isAlphanum (hw c (by simp))]
  | case4 c rest hrest ih =>
    rw [lowercase, toLower_of_isAlphanum (hw c (by simp)),
      ih fun d hd => hw d (List.mem_cons_of_mem c hd)]
    · rfl
    · exact hrest

theorem capitalize_cons {c : Char} (hw : ∀ d ∈ c :: w, d.isAlphanum = true) :
    capitalize (c :: w) = c.toUpper :: w.map Char.toLower := by
  rw [capitalize, toUpper_of_isAlphanum (hw c (by simp)),
    lowercase_eq fun d hd => hw d (List.mem_cons_of_mem c hd)]
  rfl

theorem toList_snake (s : String) :
    (snake s).toList = ['_'].intercalate ((ofText s).map lowercase) := by
  rw [snake, String.toList_intercalate, List.map_map]
  congr 1
  simp

theorem toList_pascal (s : String) : (pascal s).toList = (ofText s).flatMap capitalize := by
  rw [pascal, String.toList_ofList]

/-- The words of a plain name in small letters. -/
theorem isSmall_of_mem_lowercase (hs : isPlain s = true) (hw : w ∈ (ofText s).map lowercase)
    {c : Char} (hc : c ∈ w) : isSmall c = true := by
  obtain ⟨v, hv, rfl⟩ := List.mem_map.1 hw
  have hall := fun d hd => isAlphanum_of_mem_ofText hs hv (c := d) hd
  rw [lowercase_eq hall] at hc
  obtain ⟨d, hd, rfl⟩ := List.mem_map.1 hc
  exact isSmall_toLower (hall d hd)

theorem splitOn_toList_snake (hs : isPlain s = true) :
    (snake s).toList.splitOn '_' = (ofText s).map lowercase := by
  obtain ⟨c, w, ws, -, -, hws⟩ := exists_ofText hs
  rw [toList_snake, List.splitOn_intercalate]
  · intro w hw hmem
    exact absurd (isSmall_of_mem_lowercase hs hw hmem) (by decide)
  · simp [hws]

/-- **Two names have the same snake form** exactly when they have the same words, up to their case. -/
theorem snake_inj (hs : isPlain s = true) (ht : isPlain t = true) :
    snake s = snake t ↔ (ofText s).map lowercase = (ofText t).map lowercase := by
  constructor
  · intro h
    rw [← splitOn_toList_snake hs, ← splitOn_toList_snake ht, h]
  · intro h
    rw [← String.toList_inj, toList_snake, toList_snake, h]

theorem mem_intercalate {sep : List Char} {ls : List (List Char)} {c : Char}
    (hc : c ∈ sep.intercalate ls) : c ∈ sep ∨ ∃ l ∈ ls, c ∈ l := by
  induction ls with
  | nil => simp [List.intercalate] at hc
  | cons l ls ih =>
    rcases ls with _ | ⟨l', ls⟩
    · simp only [List.intercalate_singleton] at hc
      exact .inr ⟨l, by simp, hc⟩
    · rw [List.intercalate_cons_cons, List.mem_append, List.mem_append] at hc
      rcases hc with (hc | hc) | hc
      · exact .inr ⟨l, by simp, hc⟩
      · exact .inl hc
      · exact (ih hc).imp_right fun ⟨k, hk, hck⟩ => ⟨k, List.mem_cons_of_mem l hk, hck⟩

/-- A snake form begins with a small letter, and small letters, digits and underscores follow. -/
theorem exists_snake (hs : isPlain s = true) : ∃ c cs, (snake s).toList = c :: cs ∧
    c.isLower = true ∧ ∀ d ∈ cs, isSmall d = true ∨ d = '_' := by
  obtain ⟨c, w, ws, hc, -, hws⟩ := exists_ofText hs
  have hall : ∀ d ∈ (snake s).toList, isSmall d = true ∨ d = '_' := fun d hd => by
    rw [toList_snake] at hd
    rcases mem_intercalate hd with hd | ⟨v, hv, hd⟩
    · exact .inr (by simpa using hd)
    · exact .inl (isSmall_of_mem_lowercase hs hv hd)
  have hfirst : lowercase (c :: w) = c.toLower :: w.map Char.toLower :=
    lowercase_eq fun d hd => isAlphanum_of_mem_ofText hs (by simp [hws]) hd
  obtain ⟨cs, hcs⟩ : ∃ cs, (snake s).toList = c.toLower :: cs := by
    rw [toList_snake, hws, List.map_cons, hfirst]
    rcases ws.map lowercase with _ | ⟨v, vs⟩
    · exact ⟨_, List.intercalate_singleton⟩
    · exact ⟨_, List.intercalate_cons_cons⟩
  exact ⟨_, cs, hcs, isLower_toLower hc, fun d hd => hall d (by simp [hcs, hd])⟩

theorem capitalize_of_mem_ofText (hs : isPlain s = true) (hw : w ∈ ofText s) : ∃ c v, w = c :: v ∧
    capitalize w = c.toUpper :: v.map Char.toLower ∧ ∀ d ∈ c :: v, d.isAlphanum = true := by
  rcases w with _ | ⟨c, v⟩
  · exact absurd rfl (ne_nil_of_mem_ofText hw)
  · have hall := fun d hd => isAlphanum_of_mem_ofText hs hw (c := d) hd
    exact ⟨c, v, rfl, capitalize_cons hall, hall⟩

/-- A Pascal form begins with a capital, and letters and digits follow. -/
theorem exists_pascal (hs : isPlain s = true) : ∃ c cs, (pascal s).toList = c :: cs ∧
    c.isUpper = true ∧ ∀ d ∈ cs, d.isAlphanum = true := by
  have hall : ∀ d ∈ (pascal s).toList, d.isAlphanum = true := fun d hd => by
    rw [toList_pascal] at hd
    obtain ⟨w, hw, hd⟩ := List.mem_flatMap.1 hd
    obtain ⟨c, v, rfl, hcap, hword⟩ := capitalize_of_mem_ofText hs hw
    rw [hcap, List.mem_cons] at hd
    rcases hd with rfl | hd
    · exact isAlphanum_toUpper (hword c (by simp))
    · obtain ⟨e, he, rfl⟩ := List.mem_map.1 hd
      exact isAlphanum_of_isSmall (isSmall_toLower (hword e (List.mem_cons_of_mem c he)))
  obtain ⟨c, w, ws, hc, -, hws⟩ := exists_ofText hs
  obtain ⟨_, _, hw, hcap, -⟩ := capitalize_of_mem_ofText hs (w := c :: w) (by simp [hws])
  obtain ⟨rfl, rfl⟩ := List.cons.inj hw
  have hcs : (pascal s).toList = c.toUpper :: (w.map Char.toLower ++ ws.flatMap capitalize) := by
    rw [toList_pascal, hws, List.flatMap_cons, hcap]
    rfl
  exact ⟨_, _, hcs, isUpper_toUpper hc, fun d hd => hall d (by rw [hcs]; exact .tail _ hd)⟩

/-! ## Letters and digits -/

/-- The letters and digits of a name, up to their case. -/
def squash (s : String) : List Char := (s.toList.filter isAlphanumeric).map Char.toLower

theorem squash_eq (s : String) : squash s = (ofText s).flatMap (List.map Char.toLower) := by
  rw [squash, ← flatten_ofText, List.map_flatten, List.flatMap_def]

/-- **Names with the same snake form** have the same letters and digits, up to their case. -/
theorem squash_eq_of_snake_eq (hs : isPlain s = true) (ht : isPlain t = true)
    (h : snake s = snake t) : squash s = squash t := by
  have hsquash : ∀ {r}, isPlain r = true → squash r = ((ofText r).map lowercase).flatten :=
    fun {r} hr => by
      rw [squash_eq, List.flatMap_def]
      congr 1
      exact List.map_congr_left fun w hw =>
        (lowercase_eq fun c hc => isAlphanum_of_mem_ofText hr hw hc).symm
  rw [hsquash hs, hsquash ht, (snake_inj hs ht).1 h]

/-- The Pascal form of a name has its letters and digits, up to their case. -/
theorem map_toLower_pascal (hs : isPlain s = true) :
    (pascal s).toList.map Char.toLower = squash s := by
  rw [squash_eq, toList_pascal, List.map_flatMap]
  refine List.flatMap_congr fun w hw => ?_
  obtain ⟨c, v, rfl, hcap, hword⟩ := capitalize_of_mem_ofText hs hw
  have htail : ∀ d ∈ v, d.toLower.toLower = d.toLower := fun d hd =>
    toLower_of_isSmall (isSmall_toLower (hword d (List.mem_cons_of_mem c hd)))
  rw [hcap, List.map_cons, List.map_map, List.map_cons, toLower_toUpper (hword c (by simp))]
  congr 1
  exact List.map_congr_left htail

/-- **Names with the same Pascal form** have the same letters and digits, up to their case. -/
theorem squash_eq_of_pascal_eq (hs : isPlain s = true) (ht : isPlain t = true)
    (h : pascal s = pascal t) : squash s = squash t := by
  rw [← map_toLower_pascal hs, ← map_toLower_pascal ht, h]

end Words

end Marshal.Text
