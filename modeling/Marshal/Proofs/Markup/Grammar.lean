import Marshal.Markup.Name
import Marshal.Proofs.Text.Words

/-!
# The grammar of names

`Grammar.IsName` is the `Name` production of XML 1.0 in its fifth edition, which lists ranges of code
points. The check of names goes by letters and numbers instead, and the two part both ways. Some
letters and numbers are taken that the production does not have; `strayStarts` and `strayRests` are
all of them. And outside of ASCII what is no letter and no number is refused, though the production
has much of it (`IsOddStart`, `IsOddRest`). So a text is taken for a name exactly when it is one by
the production without its odd characters and with the stray ones (`isName_iff_passable`), and names
of ASCII characters are told right (`isName_iff_of_ascii`).
-/

namespace Marshal

/-! ## Ranges -/

namespace Text

variable {rs ss : List (Nat × Nat)} {n : Nat} {c : Char}

theorem inRanges_iff : inRanges rs n = true ↔ ∃ r ∈ rs, r.1 ≤ n ∧ n ≤ r.2 := by
  simp [inRanges]

theorem inRanges_append :
    inRanges (rs ++ ss) n = true ↔ inRanges rs n = true ∨ inRanges ss n = true := by
  simp [inRanges]

theorem le_of_inRanges {k : Nat} (h : ∀ r ∈ rs, k ≤ r.1) (hn : inRanges rs n = true) : k ≤ n := by
  obtain ⟨r, hr, hlo, -⟩ := inRanges_iff.1 hn
  exact Nat.le_trans (h r hr) hlo

/-- Whether some ranges cover all from `lo` to `hi`: what the first leaves below it and above it, the
others must cover. -/
def coversBetween : List (Nat × Nat) → Nat → Nat → Bool
  | [], lo, hi => hi < lo
  | s :: ss, lo, hi =>
    hi < lo || coversBetween ss lo (min hi (s.1 - 1)) && coversBetween ss (max lo (s.2 + 1)) hi

/-- Whether some ranges cover others. -/
def covers (ss rs : List (Nat × Nat)) : Bool := rs.all fun r => coversBetween ss r.1 r.2

/-- Whether none of some ranges meets one of others. -/
def areApart (rs ss : List (Nat × Nat)) : Bool :=
  rs.all fun r => ss.all fun s => r.2 < s.1 || s.2 < r.1

theorem inRanges_of_coversBetween {lo hi : Nat} (h : coversBetween ss lo hi = true) (hlo : lo ≤ n)
    (hhi : n ≤ hi) : inRanges ss n = true := by
  induction ss generalizing lo hi with
  | nil =>
    rw [coversBetween, decide_eq_true_eq] at h
    omega
  | cons s ss ih =>
    simp only [coversBetween, Bool.or_eq_true, Bool.and_eq_true, decide_eq_true_eq] at h
    obtain ⟨hbelow, habove⟩ := h.resolve_left (by omega)
    refine (@inRanges_append [s] ss n).2 ?_
    rcases Nat.lt_or_ge n s.1 with hlt | hge
    · exact .inr (ih hbelow hlo (by omega))
    · rcases Nat.lt_or_ge s.2 n with hlt | hle
      · exact .inr (ih habove (by omega) hhi)
      · exact .inl (inRanges_iff.2 ⟨s, List.mem_singleton_self s, hge, hle⟩)

theorem inRanges_of_covers (h : covers ss rs = true) (hn : inRanges rs n = true) :
    inRanges ss n = true := by
  obtain ⟨r, hr, hlo, hhi⟩ := inRanges_iff.1 hn
  exact inRanges_of_coversBetween (List.all_eq_true.1 h r hr) hlo hhi

theorem not_inRanges_of_areApart (h : areApart rs ss = true) (hn : inRanges rs n = true) :
    ¬ inRanges ss n = true := by
  intro hm
  obtain ⟨r, hr, hrlo, hrhi⟩ := inRanges_iff.1 hn
  obtain ⟨s, hs, hslo, hshi⟩ := inRanges_iff.1 hm
  have hrs := List.all_eq_true.1 (List.all_eq_true.1 h r hr) s hs
  rw [Bool.or_eq_true, decide_eq_true_eq, decide_eq_true_eq] at hrs
  omega

/-! ### Characters by their code points -/

theorem beq_iff_toNat {d : Char} : (c == d) = true ↔ c.toNat = d.toNat := by
  rw [beq_iff_eq, Char.toNat_inj]

/-- Outside of ASCII the letters are those of the table. -/
theorem isAlphabetic_iff (h : 0x80 ≤ c.toNat) :
    isAlphabetic c = true ↔ inRanges alphabeticRanges c.toNat = true := by
  rw [isAlphabetic, if_neg (by omega)]

/-- Outside of ASCII the letters and numbers are those of the tables. -/
theorem isAlphanumeric_iff (h : 0x80 ≤ c.toNat) :
    isAlphanumeric c = true ↔ inRanges (alphabeticRanges ++ numericRanges) c.toNat = true := by
  rw [isAlphanumeric, Bool.or_eq_true, isAlphabetic_iff h, isNumeric, if_neg (by omega),
    inRanges_append]

end Text

namespace Markup

open Text

variable {c : Char} {s : String}

/-! ## Texts by their characters -/

/-- A text of one character of a kind and then characters of another kind. -/
def Spelled (first rest : Char → Prop) (s : String) : Prop :=
  ∃ c cs, s.toList = c :: cs ∧ first c ∧ ∀ d ∈ cs, rest d

/-- A text that begins with a character of a kind or goes on with one of another kind. -/
def Somewhere (first rest : Char → Prop) (s : String) : Prop :=
  ∃ c cs, s.toList = c :: cs ∧ (first c ∨ ∃ d ∈ cs, rest d)

section Spelled

variable {first rest first' rest' first'' rest'' : Char → Prop} {cs : List Char}

theorem spelled_iff (hs : s.toList = c :: cs) :
    Spelled first rest s ↔ first c ∧ ∀ d ∈ cs, rest d := by
  simp [Spelled, hs, and_assoc]

theorem somewhere_iff (hs : s.toList = c :: cs) :
    Somewhere first rest s ↔ first c ∨ ∃ d ∈ cs, rest d := by
  simp [Somewhere, hs, and_assoc]

instance [DecidablePred first] [DecidablePred rest] : Decidable (Spelled first rest s) :=
  match h : s.toList with
  | [] => isFalse (by simp [Spelled, h])
  | c :: cs => decidable_of_iff ((decide (first c) && cs.all fun d => decide (rest d)) = true)
      (by simp [spelled_iff h])

theorem spelled_congr (hf : ∀ c, first c ↔ first' c) (hr : ∀ c, rest c ↔ rest' c) :
    Spelled first rest s ↔ Spelled first' rest' s := by
  simp only [Spelled, hf, hr]

/-- A text that is spelled one way is not spelled another way when a character tells against it. -/
theorem Spelled.not_iff (h : Spelled first rest s) (hf : ∀ c, first c → (¬ first' c ↔ first'' c))
    (hr : ∀ c, rest c → (¬ rest' c ↔ rest'' c)) :
    ¬ Spelled first' rest' s ↔ Somewhere first'' rest'' s := by
  obtain ⟨c, cs, hs, hc, hcs⟩ := h
  have hrest : (¬ ∀ d ∈ cs, rest' d) ↔ ∃ d ∈ cs, rest'' d := by
    simp only [Classical.not_forall, exists_prop]
    exact exists_congr fun d => and_congr_right fun hd => hr d (hcs d hd)
  rw [spelled_iff hs, somewhere_iff hs, Classical.not_and_iff_not_or_not, hf c hc, hrest]

end Spelled

theorem isName_iff : isName s = true ↔ Spelled (isNameStart · = true) (isNameRest · = true) s := by
  unfold isName
  split
  · rename_i hs
    simp [Spelled, hs]
  · rename_i c cs hs
    rw [spelled_iff hs, Bool.and_eq_true, List.all_eq_true]

/-! ## The production -/

namespace Grammar

/-- The ranges of `NameStartChar`. -/
def startRanges : List (Nat × Nat) :=
  [(0x3A, 0x3A), (0x41, 0x5A), (0x5F, 0x5F), (0x61, 0x7A), (0xC0, 0xD6), (0xD8, 0xF6),
   (0xF8, 0x2FF), (0x370, 0x37D), (0x37F, 0x1FFF), (0x200C, 0x200D), (0x2070, 0x218F),
   (0x2C00, 0x2FEF), (0x3001, 0xD7FF), (0xF900, 0xFDCF), (0xFDF0, 0xFFFD), (0x10000, 0xEFFFF)]

/-- The ranges of `NameChar`: those of `NameStartChar` and five more. -/
def restRanges : List (Nat × Nat) :=
  startRanges ++ [(0x2D, 0x2E), (0x30, 0x39), (0xB7, 0xB7), (0x300, 0x36F), (0x203F, 0x2040)]

/-- `NameStartChar`. -/
def IsStart (c : Char) : Prop := inRanges startRanges c.toNat = true

/-- `NameChar`. -/
def IsRest (c : Char) : Prop := inRanges restRanges c.toNat = true

instance : DecidablePred IsStart := fun _ => inferInstanceAs (Decidable (_ = true))

instance : DecidablePred IsRest := fun _ => inferInstanceAs (Decidable (_ = true))

/-- **The production** `Name ::= NameStartChar (NameChar)*`. -/
def IsName (s : String) : Prop := Spelled IsStart IsRest s

instance : DecidablePred IsName := fun s => inferInstanceAs (Decidable (Spelled IsStart IsRest s))

end Grammar

/-! ## Where the check parts from it -/

/-- The letters that the check takes in front and that are no `NameStartChar`. -/
def strayStarts : List (Nat × Nat) :=
  [(0xAA, 0xAA), (0xB5, 0xB5), (0xBA, 0xBA), (0x345, 0x345), (0x363, 0x36F), (0x24B6, 0x24E9)]

/-- The letters and numbers that the check takes later on and that are no `NameChar`. -/
def strayRests : List (Nat × Nat) :=
  [(0xAA, 0xAA), (0xB2, 0xB3), (0xB5, 0xB5), (0xB9, 0xB9), (0xBA, 0xBA), (0xBC, 0xBE),
   (0x2460, 0x249B), (0x24B6, 0x24E9), (0x24EA, 0x24FF), (0x2776, 0x2793)]

/-- The character is taken in front, against the production. -/
def IsStrayStart (c : Char) : Prop := inRanges strayStarts c.toNat = true

/-- The character is taken later on, against the production. -/
def IsStrayRest (c : Char) : Prop := inRanges strayRests c.toNat = true

/-- The character is no letter, which is asked of those in front outside of ASCII. -/
def IsOddStart (c : Char) : Prop := 0x80 ≤ c.toNat ∧ isAlphabetic c = false

/-- The character is no letter, number or middle dot, which is asked of those later on outside of
ASCII. -/
def IsOddRest (c : Char) : Prop := 0x80 ≤ c.toNat ∧ isAlphanumeric c = false ∧ c.toNat ≠ 0xB7

/-- **What passes for a name**: the production without its odd characters, and with the stray ones. -/
def Passable (s : String) : Prop :=
  Spelled (fun c => Grammar.IsStart c ∧ ¬ IsOddStart c ∨ IsStrayStart c)
    (fun c => Grammar.IsRest c ∧ ¬ IsOddRest c ∨ IsStrayRest c) s

theorem IsStrayStart.not_isStart (h : IsStrayStart c) : ¬ Grammar.IsStart c :=
  not_inRanges_of_areApart (by decide) h

theorem IsStrayRest.not_isRest (h : IsStrayRest c) : ¬ Grammar.IsRest c :=
  not_inRanges_of_areApart (by decide) h

/-- No stray character is in ASCII. -/
theorem IsStrayStart.le (h : IsStrayStart c) : 0x80 ≤ c.toNat :=
  le_of_inRanges (by decide) h

theorem IsStrayRest.le (h : IsStrayRest c) : 0x80 ≤ c.toNat :=
  le_of_inRanges (by decide) h

/-- Among ASCII characters the check takes those of the production in front. -/
theorem isNameStart_iff_of_ascii (h : c.toNat < 0x80) :
    isNameStart c = true ↔ Grammar.IsStart c := by
  simp only [isNameStart, isAlphabetic, if_pos h, Bool.or_eq_true, isAlpha_iff, isUpper_iff,
    isLower_iff, beq_iff_toNat, Char.reduceToNat, Grammar.IsStart, inRanges, Grammar.startRanges,
    List.any_cons, List.any_nil, Bool.and_eq_true, decide_eq_true_eq, Bool.false_eq_true, or_false]
  omega

/-- Among ASCII characters the check takes those of the production later on. -/
theorem isNameRest_iff_of_ascii (h : c.toNat < 0x80) :
    isNameRest c = true ↔ Grammar.IsRest c := by
  simp only [isNameRest, isAlphanumeric, isAlphabetic, isNumeric, if_pos h, Bool.or_eq_true,
    isAlpha_iff, isUpper_iff, isLower_iff, Char.isDigit_iff_toNat, beq_iff_toNat,
    Char.reduceToNat, @beq_iff_eq Nat, Grammar.IsRest, inRanges, Grammar.restRanges,
    Grammar.startRanges, List.cons_append, List.nil_append, List.any_cons, List.any_nil,
    Bool.and_eq_true, decide_eq_true_eq, Bool.false_eq_true, or_false]
  omega

theorem beq_eq_false_of_le {d : Char} (h : 0x80 ≤ c.toNat) (hd : d.toNat < 0x80) :
    (c == d) = false := by
  rw [beq_eq_false_iff_ne]
  rintro rfl
  omega

/-- Outside of ASCII the check takes the letters in front. -/
theorem isNameStart_of_le (h : 0x80 ≤ c.toNat) : isNameStart c = isAlphabetic c := by
  have hline : (c == '_') = false := beq_eq_false_of_le h (by decide)
  have hcolon : (c == ':') = false := beq_eq_false_of_le h (by decide)
  simp [isNameStart, hline, hcolon]

/-- Outside of ASCII the check takes the letters, the numbers and the middle dot later on. -/
theorem isNameRest_of_le (h : 0x80 ≤ c.toNat) :
    isNameRest c = (isAlphanumeric c || c.toNat == 0xB7) := by
  have hhyphen : (c == '-') = false := beq_eq_false_of_le h (by decide)
  have hpoint : (c == '.') = false := beq_eq_false_of_le h (by decide)
  have hline : (c == '_') = false := beq_eq_false_of_le h (by decide)
  have hcolon : (c == ':') = false := beq_eq_false_of_le h (by decide)
  simp [isNameRest, hhyphen, hpoint, hline, hcolon]

/-- **What the check takes in front.** -/
theorem isNameStart_iff :
    isNameStart c = true ↔ Grammar.IsStart c ∧ ¬ IsOddStart c ∨ IsStrayStart c := by
  rcases Nat.lt_or_ge c.toNat 0x80 with hlt | hle
  · have hodd : ¬ IsOddStart c := fun h => absurd h.1 (by omega)
    have hstray : ¬ IsStrayStart c := fun h => absurd h.le (by omega)
    simp [isNameStart_iff_of_ascii hlt, hodd, hstray]
  · have hodd : ¬ IsOddStart c ↔ isAlphabetic c = true := by
      simp [IsOddStart, hle]
    -- the table of letters is that of the stray ones and of others that the production has
    have hstray : IsStrayStart c → isAlphabetic c = true := fun h =>
      (isAlphabetic_iff hle).2 (inRanges_of_covers (by decide +kernel) h)
    have htable : isAlphabetic c = true → Grammar.IsStart c ∨ IsStrayStart c := fun h =>
      inRanges_append.1 (inRanges_of_covers (by decide +kernel) ((isAlphabetic_iff hle).1 h))
    rw [isNameStart_of_le hle, hodd]
    constructor
    · exact fun h => (htable h).imp (⟨·, h⟩) id
    · rintro (⟨-, h⟩ | h)
      · exact h
      · exact hstray h

/-- **What the check takes later on.** -/
theorem isNameRest_iff :
    isNameRest c = true ↔ Grammar.IsRest c ∧ ¬ IsOddRest c ∨ IsStrayRest c := by
  rcases Nat.lt_or_ge c.toNat 0x80 with hlt | hle
  · have hodd : ¬ IsOddRest c := fun h => absurd h.1 (by omega)
    have hstray : ¬ IsStrayRest c := fun h => absurd h.le (by omega)
    simp [isNameRest_iff_of_ascii hlt, hodd, hstray]
  · have hodd : ¬ IsOddRest c ↔ isAlphanumeric c = true ∨ c.toNat = 0xB7 := by
      simp [IsOddRest, hle, Classical.or_iff_not_imp_left]
    have hstray : IsStrayRest c → isAlphanumeric c = true := fun h =>
      (isAlphanumeric_iff hle).2 (inRanges_of_covers (by decide +kernel) h)
    have htable : isAlphanumeric c = true → Grammar.IsRest c ∨ IsStrayRest c := fun h =>
      inRanges_append.1 (inRanges_of_covers (by decide +kernel) ((isAlphanumeric_iff hle).1 h))
    have hdot : c.toNat = 0xB7 → Grammar.IsRest c := fun h => by
      rw [Grammar.IsRest, h]
      decide
    rw [isNameRest_of_le hle, Bool.or_eq_true, beq_iff_eq, hodd]
    constructor
    · rintro (h | h)
      · exact (htable h).imp (⟨·, .inl h⟩) id
      · exact .inl ⟨hdot h, .inr h⟩
    · rintro (⟨-, h⟩ | h)
      · exact h
      · exact .inl (hstray h)

/-! ## Names -/

/-- **The check of names takes what is passable.** -/
theorem isName_iff_passable : isName s = true ↔ Passable s := by
  rw [isName_iff, Passable]
  exact spelled_congr (fun _ => isNameStart_iff) fun _ => isNameRest_iff

/-- A passable text is no name by the production when it has a stray character. -/
theorem Passable.not_isName_iff (h : Passable s) :
    ¬ Grammar.IsName s ↔ Somewhere IsStrayStart IsStrayRest s := by
  refine Spelled.not_iff h (fun c hc => ⟨fun hn => ?_, IsStrayStart.not_isStart⟩)
    fun c hc => ⟨fun hn => ?_, IsStrayRest.not_isRest⟩
  · exact hc.resolve_left fun hs => hn hs.1
  · exact hc.resolve_left fun hs => hn hs.1

/-- A name by the production is not passable when it has an odd character. -/
theorem Grammar.IsName.not_passable_iff (h : Grammar.IsName s) :
    ¬ Passable s ↔ Somewhere IsOddStart IsOddRest s := by
  refine Spelled.not_iff h (fun c hc => ?_) fun c hc => ?_
  · have hstray : ¬ IsStrayStart c := fun hs => hs.not_isStart hc
    simp [hc, hstray]
  · have hstray : ¬ IsStrayRest c := fun hs => hs.not_isRest hc
    simp [hc, hstray]

/-- **The check is not that of the production**: it takes a feminine ordinal, and refuses an accent. -/
theorem not_isName_iff_grammar :
    ¬ (isName "\u00aa" = true ↔ Grammar.IsName "\u00aa") ∧
      ¬ (isName "a\u0301" = true ↔ Grammar.IsName "a\u0301") := by
  decide +kernel

/-- **Names of ASCII characters** are told by the check as by the production. -/
theorem isName_iff_of_ascii (h : ∀ c ∈ s.toList, c.toNat < 0x80) :
    isName s = true ↔ Grammar.IsName s := by
  rw [isName_iff, Grammar.IsName]
  rcases hs : s.toList with _ | ⟨c, cs⟩
  · simp [Spelled, hs]
  · rw [hs] at h
    obtain ⟨hc, hcs⟩ := List.forall_mem_cons.1 h
    rw [spelled_iff hs, spelled_iff hs, isNameStart_iff_of_ascii hc]
    refine and_congr_right fun _ => forall_congr' fun d => imp_congr_right fun hd => ?_
    exact isNameRest_iff_of_ascii (hcs d hd)

end Markup

end Marshal
