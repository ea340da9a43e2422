import Marshal.Number.Shortest
import Marshal.Proofs.Number.Nearest

/-!
# The shortest digits of a double

Whatever lies in the interval of a double is rounded to it (`Near.nearestBits_eq`), and the interval is
wide enough for a decimal of seventeen digits (`exists_neighbour?_seventeen`). So the shortest digits
of a finite double denote a number that is rounded to the double itself (`ofDecimal_shortest`).
-/

namespace Marshal.Number

namespace Double

/-! ## Fields -/

/-- The magnitude bits of a double, from its significand and exponent. -/
theorem magnitudeBits_eq (x : Double) : x.magnitudeBits =
    if x.significand < 2 ^ 52 then x.significand
    else (x.exponent + 1075).toNat * 2 ^ 52 + (x.significand - 2 ^ 52) := by
  have hmod := Nat.mod_lt x.magnitudeBits (by decide : 0 < 2 ^ 52)
  have hsplit := Nat.div_add_mod' x.magnitudeBits (2 ^ 52)
  have hfield : x.exponentField = x.magnitudeBits / 2 ^ 52 := rfl
  unfold significand exponent
  dsimp only [Nat.pow_eq]
  by_cases hf : x.exponentField = 0
  · rw [if_pos hf, if_pos hmod]
    rw [← hfield, hf] at hsplit
    omega
  · rw [if_neg hf, if_neg hf, if_neg (by omega)]
    omega

theorem significand_lt (x : Double) : x.significand < 2 ^ 53 := by
  unfold significand
  dsimp only [Nat.pow_eq]
  have := Nat.mod_lt x.magnitudeBits (by decide : 0 < 2 ^ 52)
  split <;> omega

theorem le_exponent (x : Double) : -1074 ≤ x.exponent := by
  unfold exponent
  split <;> omega

/-- Above the smallest exponent a significand has 53 bits. -/
theorem le_significand {x : Double} (h : -1074 < x.exponent) : 2 ^ 52 ≤ x.significand := by
  have hf : x.exponentField ≠ 0 := by
    intro hf
    rw [exponent, if_pos hf] at h
    exact absurd h (by decide)
  rw [significand, if_neg hf, Nat.pow_eq]
  exact Nat.le_add_left _ _

theorem significand_pos {x : Double} (h : x.isZero = false) : 0 < x.significand := by
  have hbits : x.magnitudeBits ≠ 0 := by simpa [isZero] using h
  rw [magnitudeBits_eq] at hbits
  split at hbits <;> omega

end Double

/-! ## The interval of a double -/

namespace Shortest

open Double

variable {x : Double} {num den : Nat}

/-- How far below its value the interval of a double begins, in quarters of its last place. -/
def gap (x : Double) : Nat := if x.significand = 2 ^ 52 ∧ -1074 < x.exponent then 1 else 2

theorem low_eq (x : Double) :
    (Interval.of x).low = (4 * x.significand - gap x) * 2 ^ x.exponent.toNat := by
  have hfield : -1074 < x.exponent ↔ 1 < x.exponentField := by
    unfold exponent
    split <;> omega
  show (4 * x.significand - (if (x.significand == Nat.pow 2 52 && decide (1 < x.exponentField)) = true
    then 1 else 2)) * 2 ^ x.exponent.toNat = _
  rw [gap]
  simp only [hfield, Bool.and_eq_true, beq_iff_eq, decide_eq_true_eq, Nat.pow_eq]

theorem gap_pos (x : Double) : 0 < gap x := by
  rw [gap]
  split <;> decide

theorem gap_le (x : Double) : gap x ≤ 2 := by
  rw [gap]
  split <;> decide

/-- **A number that rounds to a double**: it lies between the middles to the neighbours, and on none of
them if the significand is odd. -/
structure Near (x : Double) (v : ℚ) : Prop where
  low : (4 * x.significand - gap x) * 2 ^ x.exponent ≤ 4 * v
  high : 4 * v ≤ (4 * x.significand + 2) * 2 ^ x.exponent
  odd : x.significand % 2 = 1 → (4 * x.significand - gap x) * 2 ^ x.exponent < 4 * v ∧
    4 * v < (4 * x.significand + 2) * 2 ^ x.exponent

/-- What lies in the interval of a double rounds to it. -/
theorem near_of_holds (hz : x.isZero = false) (hd : 0 < den)
    (h : (Interval.of x).holds num den = true) : Near x (num / den) := by
  have hm := significand_pos hz
  have hgap := gap_le x
  have hlow : (Interval.of x).low * den =
      (4 * x.significand - gap x) * (den * 2 ^ x.exponent.toNat) := by
    rw [low_eq]
    ring
  have hhigh : (Interval.of x).high * den =
      (4 * x.significand + 2) * (den * 2 ^ x.exponent.toNat) := by
    show (4 * x.significand + 2) * 2 ^ x.exponent.toNat * den = _
    ring
  have hmid : num * (Interval.of x).den = 4 * num * 2 ^ (-x.exponent).toNat := by
    show num * (4 * 2 ^ (-x.exponent).toNat) = _
    ring
  have hcast : (4 * x.significand - gap x : ℚ) = (4 * x.significand - gap x : ℕ) := by
    rw [Nat.cast_sub (by omega)]
    push_cast
    ring
  have hcast' : (4 * x.significand + 2 : ℚ) = (4 * x.significand + 2 : ℕ) := by
    push_cast
    ring
  have hfour : (4 * (num / den) : ℚ) = (4 * num : ℕ) / den := by
    push_cast
    ring
  rw [Interval.holds, hlow, hhigh, hmid] at h
  have hbounds : ((4 * x.significand - gap x) * (den * 2 ^ x.exponent.toNat) ≤
        4 * num * 2 ^ (-x.exponent).toNat ∧
      4 * num * 2 ^ (-x.exponent).toNat ≤ (4 * x.significand + 2) * (den * 2 ^ x.exponent.toNat)) ∧
      (x.significand % 2 = 1 → (4 * x.significand - gap x) * (den * 2 ^ x.exponent.toNat) <
        4 * num * 2 ^ (-x.exponent).toNat ∧
      4 * num * 2 ^ (-x.exponent).toNat < (4 * x.significand + 2) * (den * 2 ^ x.exponent.toNat)) := by
    split at h
    · rename_i hc
      have heven : x.significand % 2 = 0 := beq_iff_eq.1 hc
      rw [Bool.and_eq_true, decide_eq_true_iff, decide_eq_true_iff] at h
      exact ⟨h, fun hodd => by omega⟩
    · rw [Bool.and_eq_true, decide_eq_true_iff, decide_eq_true_iff] at h
      exact ⟨⟨h.1.le, h.2.le⟩, fun _ => h⟩
  obtain ⟨⟨hlow, hhigh⟩, hodd⟩ := hbounds
  rw [← not_lt, scaled_lt_iff hd, not_lt] at hlow
  rw [← not_lt, lt_scaled_iff hd, not_lt] at hhigh
  rw [scaled_lt_iff hd, lt_scaled_iff hd] at hodd
  refine ⟨?_, ?_, fun hm' => ?_⟩
  · rw [hcast, hfour]
    exact hlow
  · rw [hcast', hfour]
    exact hhigh
  · rw [hcast, hcast', hfour]
    exact hodd hm'

namespace Near

variable {v : ℚ}

theorem pos (h : Near x v) (hm : 0 < x.significand) : 0 < v := by
  have hm' : (1 : ℚ) ≤ x.significand := by exact_mod_cast hm
  have hgap : (gap x : ℚ) ≤ 2 := by exact_mod_cast gap_le x
  have hlow : (0 : ℚ) < (4 * x.significand - gap x) * 2 ^ x.exponent :=
    mul_pos (by linarith) (by positivity)
  linarith [h.low]

theorem lt (h : Near x v) : v < 2 ^ (x.exponent + 53) := by
  have hm : (x.significand : ℚ) + 1 ≤ 2 ^ 53 := by exact_mod_cast significand_lt x
  have hpow : (0 : ℚ) < 2 ^ x.exponent := by positivity
  rw [zpow_add₀ (by norm_num)]
  have := h.high
  norm_num at hm ⊢
  nlinarith

/-- The exponent at which a number is rounded is that of the double, or the one below it if the double
is the first of its exponent and the number lies before it. -/
theorem place (h : Near x v) {settled : Int} (hlow : (2 : ℚ) ^ (settled + 52) ≤ v)
    (hhigh : v < 2 ^ (settled + 53)) : max settled (-1074) = x.exponent ∨
      max settled (-1074) = x.exponent - 1 ∧ -1074 < x.exponent ∧ x.significand = 2 ^ 52 ∧
        v < 2 ^ (x.exponent + 52) := by
  have hle : settled ≤ x.exponent := by
    have := (zpow_lt_zpow_iff_right₀ (by norm_num : (1 : ℚ) < 2)).1 (hlow.trans_lt h.lt)
    omega
  have hexp := le_exponent x
  rcases hexp.eq_or_lt with hexp | hexp
  · exact .inl (by omega)
  have hm := le_significand hexp
  have hpow : (0 : ℚ) < 2 ^ x.exponent := by positivity
  by_cases hv : v < 2 ^ (x.exponent + 52)
  · have hfour : v < 2 ^ 52 * 2 ^ x.exponent := by
      rwa [zpow_add₀ (by norm_num), mul_comm] at hv
    have hfirst : x.significand = 2 ^ 52 := by
      by_contra hne
      have hgap : gap x = 2 := if_neg fun hc => hne hc.1
      have hm' : (2 ^ 52 + 1 : ℚ) ≤ x.significand := by exact_mod_cast (by omega : 2 ^ 52 + 1 ≤ x.significand)
      have := h.low
      rw [hgap] at this
      push_cast at this
      nlinarith
    have hgap : gap x = 1 := if_pos ⟨hfirst, hexp⟩
    have hbelow : (2 : ℚ) ^ (x.exponent + 51) < v := by
      have := h.low
      rw [hgap, hfirst] at this
      push_cast at this
      rw [zpow_add₀ (by norm_num)]
      norm_num at this ⊢
      linarith
    have := (zpow_lt_zpow_iff_right₀ (by norm_num : (1 : ℚ) < 2)).1 (hbelow.trans hhigh)
    have := (zpow_lt_zpow_iff_right₀ (by norm_num : (1 : ℚ) < 2)).1 (hlow.trans_lt hv)
    exact .inr ⟨by omega, hexp, hfirst, hv⟩
  · have := (zpow_lt_zpow_iff_right₀ (by norm_num : (1 : ℚ) < 2)).1 ((not_lt.1 hv).trans_lt hhigh)
    exact .inl (by omega)

/-- At the exponent of the double, the quotient is rounded to the significand. -/
theorem roundHalfEven_eq (h : Near x (num / den)) (hm : 0 < x.significand) (hd : 0 < den) :
    roundHalfEven (num * 2 ^ (-x.exponent).toNat) (den * 2 ^ x.exponent.toNat) = x.significand := by
  have hpow : (0 : ℚ) < 2 ^ x.exponent := by positivity
  have hgap : (gap x : ℚ) ≤ 2 := by exact_mod_cast gap_le x
  have hcast : ((2 * x.significand - 1 : ℕ) : ℚ) = 2 * x.significand - 1 := by
    rw [Nat.cast_sub (by omega)]
    push_cast
    ring
  have htwo : ((2 * num : ℕ) / den : ℚ) = 2 * (num / den) := by
    push_cast
    ring
  refine roundHalfEven_scaled hd hm ?_ ?_ fun hodd => ?_
  · rw [hcast, htwo]
    nlinarith [h.low]
  · rw [htwo]
    push_cast
    linarith [h.high]
  · obtain ⟨hlow, hhigh⟩ := h.odd hodd
    rw [hcast, htwo]
    push_cast
    constructor
    · nlinarith
    · linarith

/-- Below the first double of an exponent the quotient is rounded up to the last place. -/
theorem roundHalfEven_eq_of_lt (h : Near x (num / den)) (hd : 0 < den) (hexp : -1074 < x.exponent)
    (hm : x.significand = 2 ^ 52) (hv : (num / den : ℚ) < 2 ^ (x.exponent + 52)) :
    roundHalfEven (num * 2 ^ (-(x.exponent - 1)).toNat) (den * 2 ^ (x.exponent - 1).toNat) =
      2 ^ 53 := by
  have hgap : gap x = 1 := if_pos ⟨hm, hexp⟩
  have htwo : ((2 * num : ℕ) / den : ℚ) = 2 * (num / den) := by
    push_cast
    ring
  have hhalf : (2 : ℚ) ^ x.exponent = 2 * 2 ^ (x.exponent - 1) := by
    rw [zpow_sub_one₀ (by norm_num)]
    ring
  have hlow := h.low
  rw [hgap, hm, hhalf] at hlow
  rw [zpow_add₀ (by norm_num), hhalf] at hv
  norm_num at hlow hv
  have hpow : (0 : ℚ) < 2 ^ (x.exponent - 1) := by positivity
  refine roundHalfEven_scaled hd (by decide) ?_ ?_ fun hodd => absurd hodd (by decide)
  · rw [htwo]
    norm_num
    linarith
  · rw [htwo]
    norm_num
    linarith

/-- **A number near a finite double** is rounded to it. -/
theorem nearestBits_eq (h : Near x (num / den)) (hx : x.isFinite = true) (hm : 0 < x.significand)
    (hd : 0 < den) : nearestBits num den = x.magnitudeBits := by
  have hn : num ≠ 0 := by
    rintro rfl
    have := h.pos hm
    rw [Nat.cast_zero, zero_div] at this
    exact lt_irrefl _ this
  have hbits : x.magnitudeBits < infinityBits := of_decide_eq_true hx
  have hfields := magnitudeBits_eq x
  rw [nearestBits, if_neg hn]
  dsimp only [Nat.pow_eq]
  generalize hfirst : (num.log2 : Int) - den.log2 - 52 = first
  generalize hsettled : (if num * 2 ^ (-first).toNat < 2 ^ 52 * (den * 2 ^ first.toNat) then first - 1
    else first) = settled
  obtain ⟨hlow, hhigh⟩ := settled_bounds hn hd hfirst.symm hsettled.symm
  rcases h.place hlow hhigh with he | ⟨he, hexp, hfirst, hv⟩
  · rw [he, h.roundHalfEven_eq hm hd]
    split at hfields
    · rename_i hlt
      rw [if_pos hlt, hfields]
    · rename_i hge
      rw [if_neg hge, ← hfields, min_eq_right hbits.le]
  · rw [he, h.roundHalfEven_eq_of_lt hd hexp hfirst hv, if_neg (by decide)]
    rw [hfirst, if_neg (by decide)] at hfields
    have hsame : (x.exponent - 1 + 1075).toNat * 2 ^ 52 + (2 ^ 53 - 2 ^ 52) = x.magnitudeBits := by
      omega
    rw [hsame, min_eq_right hbits.le]

end Near

/-! ## Seventeen digits -/

namespace Interval

variable {i : Interval} {n d : Nat}

theorem holds_of_neighbour? {tie : Tie} {unit : Int}
    (h : i.neighbour? tie unit = some n) :
    i.holds (n * 10 ^ unit.toNat) (10 ^ (-unit).toNat) = true := by
  unfold neighbour? at h
  dsimp only [Nat.pow_eq] at h
  split at h
  · cases h
  all_goals
    rename_i h₁ h₂
    repeat' split at h
    all_goals
      obtain rfl := Option.some.inj h
      assumption

theorem le_low_of_not_holds (hhigh : i.value < i.high) (hd : 0 < d) (hn : n * i.den ≤ i.value * d)
    (h : i.holds n d = false) : n * i.den ≤ i.low * d := by
  have hlt : n * i.den < i.high * d := hn.trans_lt (Nat.mul_lt_mul_of_pos_right hhigh hd)
  by_contra hlow
  have hlow := not_le.1 hlow
  unfold holds at h
  split at h
  · simp [hlow.le, hlt.le] at h
  · simp [hlow, hlt] at h

theorem high_le_of_not_holds (hlow : i.low < i.value) (hd : 0 < d) (hn : i.value * d ≤ n * i.den)
    (h : i.holds n d = false) : i.high * d ≤ n * i.den := by
  have hlt : i.low * d < n * i.den := (Nat.mul_lt_mul_of_pos_right hlow hd).trans_le hn
  by_contra hhigh
  have hhigh := not_le.1 hhigh
  unfold holds at h
  split at h
  · simp [hhigh.le, hlt.le] at h
  · simp [hhigh, hlt] at h

/-- A grid that is finer than the interval is wide has a neighbour of the value inside. -/
theorem exists_neighbour? (hlow : i.low < i.value) (hhigh : i.value < i.high) (hden : 0 < i.den)
    (tie : Tie) {unit : Int}
    (hwide : i.den * 10 ^ unit.toNat + i.low * 10 ^ (-unit).toNat < i.high * 10 ^ (-unit).toNat) :
    ∃ n, i.neighbour? tie unit = some n := by
  have hdown : 0 < 10 ^ (-unit).toNat := by positivity
  have hgrid : 0 < i.den * 10 ^ unit.toNat := by positivity
  unfold neighbour?
  dsimp only [Nat.pow_eq]
  generalize ha : i.value * 10 ^ (-unit).toNat / (i.den * 10 ^ unit.toNat) = a
  have hbelow : a * 10 ^ unit.toNat * i.den ≤ i.value * 10 ^ (-unit).toNat := by
    rw [Nat.mul_assoc, Nat.mul_comm _ i.den, ← ha]
    exact Nat.div_mul_le_self _ _
  have habove : i.value * 10 ^ (-unit).toNat ≤ (a + 1) * 10 ^ unit.toNat * i.den := by
    rw [Nat.mul_assoc, Nat.mul_comm _ i.den, ← ha, Nat.mul_comm _ (i.den * _)]
    exact (Nat.lt_mul_div_succ _ hgrid).le
  split
  · rename_i h₁ h₂
    -- both neighbours outside: one step of the grid spans the interval
    exfalso
    have h₁ := le_low_of_not_holds hhigh hdown hbelow h₁
    have h₂ := high_le_of_not_holds hlow hdown habove h₂
    have hstep : (a + 1) * 10 ^ unit.toNat * i.den =
        a * 10 ^ unit.toNat * i.den + i.den * 10 ^ unit.toNat := by ring
    omega
  · exact ⟨_, rfl⟩
  · exact ⟨_, rfl⟩
  · split
    · exact ⟨_, rfl⟩
    · split
      · exact ⟨_, rfl⟩
      · cases tie with
        | up => exact ⟨_, rfl⟩
        | toEven =>
          dsimp only
          split <;> exact ⟨_, rfl⟩

theorem pow_le_of_length_toDigits {n : Nat} (hn : n ≠ 0) :
    10 ^ ((Nat.toDigits 10 n).length - 1) ≤ n := by
  have hlen : 0 < (Nat.toDigits 10 n).length := List.length_pos_iff.2 Nat.toDigits_ne_nil
  by_contra hlt
  rcases Nat.eq_zero_or_pos ((Nat.toDigits 10 n).length - 1) with h | h
  · rw [h] at hlt
    omega
  · have := (Nat.length_toDigits_le_iff (by decide) h).2 (not_le.1 hlt)
    omega

/-- The grid of seventeen digits is finer than the value by sixteen digits. -/
theorem unit_le (hden : 0 < i.den) (hsmall : i.den ≤ i.value * Nat.pow 10 400) {unit : Int}
    (hunit : unit = i.place - 17 + 1) :
    10 ^ 16 * (i.den * 10 ^ unit.toNat) ≤ i.value * 10 ^ (-unit).toNat := by
  unfold place at hunit
  have hadd : ∀ e k, 10 ^ (k + e) = 10 ^ k * Nat.pow 10 e := fun e k => Nat.pow_add 10 k e
  specialize hadd 400
  generalize Nat.pow 10 400 = big at hsmall hunit hadd
  have hfloor : i.value * big / i.den ≠ 0 := by
    rw [Nat.div_ne_zero_iff]
    exact ⟨hden.ne', hsmall⟩
  have hpow := pow_le_of_length_toDigits hfloor
  have hlen : 0 < (Nat.toDigits 10 (i.value * big / i.den)).length :=
    List.length_pos_iff.2 Nat.toDigits_ne_nil
  generalize (Nat.toDigits 10 (i.value * big / i.den)).length = l at hpow hlen hunit
  rw [Nat.le_div_iff_mul_le hden] at hpow
  rcases Nat.lt_or_ge l 417 with hl | hl
  · rw [show unit.toNat = 0 by omega, show (-unit).toNat = 417 - l by omega]
    refine Nat.le_of_mul_le_mul_left ?_ (by positivity : 0 < 10 ^ (l - 1))
    calc 10 ^ (l - 1) * (10 ^ 16 * (i.den * 10 ^ 0)) = 10 ^ 16 * (10 ^ (l - 1) * i.den) := by ring
      _ ≤ 10 ^ 16 * (i.value * big) := Nat.mul_le_mul_left _ hpow
      _ = i.value * 10 ^ (l - 1 + (417 - l)) := by
          rw [show l - 1 + (417 - l) = 16 + 400 by omega, hadd]
          ring
      _ = 10 ^ (l - 1) * (i.value * 10 ^ (417 - l)) := by
          rw [pow_add]
          ring
  · rw [show unit.toNat = l - 417 by omega, show (-unit).toNat = 0 by omega, pow_zero, mul_one]
    have hpos : 0 < big := Nat.pos_of_mul_pos_left (hden.trans_le hsmall)
    refine Nat.le_of_mul_le_mul_right ?_ hpos
    calc 10 ^ 16 * (i.den * 10 ^ (l - 417)) * big = 10 ^ (l - 417 + 16) * big * i.den := by
          rw [pow_add]
          ring
      _ = 10 ^ (l - 1) * i.den := by rw [show l - 1 = l - 417 + 16 + 400 by omega, hadd]
      _ ≤ i.value * big := hpow

end Interval

/-- Seventeen digits tell the neighbours of a double apart. -/
theorem exists_neighbour?_seventeen (hm : 0 < x.significand) (tie : Tie) :
    ∃ n, (Interval.of x).neighbour? tie ((Interval.of x).place - 17 + 1) = some n := by
  have hscale : 0 < 2 ^ x.exponent.toNat := by positivity
  have hgap := gap_pos x
  have hgap' := gap_le x
  have hlow := low_eq x
  have hvalue : (Interval.of x).value = 4 * x.significand * 2 ^ x.exponent.toNat := rfl
  have hhigh : (Interval.of x).high = (4 * x.significand + 2) * 2 ^ x.exponent.toNat := rfl
  have hden : (Interval.of x).den = 4 * 2 ^ (-x.exponent).toNat := rfl
  have hsmall : (Interval.of x).den ≤ (Interval.of x).value * Nat.pow 10 400 := by
    have hexp := le_exponent x
    have hle : 2 ^ (-x.exponent).toNat ≤ Nat.pow 10 400 := by
      refine (Nat.pow_le_pow_right (by decide) (by omega : (-x.exponent).toNat ≤ 1074)).trans ?_
      decide +kernel
    have hone : 4 ≤ (Interval.of x).value := by
      rw [hvalue]
      have := Nat.mul_pos hm hscale
      rw [Nat.mul_assoc]
      omega
    rw [hden]
    exact Nat.mul_le_mul hone hle
  have hunit := Interval.unit_le (by rw [hden]; positivity) hsmall rfl
  generalize (Interval.of x).place - 17 + 1 = unit at hunit ⊢
  have hfine : 4 * x.significand < (gap x + 2) * 10 ^ 16 := by
    have := significand_lt x
    rw [gap]
    split
    · rename_i h
      omega
    · omega
  refine Interval.exists_neighbour? ?_ ?_ (by rw [hden]; positivity) tie ?_
  · rw [hlow, hvalue]
    exact Nat.mul_lt_mul_of_pos_right (by omega) hscale
  · rw [hvalue, hhigh]
    exact Nat.mul_lt_mul_of_pos_right (by omega) hscale
  · have hdown : 0 < 10 ^ (-unit).toNat := by positivity
    rw [hvalue] at hunit
    have hstep : (Interval.of x).den * 10 ^ unit.toNat <
        (gap x + 2) * (2 ^ x.exponent.toNat * 10 ^ (-unit).toNat) := by
      refine Nat.lt_of_mul_lt_mul_left (a := 10 ^ 16) (hunit.trans_lt ?_)
      calc 4 * x.significand * 2 ^ x.exponent.toNat * 10 ^ (-unit).toNat
          = 4 * x.significand * (2 ^ x.exponent.toNat * 10 ^ (-unit).toNat) := by ring
        _ < (gap x + 2) * 10 ^ 16 * (2 ^ x.exponent.toNat * 10 ^ (-unit).toNat) :=
            Nat.mul_lt_mul_of_pos_right hfine (by positivity)
        _ = 10 ^ 16 * ((gap x + 2) * (2 ^ x.exponent.toNat * 10 ^ (-unit).toNat)) := by ring
    have hsplit : (Interval.of x).high = (Interval.of x).low + (gap x + 2) * 2 ^ x.exponent.toNat := by
      rw [hhigh, hlow, ← Nat.add_mul]
      congr 1
      omega
    rw [hsplit, Nat.add_mul, Nat.mul_assoc (gap x + 2)]
    omega

/-- **The digits that the search finds** lie in the interval. -/
theorem holds_search (hm : 0 < x.significand) (tie : Tie) {fuel count : Nat} (hfuel : 0 < fuel)
    (hcount : fuel + count = 18) : (Interval.of x).holds
      (((Interval.of x).search tie fuel count).digits *
        10 ^ ((Interval.of x).search tie fuel count).exponent.toNat)
      (10 ^ (-((Interval.of x).search tie fuel count).exponent).toNat) = true := by
  induction fuel generalizing count with
  | zero => omega
  | succ fuel ih =>
    rw [Interval.search]
    split
    · rename_i n hn
      exact Interval.holds_of_neighbour? hn
    · rename_i hnone
      rcases Nat.eq_zero_or_pos fuel with rfl | hpos
      · obtain rfl : count = 17 := by omega
        obtain ⟨n, hn⟩ := exists_neighbour?_seventeen hm tie
        rw [show ((17 : ℕ) : Int) = 17 from rfl, hn] at hnone
        cases hnone
      · exact ih hpos (by omega)

end Shortest

/-! ## The double of the digits -/

namespace Decimal

/-- The number that a decimal denotes. -/
def value (d : Decimal) : ℚ := d.digits * 10 ^ d.exponent

theorem value_eq_div (d : Decimal) : d.value =
    (d.digits * 10 ^ d.exponent.toNat : ℕ) / (10 ^ (-d.exponent).toNat : ℕ) := by
  rw [value]
  push_cast
  rcases le_total 0 d.exponent with he | he
  · lift d.exponent to ℕ using he with e
    simp
  · obtain ⟨e, he⟩ := Int.exists_eq_neg_ofNat he
    rw [he]
    simp [div_eq_mul_inv]

theorem value_strip (d : Decimal) (fuel : Nat) : (strip fuel d).value = d.value := by
  induction fuel generalizing d with
  | zero => rfl
  | succ fuel ih =>
    rw [strip]
    split
    · rename_i hd
      obtain ⟨k, hk⟩ := Nat.dvd_of_mod_eq_zero hd.1
      rw [ih, value, value]
      dsimp only
      rw [hk, Nat.mul_div_cancel_left k (by decide), zpow_add_one₀ (by norm_num)]
      push_cast
      ring
    · rfl

end Decimal

namespace Double

variable {x : Double}

/-- The shortest digits of a double denote a number near to it. -/
theorem near_shortest (hz : x.isZero = false) (tie : Tie) :
    Shortest.Near x (x.shortest tie).value := by
  rw [shortest, if_neg (Bool.eq_false_iff.1 hz), Decimal.value_strip, Decimal.value_eq_div]
  exact Shortest.near_of_holds hz (by positivity)
    (Shortest.holds_search (significand_pos hz) tie (by decide) (by decide))

theorem ofMagnitude_magnitudeBits (x : Double) : ofMagnitude x.isNegative x.magnitudeBits = x := by
  have hlt := x.bits.toNat_lt
  have hsum : (if x.isNegative then Nat.pow 2 63 else 0) + x.magnitudeBits = x.bits.toNat := by
    rw [isNegative, magnitudeBits, Nat.pow_eq]
    split <;> rename_i h <;> rw [decide_eq_true_eq] at h <;> omega
  rw [ofMagnitude, hsum, UInt64.ofNat_toNat]

/-- A number near a double is not as small as those that are read as zero at once. -/
theorem le_log2_of_near {digits k : Nat} (h : Shortest.Near x (digits / (10 ^ k : ℕ)))
    (hm : 0 < x.significand) : k ≤ digits.log2 + 400 := by
  rcases Nat.lt_or_ge k 400 with hk | hk
  · omega
  have hpow : (0 : ℚ) < 10 ^ k := by positivity
  have hlow : (2 : ℚ) ^ (-1075 : Int) ≤ digits / (10 ^ k : ℕ) := by
    have hm' : (1 : ℚ) ≤ x.significand := by exact_mod_cast hm
    have hgap : (Shortest.gap x : ℚ) ≤ 2 := by exact_mod_cast Shortest.gap_le x
    have hle : (2 : ℚ) ^ (-1074 : Int) ≤ 2 ^ x.exponent :=
      zpow_le_zpow_right₀ (by norm_num) (le_exponent x)
    have htwo : (2 : ℚ) * 2 ^ x.exponent ≤ (4 * x.significand - Shortest.gap x) * 2 ^ x.exponent :=
      mul_le_mul_of_nonneg_right (by linarith) (by positivity)
    rw [show (-1075 : Int) = -1074 - 1 from rfl, zpow_sub_one₀ (by norm_num)]
    linarith [h.low]
  have hdigits : (2 : ℚ) ^ (k - 400 : ℕ) ≤ digits := by
    rw [Nat.cast_pow, Nat.cast_ofNat, le_div_iff₀ hpow] at hlow
    refine le_trans ?_ hlow
    calc (2 : ℚ) ^ (k - 400 : ℕ) = 2 ^ ((k : Int) - 400) := by
          rw [← zpow_natCast, Nat.cast_sub hk]
          rfl
      _ ≤ 2 ^ (-1075 + 3 * (k : Int)) := zpow_le_zpow_right₀ (by norm_num) (by omega)
      _ = 2 ^ (-1075 : Int) * 8 ^ k := by
          rw [zpow_add₀ (by norm_num), zpow_mul, zpow_natCast]
          norm_num
      _ ≤ 2 ^ (-1075 : Int) * 10 ^ k := by gcongr; norm_num
  have hle : 2 ^ (k - 400) ≤ digits := by exact_mod_cast hdigits
  have hne : digits ≠ 0 := by
    have := Nat.two_pow_pos (k - 400)
    omega
  have := (Nat.le_log2 hne).2 hle
  omega

/-- **The shortest digits of a finite double** are rounded to the double itself. -/
theorem ofDecimal_shortest (hx : x.isFinite = true) (tie : Tie) :
    ofDecimal x.isNegative ((x.shortest tie).digits * 10 ^ (x.shortest tie).exponent.toNat)
      (-((-(x.shortest tie).exponent).toNat : Int)) = x := by
  cases hz : x.isZero with
  | true =>
    have hbits : x.magnitudeBits = 0 := by simpa [isZero] using hz
    rw [shortest, if_pos hz, ofDecimal, if_pos (Nat.zero_mul _), ← hbits]
    exact ofMagnitude_magnitudeBits x
  | false =>
    have hm := significand_pos hz
    have hnear := near_shortest hz tie
    rw [Decimal.value_eq_div] at hnear
    generalize (x.shortest tie).digits * 10 ^ (x.shortest tie).exponent.toNat = digits at hnear ⊢
    generalize (-(x.shortest tie).exponent).toNat = k at hnear ⊢
    have hdigits : digits ≠ 0 := by
      rintro rfl
      have := hnear.pos hm
      rw [Nat.cast_zero, zero_div] at this
      exact lt_irrefl _ this
    have hlog := le_log2_of_near hnear hm
    rw [ofDecimal, if_neg hdigits, if_neg (by omega), if_neg (by omega), ofQuotient, Nat.pow_eq,
      Nat.pow_eq, show (-(k : Int)).toNat = 0 by omega, show (-(-(k : Int))).toNat = k by omega,
      pow_zero, mul_one, hnear.nearestBits_eq hx hm (by positivity)]
    exact ofMagnitude_magnitudeBits x

end Double

end Marshal.Number
