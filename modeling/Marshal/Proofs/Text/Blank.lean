import Marshal.Text.Blank
import Mathlib.Data.List.TakeWhile

/-!
# Trimming

A text with no blank characters at its ends is left as it is (`trimChars_of_ends`).
-/

namespace Marshal.Text

theorem isBlank_of_isDigit {c : Char} (h : c.isDigit = true) : isBlank c = false := by
  simp only [Char.isDigit, Bool.and_eq_true, decide_eq_true_iff] at h
  have hlo : 48 ≤ c.toNat := h.1
  have hhi : c.toNat ≤ 57 := h.2
  simp [isBlank]
  omega

theorem dropBlank_of_head {cs : List Char} (h : ∀ c, cs.head? = some c → isBlank c = false) :
    dropBlank cs = cs := by
  rcases cs with _ | ⟨c, cs⟩
  · rfl
  · rw [dropBlank, List.dropWhile_cons_of_neg (by simp [h c rfl])]

/-- **Nothing is trimmed** from a text that neither starts nor ends with a blank. -/
theorem trimChars_of_ends {cs : List Char} (hh : ∀ c, cs.head? = some c → isBlank c = false)
    (hl : ∀ c, cs.getLast? = some c → isBlank c = false) : trimChars cs = cs := by
  rw [trimChars, dropBlank_of_head hh, dropBlank_of_head (by simpa using hl), List.reverse_reverse]

theorem trimChars_of_not_blank {cs : List Char} (h : ∀ c ∈ cs, isBlank c = false) :
    trimChars cs = cs :=
  trimChars_of_ends (fun c hc => h c (List.mem_of_head? hc))
    fun c hc => h c (List.mem_of_getLast? hc)

theorem trim_of_ends {s : String} (hh : ∀ c, s.toList.head? = some c → isBlank c = false)
    (hl : ∀ c, s.toList.getLast? = some c → isBlank c = false) : trim s = s := by
  rw [trim, trimChars_of_ends hh hl, String.ofList_toList]

end Marshal.Text
