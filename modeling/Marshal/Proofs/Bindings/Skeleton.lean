import Marshal.Bindings.Print
import Marshal.Proofs.Text.Words
import Mathlib.Algebra.GroupWithZero.Nat

/-!
# What lines are made of

The lines of a text, and the skeleton of lines: without those that are comments, and with nothing in
string literals. Lines that hold no line breaks are the lines of the text that they make up
(`linesOf_unlines`), and a literal leaves nothing in the skeleton, whatever it holds
(`hollowChars_literal`).
-/

namespace Marshal.Bindings

/-! ## Texts in texts -/

section Infix

variable {part a b cs : List Char} {x : Char}

theorem occursIn_iff : occursIn part cs = true ↔ part <:+: cs := by
  induction cs with
  | nil => simp [occursIn]
  | cons c cs ih => rw [occursIn, Bool.or_eq_true, List.isPrefixOf_iff_prefix, ih, List.infix_cons_iff]

theorem prefix_of_prefix_append_cons (hx : x ∉ part) (h : part <+: a ++ x :: b) : part <+: a := by
  induction a generalizing part with
  | nil =>
    rcases part with _ | ⟨y, part⟩
    · exact List.nil_prefix
    · rw [List.nil_append, List.cons_prefix_cons] at h
      exact absurd (h.1 ▸ List.mem_cons_self) hx
  | cons c a ih =>
    rcases part with _ | ⟨y, part⟩
    · exact List.nil_prefix
    · rw [List.cons_append, List.cons_prefix_cons] at h
      exact List.cons_prefix_cons.2 ⟨h.1, ih (fun hmem => hx (List.mem_cons_of_mem y hmem)) h.2⟩

/-- A text without some character stands before or behind it. -/
theorem infix_append_cons_iff (hx : x ∉ part) : part <:+: a ++ x :: b ↔ part <:+: a ∨ part <:+: b := by
  constructor
  · intro h
    induction a with
    | nil =>
      rcases List.infix_cons_iff.1 h with hprefix | hinfix
      · exact .inl (prefix_of_prefix_append_cons (a := []) hx hprefix).isInfix
      · exact .inr hinfix
    | cons c a ih =>
      rcases List.infix_cons_iff.1 h with hprefix | hinfix
      · exact .inl (prefix_of_prefix_append_cons (a := c :: a) hx hprefix).isInfix
      · exact (ih hinfix).imp_left fun h => List.infix_cons_iff.2 (.inr h)
  · rintro (h | h)
    · exact h.trans (List.prefix_append _ _).isInfix
    · exact h.trans ((List.suffix_cons x b).trans (List.suffix_append a _)).isInfix

/-- A text does not begin where its first character is missing. -/
theorem infix_of_infix_append (hx : x ∉ a) (h : x :: part <:+: a ++ b) : x :: part <:+: b := by
  induction a with
  | nil => exact h
  | cons c a ih =>
    rcases List.infix_cons_iff.1 h with hprefix | hinfix
    · exact absurd ((List.cons_prefix_cons.1 hprefix).1 ▸ List.mem_cons_self) hx
    · exact ih (fun hmem => hx (List.mem_cons_of_mem c hmem)) hinfix

end Infix

/-! ## Lines of a text -/

theorem toList_unlines (ls : List String) :
    (unlines ls).toList = ls.flatMap fun l => l.toList ++ ['\n'] := by
  induction ls with
  | nil => rfl
  | cons l ls ih => simpa [unlines, String.join_cons] using ih

theorem infix_unlines_iff {part : List Char} (hne : part ≠ []) (hbreak : '\n' ∉ part)
    {ls : List String} : part <:+: (unlines ls).toList ↔ ∃ l ∈ ls, part <:+: l.toList := by
  rw [toList_unlines]
  induction ls with
  | nil => simp [hne]
  | cons l ls ih => simp [infix_append_cons_iff hbreak, ih]

/-- The lines of a text, each of them ended by a line break. -/
def linesOf (text : String) : List String :=
  (text.toList.splitOn '\n').dropLast.map String.ofList

/-- How many line breaks a text has. -/
def breaks (s : String) : Nat := s.toList.count '\n'

theorem breaks_append (s t : String) : breaks (s ++ t) = breaks s + breaks t := by
  rw [breaks, String.toList_append, List.count_append, breaks, breaks]

theorem breaks_eq_zero_iff {s : String} : breaks s = 0 ↔ '\n' ∉ s.toList := List.count_eq_zero

/-- A text has as many lines as line breaks. -/
theorem length_linesOf (text : String) : (linesOf text).length = breaks text := by
  have hpieces : ∀ cs : List Char, (cs.splitOn '\n').length = cs.count '\n' + 1 := fun cs => by
    induction cs with
    | nil => rfl
    | cons c cs ih =>
      rw [List.splitOn, List.splitOnP_cons_eq_if_modifyHead, ← List.splitOn, List.count_cons]
      split <;> simp [ih]
  rw [linesOf, List.length_map, List.length_dropLast, hpieces, Nat.add_sub_cancel, breaks]

/-- Lines make up a text of as many lines, and of one more for each line break within one. -/
theorem length_linesOf_unlines (ls : List String) :
    (linesOf (unlines ls)).length = ls.length + (ls.map breaks).sum := by
  rw [length_linesOf, breaks, toList_unlines, List.count_flatMap]
  induction ls with
  | nil => rfl
  | cons l ls ih =>
    simp only [List.map_cons, List.sum_cons, List.length_cons, ih, Function.comp_apply,
      List.count_append, List.count_singleton_self, breaks]
    omega

/-- **Lines are those of the text that they make up**, unless they hold line breaks. -/
theorem linesOf_unlines {ls : List String} (h : ∀ l ∈ ls, '\n' ∉ l.toList) :
    linesOf (unlines ls) = ls := by
  have hpieces : (unlines ls).toList.splitOn '\n' = ls.map String.toList ++ [[]] := by
    rw [toList_unlines]
    induction ls with
    | nil => rfl
    | cons l ls ih =>
      rw [List.flatMap_cons, List.append_assoc, List.singleton_append,
        List.splitOn_append_cons_self_of_not_mem (h l (by simp)),
        ih fun k hk => h k (List.mem_cons_of_mem l hk)]
      rfl
  rw [linesOf, hpieces, List.dropLast_concat, List.map_map]
  simp

/-- What stands between two line breaks of a line is a line of the text. -/
theorem mem_linesOf_unlines {ls : List String} {l line : String} (a b : List Char) (hmem : line ∈ ls)
    (hline : line.toList = a ++ '\n' :: (l.toList ++ '\n' :: b)) (hl : '\n' ∉ l.toList) :
    l ∈ linesOf (unlines ls) := by
  obtain ⟨before, after, rfl⟩ := List.append_of_mem hmem
  have htext : (unlines (before ++ line :: after)).toList = ((unlines before).toList ++ a) ++
      '\n' :: (l.toList ++ '\n' :: (b ++ '\n' :: (unlines after).toList)) := by
    simp [toList_unlines, hline]
  have hpieces : ∃ p q, q ≠ [] ∧ (unlines (before ++ line :: after)).toList.splitOn '\n' =
      p ++ l.toList :: q := by
    rw [htext, List.splitOn_append_cons_self, List.splitOn_append_cons_self_of_not_mem hl]
    exact ⟨_, _, List.splitOn_ne_nil _ _, rfl⟩
  obtain ⟨p, q, hq, hpieces⟩ := hpieces
  rw [linesOf, hpieces, List.mem_map]
  refine ⟨l.toList, ?_, String.ofList_toList⟩
  obtain ⟨k, q, rfl⟩ := List.exists_cons_of_ne_nil hq
  rw [List.dropLast_append_cons, List.dropLast_cons_cons]
  simp

/-! ## Skeletons -/

/-- Whether a line is a comment. -/
def isComment (line : String) : Bool :=
  "///".toList.isPrefixOf (line.toList.dropWhile (· == ' '))

/-- The characters of a line without what stands in string literals; the first argument says whether
the line begins in one. -/
def hollowChars : Bool → List Char → List Char
  | _, [] => []
  | false, c :: cs => c :: hollowChars (c == '"') cs
  | true, '\\' :: _ :: cs => hollowChars true cs
  | true, c :: cs => if c = '"' then '"' :: hollowChars false cs else hollowChars true cs

/-- A line without what stands in string literals. -/
def hollow (line : String) : String := String.ofList (hollowChars false line.toList)

/-- Lines without comments and without what stands in string literals. -/
def skeleton (lines : List String) : List String :=
  (lines.filter fun l => !isComment l).map hollow

theorem skeleton_append (ls ms : List String) :
    skeleton (ls ++ ms) = skeleton ls ++ skeleton ms := by
  simp [skeleton]

theorem skeleton_flatMap {α : Type} (xs : List α) (f : α → List String) :
    skeleton (xs.flatMap f) = xs.flatMap fun x => skeleton (f x) := by
  induction xs with
  | nil => rfl
  | cons x xs ih => rw [List.flatMap_cons, skeleton_append, ih, List.flatMap_cons]

theorem skeleton_cons_of_isComment {l : String} (hl : isComment l = true) (ls : List String) :
    skeleton (l :: ls) = skeleton ls := by
  simp [skeleton, hl]

theorem hollowChars_of_not_mem {a : List Char} (ha : '"' ∉ a) (rest : List Char) :
    hollowChars false (a ++ rest) = a ++ hollowChars false rest := by
  induction a with
  | nil => rfl
  | cons c a ih =>
    rw [List.mem_cons, not_or] at ha
    have hc : (c == '"') = false := beq_false_of_ne fun h => ha.1 h.symm
    rw [List.cons_append, hollowChars, hc, ih ha.2, List.cons_append]

theorem hollow_of_not_mem {l : String} (hl : '"' ∉ l.toList) : hollow l = l := by
  have h := hollowChars_of_not_mem hl []
  rw [List.append_nil, hollowChars, List.append_nil] at h
  rw [hollow, h, String.ofList_toList]

/-! ## Literals -/

theorem isSmall_of_mem_toDigits (n : Nat) : ∀ d ∈ Nat.toDigits 16 n, Text.isSmall d = true := by
  have hdigit : ∀ m < 16, Text.isSmall (Nat.digitChar m) = true := by decide
  induction n using Nat.strongRecOn with
  | ind n ih =>
    intro d hd
    rw [Nat.toDigits_eq_if (by decide)] at hd
    split at hd
    · rename_i hn
      rw [List.mem_singleton] at hd
      exact hd ▸ hdigit n hn
    · rename_i hn
      rw [List.mem_append, List.mem_singleton] at hd
      rcases hd with hd | rfl
      · exact ih (n / 16) (by omega) d hd
      · exact hdigit _ (Nat.mod_lt _ (by decide))

/-- In a string literal a character stands for itself, or a backslash begins what stands for it. -/
theorem literalChar_cases (c : Char) : (literalChar c = [c] ∧ c ∉ ['"', '\\', '\n']) ∨
    ∃ e ds, literalChar c = '\\' :: e :: ds ∧ (Text.isSmall e = true ∨ e ∈ ['\'', '"', '\\']) ∧
      ∀ d ∈ ds, Text.isSmall d = true ∨ d ∈ ['\x7b', '\x7d'] := by
  unfold literalChar
  split_ifs with htab hreturn hbreak hquote hplain
  · exact .inr ⟨'t', [], rfl, .inl rfl, by simp⟩
  · exact .inr ⟨'r', [], rfl, .inl rfl, by simp⟩
  · exact .inr ⟨'n', [], rfl, .inl rfl, by simp⟩
  · exact .inr ⟨c, [], rfl, .inr (by simpa using hquote), by simp⟩
  · simp only [not_or] at hquote
    exact .inl ⟨rfl, by simp [hquote.2.1, hquote.2.2, hbreak]⟩
  · refine .inr ⟨'u', '\x7b' :: (Nat.toDigits 16 c.toNat ++ ['\x7d']), rfl, .inl rfl, fun d hd => ?_⟩
    rw [List.mem_cons, List.mem_append, List.mem_singleton] at hd
    rcases hd with rfl | hd | rfl
    · exact .inr (by simp)
    · exact .inl (isSmall_of_mem_toDigits _ d hd)
    · exact .inr (by simp)

theorem hollowChars_of_forall {ds : List Char}
    (hd : ∀ d ∈ ds, Text.isSmall d = true ∨ d ∈ ['\x7b', '\x7d']) (rest : List Char) :
    hollowChars true (ds ++ rest) = hollowChars true rest := by
  have hinside : ∀ d, Text.isSmall d = true ∨ d ∈ ['\x7b', '\x7d'] → d ≠ '"' ∧ d ≠ '\\' := by
    rintro d hd
    constructor
    · rintro rfl
      revert hd
      decide
    · rintro rfl
      revert hd
      decide
  induction ds with
  | nil => rfl
  | cons d ds ih =>
    obtain ⟨hquote, hslash⟩ := hinside d (hd d (by simp))
    rw [List.cons_append, hollowChars, if_neg hquote, ih fun e he => hd e (List.mem_cons_of_mem d he)]
    exact fun _ _ h _ => hslash h

/-- **A string literal is left empty**, whatever it stands for. -/
theorem hollowChars_literal (w : String) (rest : List Char) :
    hollowChars true ((literal w).toList ++ '"' :: rest) = '"' :: hollowChars false rest := by
  rw [literal, String.toList_ofList]
  induction w.toList with
  | nil => simp [hollowChars]
  | cons c cs ih =>
    rw [List.flatMap_cons, List.append_assoc]
    rcases literalChar_cases c with ⟨hc, hplain⟩ | ⟨e, ds, hc, -, hds⟩
    · simp only [List.mem_cons, not_or] at hplain
      rw [hc, List.singleton_append, hollowChars, if_neg hplain.1, ih]
      exact fun _ _ h _ => hplain.2.1 h
    · rw [hc, List.cons_append, List.cons_append, hollowChars, hollowChars_of_forall hds, ih]

theorem hollow_literal {line w : String} {a b : List Char} (ha : '"' ∉ a)
    (hline : line.toList = a ++ '"' :: ((literal w).toList ++ '"' :: b)) :
    hollow line = String.ofList (a ++ '"' :: '"' :: hollowChars false b) := by
  rw [hollow, hline, hollowChars_of_not_mem ha, hollowChars, beq_self_eq_true, hollowChars_literal]

theorem break_not_mem_literal (w : String) : '\n' ∉ (literal w).toList := by
  rw [literal, String.toList_ofList, List.mem_flatMap]
  rintro ⟨c, -, hc⟩
  rcases literalChar_cases c with ⟨heq, hplain⟩ | ⟨e, ds, heq, he, hds⟩
  · rw [heq, List.mem_singleton] at hc
    exact hplain (by simp [← hc])
  · rw [heq, List.mem_cons, List.mem_cons] at hc
    rcases hc with hc | rfl | hc
    · exact absurd hc (by decide)
    · exact absurd he (by decide)
    · exact absurd (hds _ hc) (by decide)

/-- What stands in a literal stands in the text that it stands for, if it cannot be part of what a
backslash begins. -/
theorem infix_of_infix_literal {x : Char} {part : List Char} (hslash : '\\' ∉ x :: part)
    (hsmall : Text.isSmall x = false) (hx : x ∉ ['\'', '"', '\\', '\x7b', '\x7d']) {w : String}
    (h : x :: part <:+: (literal w).toList) : x :: part <:+: w.toList := by
  -- what has been passed since the last backslash stands in front
  have hgeneral : ∀ cs q : List Char, x :: part <:+: q ++ cs.flatMap literalChar →
      x :: part <:+: q ++ cs := fun cs => by
    induction cs with
    | nil => exact fun q h => h
    | cons c cs ih =>
      intro q h
      rw [List.flatMap_cons] at h
      rcases literalChar_cases c with ⟨hc, -⟩ | ⟨e, ds, hc, he, hds⟩
      · have hstep := ih (q ++ [c]) (by simpa [hc] using h)
        simpa using hstep
      · rw [hc, List.cons_append, infix_append_cons_iff hslash] at h
        rcases h with h | h
        · exact h.trans (List.prefix_append _ _).isInfix
        · have hnot : x ∉ e :: ds := by
            rw [List.mem_cons]
            rintro (rfl | hmem)
            · rcases he with he | he
              · exact absurd (hsmall ▸ he) nofun
              · exact hx (by revert he; simp only [List.mem_cons]; tauto)
            · rcases hds x hmem with hd | hd
              · exact absurd (hsmall ▸ hd) nofun
              · exact hx (by revert hd; simp only [List.mem_cons]; tauto)
          have hrest := ih [] (infix_of_infix_append hnot h)
          exact hrest.trans ((List.suffix_cons c cs).trans (List.suffix_append q _)).isInfix
  rw [literal, String.toList_ofList] at h
  exact hgeneral w.toList [] h

end Marshal.Bindings
