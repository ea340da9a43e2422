import Marshal.Proofs.Wire.Scalars

/-!
# Two ways to read a scalar

A format with typed scalars hands a token over, markup the text of one. `Token.toValue_text_iff`: an
integer type takes a text just where it takes the token of the integer that the text spells.
`Token.toValue_inverse` puts both ways together: values are read back on either of them, and integers
fare alike on both.
-/

namespace Marshal

open Number

/-- The bits of the integers of a type. -/
def Primitive.width? : Primitive → Option Nat
  | .integer => some 32
  | .long => some 64
  | _ => none

namespace Token

variable {kind : Primitive} {width : Nat}

/-! ## Integers -/

/-- No integer of a type is beyond 64 bits. -/
theorem toInt_ofInt_of_fits (hw : kind.width? = some width) {n : Int} (h : fits width n = true) :
    (Int64.ofInt n).toInt = n := by
  have hbound : -(2 ^ 63 : Int) ≤ n ∧ n < 2 ^ 63 := by
    cases kind <;> simp only [Primitive.width?, Option.some.injEq, reduceCtorEq] at hw
    all_goals
      subst hw
      simp only [fits, Bool.and_eq_true, decide_eq_true_iff, Nat.pow_eq] at h
      omega
  exact Int64.toInt_ofInt_of_le hbound.1 hbound.2

theorem readFitting?_eq_some_iff (hw : kind.width? = some width) {s : String} {n : Int64} :
    readFitting? width s = some n ↔ readInt? s.toList = some n.toInt ∧ fits width n.toInt = true := by
  rw [readFitting?]
  constructor
  · intro h
    split at h
    · rename_i m hm
      split at h
      · rename_i hf
        obtain rfl := Option.some.inj h
        rw [toInt_ofInt_of_fits hw hf]
        exact ⟨hm, hf⟩
      · cases h
    · cases h
  · rintro ⟨hm, hf⟩
    rw [hm]
    exact (if_pos hf).trans (congrArg some n.ofInt_toInt)

/-- The token of an integer is refused if it does not fit. -/
theorem toValue_integer (hw : kind.width? = some width) (n : Int64) (field : String) :
    toValue kind (.integer n) field = if fits width n.toInt = true then .ok (.integer n)
      else .error (.invalidScalar field kind.name (intText n.toInt)) := by
  cases kind <;> simp only [Primitive.width?, Option.some.injEq, reduceCtorEq] at hw
  case integer =>
    subst hw
    rfl
  case long =>
    subst hw
    rw [if_pos (fits_64 n)]
    rfl

theorem toValue_text (hw : kind.width? = some width) (s field : String) :
    toValue kind (.text s) field = match readFitting? width (Text.trim s) with
      | some n => .ok (.integer n)
      | none => .error (.invalidScalar field kind.name s) := by
  have hread : readText? kind s = (readFitting? width (Text.trim s)).map .integer := by
    cases kind <;> simp only [Primitive.width?, Option.some.injEq, reduceCtorEq] at hw
    all_goals
      subst hw
      rfl
  rw [toValue, hread]
  cases readFitting? width (Text.trim s) <;> rfl

/-- **An integer fares alike** as a token and as text. -/
theorem toValue_intText (hw : kind.width? = some width) (n : Int64) (field : String) :
    toValue kind (.text (intText n.toInt)) field = toValue kind (.integer n) field := by
  rw [toValue_text hw, toValue_integer hw, trim_intText]
  by_cases hf : fits width n.toInt = true
  · rw [if_pos hf, (readFitting?_eq_some_iff hw).2 ⟨readInt?_intText _, hf⟩]
  · rw [if_neg hf, readFitting?, readInt?_intText]
    dsimp only
    rw [if_neg hf]

/-- **A text is taken** where the integer is taken that it spells. -/
theorem toValue_text_iff (hw : kind.width? = some width) {s field : String} {v : Value} :
    toValue kind (.text s) field = .ok v ↔ ∃ n : Int64,
      readInt? (Text.trim s).toList = some n.toInt ∧ toValue kind (.integer n) field = .ok v := by
  rw [toValue_text hw]
  constructor
  · intro h
    split at h
    · rename_i n hn
      obtain ⟨hm, hf⟩ := (readFitting?_eq_some_iff hw).1 hn
      exact ⟨n, hm, by rw [toValue_integer hw, if_pos hf, h]⟩
    · cases h
  · rintro ⟨n, hm, hv⟩
    rw [toValue_integer hw] at hv
    split at hv
    · rename_i hf
      rw [(readFitting?_eq_some_iff hw).2 ⟨hm, hf⟩, ← hv]
    · cases hv

/-! ## Both ways -/

/-- **Scalars come back on both ways.** What has a token as a string, a boolean, an integer of either
width or a blob is read back from the token and from the text of the token, whatever the field. An
integer type takes just the integers of its width and refuses every other by its digits, alike for the
token and for the text; and of texts it takes just those that spell an integer it takes. -/
theorem toValue_inverse
    (hk : kind ∈ [Primitive.string, .boolean, .integer, .long, .blob]) :
    (∀ v at' t, ofValue kind v at' = .ok t → ∀ field,
      toValue kind t field = .ok v ∧ toValue kind (.text t.spelling) field = .ok v) ∧
    ∀ width, kind.width? = some width → ∀ field,
      (∀ n : Int64,
        toValue kind (.integer n) field = toValue kind (.text (intText n.toInt)) field ∧
        toValue kind (.integer n) field = if fits width n.toInt = true then .ok (.integer n)
          else .error (.invalidScalar field kind.name (intText n.toInt))) ∧
      ∀ s v, toValue kind (.text s) field = .ok v ↔ ∃ n : Int64,
        readInt? (Text.trim s).toList = some n.toInt ∧ toValue kind (.integer n) field = .ok v := by
  refine ⟨fun v at' t ht field => ?_, fun width hw field => ⟨fun n => ?_, fun s v => ?_⟩⟩
  · -- no double and no instant is of such a type
    simp only [List.mem_cons, List.not_mem_nil, or_false] at hk
    have hholds : kind.Holds v := by
      refine holds_of_ofValue ht ?_
      rintro x rfl
      rcases hk with rfl | rfl | rfl | rfl | rfl <;> cases ht
    have hexact : v.isExact = true := by
      rcases hk with rfl | rfl | rfl | rfl | rfl <;> cases v <;> first | rfl | exact hholds.elim
    obtain ⟨t', -, hof, htoken, htext⟩ := exists_token hholds hexact
    obtain rfl := Except.ok.inj (ht.symm.trans (hof at'))
    exact ⟨htoken field, htext field⟩
  · exact ⟨(toValue_intText hw n field).symm, toValue_integer hw n field⟩
  · exact toValue_text_iff hw

/-- The least integer of 32 bits is read from its digits, and the one beyond the greatest is refused
by its digits, as it is from its token. -/
theorem toValue_inverse_bounds :
    toValue .integer (.text "-2147483648") "n" = .ok (.integer (-2147483648)) ∧
      toValue .integer (.integer 2147483648) "n" = .error (.invalidScalar "n" "integer" "2147483648") ∧
      toValue .integer (.text "2147483648") "n" = .error (.invalidScalar "n" "integer" "2147483648") := by
  have inverse := @toValue_inverse .integer (by decide)
  obtain ⟨hsame, hrefused⟩ := (inverse.2 32 rfl "n").1 2147483648
  have hread := (inverse.1 (.integer (-2147483648)) "n" _ rfl "n").2
  have hleast : intText (-2147483648 : Int64).toInt = "-2147483648" := by decide
  have hbeyond : intText (2147483648 : Int64).toInt = "2147483648" := by decide
  rw [spelling, hleast] at hread
  rw [hbeyond] at hsame hrefused
  rw [if_neg (by decide)] at hrefused
  exact ⟨hread, hrefused, hsame ▸ hrefused⟩

end Token

end Marshal
