import Marshal.Proofs.Json.Number
import Marshal.Proofs.Json.String
import Marshal.Proofs.Text.Symbol
import Marshal.Table

/-!
# JSON texts

`ofBytes?_toBytes_compact`: a tree that is printed is read back. The tree may hold no doubles, which
are not always read back to the bit, its integers have 64 bits, its objects repeat no key, and it
nests no deeper than the reader allows.
-/

namespace Marshal.Json

open Number

/-- A tree without doubles, with integers of 64 bits, that repeats no key and has at most so many
arrays and objects in each other. -/
inductive Plain : Nat → Json → Prop where
  | null {d : Nat} : Plain d .null
  | bool {d : Nat} {b : Bool} : Plain d (.bool b)
  | integer {d : Nat} {n : Int} : fits 64 n = true → Plain d (.integer n)
  | text {d : Nat} {s : String} : Plain d (.text s)
  | array {d : Nat} {items : List Json} : (∀ j ∈ items, Plain d j) → Plain (d + 1) (.array items)
  | object {d : Nat} {members : List (String × Json)} :
    (Table.keys members).Nodup → (∀ k j, (k, j) ∈ members → Plain d j) →
    Plain (d + 1) (.object members)

theorem Plain.mono {d e : Nat} {j : Json} (h : Plain d j) (hde : d ≤ e) : Plain e j := by
  induction h generalizing e with
  | null => exact .null
  | bool => exact .bool
  | integer hn => exact .integer hn
  | text => exact .text
  | array _ ih =>
    obtain ⟨e, rfl⟩ := Nat.exists_eq_add_of_le' (Nat.le_trans (Nat.succ_le_succ (Nat.zero_le _)) hde)
    exact .array fun j hj => ih j hj (by omega)
  | object hn _ ih =>
    obtain ⟨e, rfl⟩ := Nat.exists_eq_add_of_le' (Nat.le_trans (Nat.succ_le_succ (Nat.zero_le _)) hde)
    exact .object hn fun k j hj => ih k j hj (by omega)

/-! ## Blanks and first characters -/

theorem skip_cons {c : Char} {cs : List Char} (h : isSpace c = false) : skip (c :: cs) = c :: cs := by
  rw [skip, List.dropWhile_cons_of_neg (by simp [h])]

/-- The character in front of a printed value: no blank, and no closing mark. -/
def Opens (cs : List Char) : Prop :=
  ∃ c rest, cs = c :: rest ∧ isSpace c = false ∧ c ≠ ']' ∧ c ≠ '}'

theorem Opens.append {cs : List Char} (h : Opens cs) (rest : List Char) : Opens (cs ++ rest) := by
  obtain ⟨c, cs, rfl, hc⟩ := h
  exact ⟨c, cs ++ rest, rfl, hc⟩

theorem Opens.skip {cs : List Char} (h : Opens cs) : skip cs = cs := by
  obtain ⟨c, cs, rfl, hc, -⟩ := h
  exact skip_cons hc

/-- A digit is none of the characters that stand for themselves. -/
theorem ne_of_isDigit {c d : Char} (h : c.isDigit = true) (hd : d.isDigit = false) : c ≠ d := by
  rintro rfl
  simp [h] at hd

theorem isSpace_of_isDigit {c : Char} (h : c.isDigit = true) : isSpace c = false := by
  simp [isSpace, ne_of_isDigit h]

theorem intText_eq_cons (n : Int) :
    ∃ c cs, (intText n).toList = c :: cs ∧ (c = '-' ∨ c.isDigit = true) := by
  rw [toList_intText]
  split
  · exact ⟨'-', _, rfl, .inl rfl⟩
  · obtain ⟨d, ds, hds, hd⟩ := toDigits_eq_cons n.natAbs
    exact ⟨d, ds, hds, .inr hd⟩

theorem opens_intText (n : Int) : Opens (intText n).toList := by
  obtain ⟨c, cs, hc, rfl | hd⟩ := intText_eq_cons n
  · exact ⟨'-', cs, hc, rfl, by decide, by decide⟩
  · exact ⟨c, cs, hc, isSpace_of_isDigit hd, ne_of_isDigit hd rfl, ne_of_isDigit hd rfl⟩

theorem opens_compact {d : Nat} {j : Json} (h : Plain d j) : Opens (compact j).toList := by
  cases h with
  | null => exact ⟨'n', _, rfl, rfl, by decide, by decide⟩
  | bool =>
    rename_i b
    cases b
    · exact ⟨'f', _, rfl, rfl, by decide, by decide⟩
    · exact ⟨'t', _, rfl, rfl, by decide, by decide⟩
  | integer => exact opens_intText _
  | text =>
    rw [compact, toList_stringText]
    exact ⟨'"', _, rfl, rfl, by decide, by decide⟩
  | array =>
    rw [compact, String.toList_append, String.toList_append]
    exact ⟨'[', _, rfl, rfl, by decide, by decide⟩
  | object =>
    rw [compact, String.toList_append, String.toList_append]
    exact ⟨'\x7b', _, rfl, rfl, by decide, by decide⟩

/-! ## Items and members -/

variable {read : List Char → Option (Json × List Char)}

/-- A reader that reads a tree back from its text, whatever follows it. -/
def ReadsBack (read : List Char → Option (Json × List Char)) (j : Json) : Prop :=
  ∀ rest, Delimited rest → read ((compact j).toList ++ rest) = some (j, rest)

theorem items?_compactItems {js : List Json} (hne : js ≠ []) (hr : ∀ j ∈ js, ReadsBack read j)
    {fuel : List Char} (hf : js.length ≤ fuel.length) (rest : List Char) :
    items? read fuel ((compactItems js).toList ++ ']' :: rest) = some (js, rest) := by
  induction js generalizing fuel with
  | nil => exact absurd rfl hne
  | cons j js ih =>
    obtain ⟨c, fuel, rfl⟩ := List.exists_cons_of_length_pos (Nat.lt_of_lt_of_le (by simp) hf)
    obtain ⟨hj, hjs⟩ := List.forall_mem_cons.1 hr
    rcases js with _ | ⟨k, js⟩
    · rw [compactItems, items?, hj _ (delimited_cons.2 (by simp))]
      rfl
    · have htext : (compactItems (j :: k :: js)).toList ++ ']' :: rest =
          (compact j).toList ++ ',' :: ((compactItems (k :: js)).toList ++ ']' :: rest) := by
        simp [compactItems]
      have hrest := ih (by simp) hjs (Nat.le_of_succ_le_succ hf)
      rw [htext, items?, hj _ (delimited_cons.2 (by simp))]
      simp only [Option.bind_eq_bind, Option.bind_some, skip_cons (rfl : isSpace ',' = false), hrest]
      rfl

theorem members?_compactMembers {ms : List (String × Json)} (hne : ms ≠ [])
    (hr : ∀ k j, (k, j) ∈ ms → ReadsBack read j ∧ Opens (compact j).toList)
    {fuel : List Char} (hf : ms.length ≤ fuel.length) (rest : List Char) :
    members? strict (fun _ => read) fuel ((compactMembers ms).toList ++ '\x7d' :: rest) =
      some (ms, rest) := by
  have hmember : ∀ k j, ReadsBack read j → ∀ cs, Delimited cs →
      member? strict (fun _ => read) ((stringText k).toList ++ ':' :: ((compact j).toList ++ cs)) =
        some ((k, j), cs) := by
    intro k j hj cs hcs
    rw [toList_stringText, List.cons_append, member?, skip_cons rfl, List.append_assoc]
    simp only [List.singleton_append, string?_escaped, Option.bind_eq_bind, Option.bind_some,
      skip_cons (rfl : isSpace ':' = false), hj cs hcs]
    rfl
  induction ms generalizing fuel with
  | nil => exact absurd rfl hne
  | cons m ms ih =>
    obtain ⟨k, j⟩ := m
    obtain ⟨c, fuel, rfl⟩ := List.exists_cons_of_length_pos (Nat.lt_of_lt_of_le (by simp) hf)
    obtain ⟨hj, -⟩ := hr k j List.mem_cons_self
    rcases ms with _ | ⟨m, ms⟩
    · have htext : (compactMembers [(k, j)]).toList ++ '\x7d' :: rest =
          (stringText k).toList ++ ':' :: ((compact j).toList ++ '\x7d' :: rest) := by
        simp [compactMembers]
      rw [htext, members?, hmember k j hj _ (delimited_cons.2 (by simp))]
      rfl
    · have htext : (compactMembers ((k, j) :: m :: ms)).toList ++ '\x7d' :: rest =
          (stringText k).toList ++ ':' :: ((compact j).toList ++
            ',' :: ((compactMembers (m :: ms)).toList ++ '\x7d' :: rest)) := by
        simp [compactMembers]
      have hrest := ih (by simp) (fun k j hm => hr k j (List.mem_cons_of_mem _ hm))
        (Nat.le_of_succ_le_succ hf)
      rw [htext, members?, hmember k j hj _ (delimited_cons.2 (by simp))]
      simp only [Option.bind_eq_bind, Option.bind_some, skip_cons (rfl : isSpace ',' = false), hrest]
      rfl

theorem length_le_length_compactItems {js : List Json}
    (h : ∀ j ∈ js, Opens (compact j).toList) : js.length ≤ (compactItems js).toList.length := by
  induction js with
  | nil => exact Nat.zero_le _
  | cons j js ih =>
    obtain ⟨hj, hjs⟩ := List.forall_mem_cons.1 h
    obtain ⟨c, cs, hc, -⟩ := hj
    have := ih hjs
    rcases js with _ | ⟨k, js⟩
    · simp [compactItems, hc]
    · simp only [compactItems, String.toList_append, List.length_append, hc, List.length_cons] at *
      omega

theorem length_le_length_compactMembers (ms : List (String × Json)) :
    ms.length ≤ (compactMembers ms).toList.length := by
  induction ms with
  | nil => exact Nat.zero_le _
  | cons m ms ih =>
    obtain ⟨k, j⟩ := m
    rcases ms with _ | ⟨m, ms⟩
    · simp [compactMembers, toList_stringText]
    · simp only [compactMembers, String.toList_append, List.length_append, toList_stringText,
        List.length_cons] at *
      omega

/-! ## Trees -/

theorem array?_compactItems {js : List Json} (hr : ∀ j ∈ js, ReadsBack read j)
    (ho : ∀ j ∈ js, Opens (compact j).toList) (rest : List Char) :
    array? read ((compactItems js).toList ++ ']' :: rest) = some (.array js, rest) := by
  by_cases hne : js = []
  · subst hne
    rfl
  · obtain ⟨j, ks, rfl⟩ := List.exists_cons_of_ne_nil hne
    have hopens : Opens (compactItems (j :: ks)).toList := by
      rcases ks with _ | ⟨k, ks⟩
      · exact ho j List.mem_cons_self
      · rw [compactItems, String.append_assoc, String.toList_append]
        · exact (ho j List.mem_cons_self).append _
        · simp
    have hlen : (j :: ks).length ≤ ((compactItems (j :: ks)).toList ++ ']' :: rest).length := by
      have := length_le_length_compactItems ho
      rw [List.length_append]
      omega
    have hitems := items?_compactItems hne hr hlen rest
    obtain ⟨c, cs, hc, -, hne', -⟩ := hopens.append (']' :: rest)
    rw [array?, (hopens.append _).skip]
    split
    · rename_i he
      rw [hc] at he
      exact absurd (List.cons.inj he).1 hne'
    · rw [hitems, Option.map_some]

theorem object?_compactMembers {ms : List (String × Json)}
    (hr : ∀ k j, (k, j) ∈ ms → ReadsBack read j ∧ Opens (compact j).toList) (rest : List Char) :
    object? strict (fun _ => read) ((compactMembers ms).toList ++ '\x7d' :: rest) =
      some (.object ms, rest) := by
  by_cases hne : ms = []
  · subst hne
    rfl
  · obtain ⟨⟨k, j⟩, ns, rfl⟩ := List.exists_cons_of_ne_nil hne
    have hopens : ∃ cs, (compactMembers ((k, j) :: ns)).toList = '"' :: cs := by
      rcases ns with _ | ⟨n, ns⟩ <;> simp [compactMembers, toList_stringText]
    have hlen : ((k, j) :: ns).length ≤
        ((compactMembers ((k, j) :: ns)).toList ++ '\x7d' :: rest).length := by
      have := length_le_length_compactMembers ((k, j) :: ns)
      rw [List.length_append]
      omega
    have hmembers := members?_compactMembers hne hr hlen rest
    obtain ⟨cs, hc⟩ := hopens
    have hskip : skip ((compactMembers ((k, j) :: ns)).toList ++ '\x7d' :: rest) =
        (compactMembers ((k, j) :: ns)).toList ++ '\x7d' :: rest := by
      rw [hc]
      rfl
    rw [object?, hskip]
    split
    · rename_i he
      rw [hc] at he
      cases (List.cons.inj he).1
    · rw [hmembers, Option.map_some]

/-- What opens no array and no object is read back when it is read back as a scalar. -/
theorem readsBack_of_scalar {d : Nat} {j : Json}
    (hs : ∀ rest, Delimited rest → scalar? strict ((compact j).toList ++ rest) = some (j, rest))
    (ho : Opens (compact j).toList) (ha : (compact j).toList.head? ≠ some '[')
    (hb : (compact j).toList.head? ≠ some '\x7b') : ReadsBack (value? strict d) j := by
  intro rest hr
  obtain ⟨c, cs, hc, hspace, -⟩ := ho
  rw [hc, List.head?_cons, ne_eq, Option.some.injEq] at ha hb
  have hsc := hs rest hr
  rw [hc, List.cons_append] at hsc ⊢
  rcases d with _ | d
  · rw [value?, skip_cons hspace, hsc]
  · unfold value?
    rw [skip_cons hspace]
    split
    · rename_i he
      exact absurd (List.cons.inj he).1 ha
    · rename_i he
      exact absurd (List.cons.inj he).1 hb
    · exact hsc

theorem readsBack_integer {d : Nat} {n : Int} (hn : fits 64 n = true) :
    ReadsBack (value? strict d) (.integer n) := by
  obtain ⟨c, cs, hc, hfirst⟩ := intText_eq_cons n
  have hne : ∀ d, d.isDigit = false → d ≠ '-' → c ≠ d := by
    intro d hd hminus
    rcases hfirst with rfl | hfirst
    · exact hminus.symm
    · exact ne_of_isDigit hfirst hd
  refine readsBack_of_scalar (fun rest hr => ?_) (opens_intText n) ?_ ?_
  · have hnumber := number?_intText hn hr
    rw [hc, List.cons_append] at hnumber
    rw [compact, hc, List.cons_append, scalar?, if_neg (hne '"' rfl (by decide)),
      if_neg (hne 't' rfl (by decide)), if_neg (hne 'f' rfl (by decide)),
      if_neg (hne 'n' rfl (by decide))]
    exact hnumber
  · rw [compact, hc, List.head?_cons, ne_eq, Option.some.injEq]
    exact hne '[' rfl (by decide)
  · rw [compact, hc, List.head?_cons, ne_eq, Option.some.injEq]
    exact hne '\x7b' rfl (by decide)

theorem readsBack_text {d : Nat} (s : String) : ReadsBack (value? strict d) (.text s) := by
  refine readsBack_of_scalar (fun rest _ => ?_) (opens_compact (@Plain.text 0 s)) ?_ ?_
  · rw [compact, toList_stringText, List.cons_append, scalar?, if_pos rfl, List.append_assoc,
      List.singleton_append, string?_escaped]
    rfl
  · rw [compact, toList_stringText]
    simp
  · rw [compact, toList_stringText]
    simp

/-- **A tree is read back from its text**, whatever follows it. -/
theorem value?_compact {d : Nat} {j : Json} (h : Plain d j) : ReadsBack (value? strict d) j := by
  induction h with
  | null =>
    exact readsBack_of_scalar (fun _ _ => rfl) (opens_compact (@Plain.null 0)) (by decide) (by decide)
  | @bool d b =>
    refine readsBack_of_scalar (fun _ _ => ?_) (opens_compact (@Plain.bool 0 b)) ?_ ?_ <;> cases b <;>
      first | rfl | decide
  | integer hn => exact readsBack_integer hn
  | text => exact readsBack_text _
  | array hp ih =>
    intro rest _
    have htext : ∀ js, (compact (.array js)).toList ++ rest =
        '[' :: ((compactItems js).toList ++ ']' :: rest) := by
      simp [compact]
    rw [htext, value?, skip_cons (rfl : isSpace '[' = false)]
    exact array?_compactItems ih (fun j hj => opens_compact (hp j hj)) rest
  | object hn hp ih =>
    intro rest _
    have htext : ∀ ms, (compact (.object ms)).toList ++ rest =
        '\x7b' :: ((compactMembers ms).toList ++ '\x7d' :: rest) := by
      simp [compact]
    rw [htext, value?, skip_cons (rfl : isSpace '\x7b' = false)]
    exact object?_compactMembers (fun k j hm => ⟨ih k j hm, opens_compact (hp k j hm)⟩) rest

/-! ## Documents -/

theorem put_append_of_not_mem {ms ns : List (String × Json)} {k : String} {j : Json}
    (h : k ∉ Table.keys ms) : put (ms ++ ns) k j = ms ++ put ns k j := by
  induction ms with
  | nil => rfl
  | cons m ms ih =>
    rw [Table.keys, List.map_cons, List.mem_cons, not_or] at h
    rw [List.cons_append, put, if_neg (Ne.symm h.1), ih h.2, List.cons_append]

theorem put_eq_append {ms : List (String × Json)} {k : String} {j : Json}
    (h : k ∉ Table.keys ms) : put ms k j = ms ++ [(k, j)] := by
  rw [← List.append_nil ms, put_append_of_not_mem h, List.append_nil]
  rfl

theorem foldl_put_eq_append {ms ns : List (String × Json)} (h : (Table.keys (ns ++ ms)).Nodup) :
    ms.foldl (fun t m => put t m.1 m.2) ns = ns ++ ms := by
  induction ms generalizing ns with
  | nil => simp
  | cons m ms ih =>
    have hm : m.1 ∉ Table.keys ns := by
      intro hmem
      rw [Table.keys, List.map_append, List.map_cons] at h
      exact (List.nodup_append.1 h).2.2 _ hmem _ List.mem_cons_self rfl
    rw [List.foldl_cons, put_eq_append hm, ih (by simpa using h)]
    simp

theorem mergedItems_eq_self {js : List Json} (h : ∀ j ∈ js, merged j = j) : mergedItems js = js := by
  induction js with
  | nil => rfl
  | cons j js ih =>
    obtain ⟨hj, hjs⟩ := List.forall_mem_cons.1 h
    rw [mergedItems, hj, ih hjs]

theorem merged_object {ms : List (String × Json)} (hn : (Table.keys ms).Nodup)
    (h : ∀ k j, (k, j) ∈ ms → merged j = j) : merged (.object ms) = .object ms := by
  have hmembers : mergedMembers ms = ms := by
    clear hn
    induction ms with
    | nil => rfl
    | cons m ms ih =>
      rw [mergedMembers, h m.1 m.2 List.mem_cons_self,
        ih fun k j hm => h k j (List.mem_cons_of_mem _ hm)]
  rw [merged, hmembers, ofMembers, foldl_put_eq_append (by simpa using hn), List.nil_append]

theorem merged_of_plain {d : Nat} {j : Json} (h : Plain d j) : merged j = j := by
  induction h with
  | null | bool | integer | text => rfl
  | array _ ih => rw [merged, mergedItems_eq_self ih]
  | object hn _ ih => exact merged_object hn ih

/-- **A tree is read back from the bytes of its text.** -/
theorem ofBytes?_toBytes_compact {j : Json} (h : Plain depthLimit j) :
    ofBytes? (Text.toBytes (compact j)) = some j := by
  have hread := value?_compact h [] delimited_nil
  rw [List.append_nil] at hread
  rw [ofBytes?, Text.ofBytes?_toBytes, Option.bind_eq_bind, Option.bind_some, ofChars?, written?,
    hread, Option.bind_some]
  simp [alone?, skip, merged_of_plain h]

end Marshal.Json
