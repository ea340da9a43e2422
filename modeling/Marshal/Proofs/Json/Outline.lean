import Marshal.Proofs.Json.Double
import Marshal.Proofs.Json.Drafts
import Marshal.Proofs.Json.Text
import Marshal.Proofs.Json.Walk
import Marshal.Proofs.Wire.Subtypes

/-!
# Outlines of trees

A tree with doubles is not read back as it was, but all of it other than its numbers is: `outline`
is a tree without the values of its numbers, and whatever is read from the text of a tree has its
outline (`outline_of_ofBytes?`). The text of a draft can so be read as nothing but a tree that shows
the texts of the draft (`showsTexts_of_outline`) and the objects in it (`exists_under_of_outline`).
-/

namespace Marshal.Json

open Number

mutual

/-- A tree without the values of its numbers. -/
def outline : Json → Json
  | .integer _ => .integer 0
  | .float _ => .integer 0
  | .array items => .array (outlineItems items)
  | .object members => .object (outlineMembers members)
  | j => j

/-- The outlines of items. -/
def outlineItems : List Json → List Json
  | [] => []
  | j :: js => outline j :: outlineItems js

/-- The outlines of members. -/
def outlineMembers : List (String × Json) → List (String × Json)
  | [] => []
  | (key, j) :: ms => (key, outline j) :: outlineMembers ms

end

theorem outlineMembers_eq_map (ms : List (String × Json)) :
    outlineMembers ms = ms.map fun m => (m.1, outline m.2) := by
  induction ms with
  | nil => rfl
  | cons m ms ih => rw [outlineMembers, ih, List.map_cons]

theorem outline_of_isNumber {j : Json} (h : j.isNumber = true) : outline j = .integer 0 := by
  cases j <;> first | rfl | cases h

/-- What holds of a tree when it holds of what is in it holds of every tree. -/
@[elab_as_elim]
theorem induction {P : Json → Prop} (null : P .null) (bool : ∀ b, P (.bool b))
    (integer : ∀ n, P (.integer n)) (float : ∀ x, P (.float x)) (text : ∀ s, P (.text s))
    (array : ∀ items, (∀ j ∈ items, P j) → P (.array items))
    (object : ∀ members, (∀ k j, (k, j) ∈ members → P j) → P (.object members)) (j : Json) : P j := by
  induction hn : sizeOf j using Nat.strongRecOn generalizing j with
  | ind n ih =>
    subst hn
    cases j with
    | null => exact null
    | bool b => exact bool b
    | integer n => exact integer n
    | float x => exact float x
    | text s => exact text s
    | array items =>
      refine array items fun j hj => ih _ ?_ j rfl
      have := List.sizeOf_lt_of_mem hj
      simp only [Json.array.sizeOf_spec]
      omega
    | object members =>
      refine object members fun k j hj => ih _ ?_ j rfl
      have := List.sizeOf_lt_of_mem hj
      simp only [Prod.mk.sizeOf_spec, Json.object.sizeOf_spec] at this ⊢
      omega

/-! ## Reading -/

variable {read : List Char → Option (Json × List Char)} {j j' : Json} {rest rest' : List Char}

/-- Whatever a reader reads from the text of a tree is all of it, and has its outline. -/
def Outlines (read : List Char → Option (Json × List Char)) (j : Json) : Prop :=
  ∀ rest, Delimited rest → ∀ j' rest', read ((compact j).toList ++ rest) = some (j', rest') →
    rest' = rest ∧ outline j' = outline j

theorem items?_outlines {js js' : List Json} (hne : js ≠ []) (hr : ∀ j ∈ js, Outlines read j)
    {fuel : List Char}
    (h : items? read fuel ((compactItems js).toList ++ ']' :: rest) = some (js', rest')) :
    rest' = rest ∧ outlineItems js' = outlineItems js := by
  induction js generalizing fuel js' rest' with
  | nil => exact absurd rfl hne
  | cons j js ih =>
    obtain ⟨hj, hjs⟩ := List.forall_mem_cons.1 hr
    rcases fuel with _ | ⟨c, fuel⟩
    · cases h
    · rcases js with _ | ⟨k, js⟩
      · rw [compactItems, items?] at h
        obtain ⟨⟨j', cs⟩, hread, h⟩ := Option.bind_eq_some_iff.1 h
        obtain ⟨hcs, hout⟩ := hj _ (delimited_cons.2 (by simp)) _ _ hread
        subst hcs
        cases h
        exact ⟨rfl, by rw [outlineItems, hout]; rfl⟩
      · have htext : (compactItems (j :: k :: js)).toList ++ ']' :: rest =
            (compact j).toList ++ ',' :: ((compactItems (k :: js)).toList ++ ']' :: rest) := by
          simp [compactItems]
        rw [htext, items?] at h
        obtain ⟨⟨j', cs⟩, hread, h⟩ := Option.bind_eq_some_iff.1 h
        obtain ⟨hcs, hout⟩ := hj _ (delimited_cons.2 (by simp)) _ _ hread
        subst hcs
        simp only [skip_cons (rfl : isSpace ',' = false)] at h
        obtain ⟨⟨js'', cs⟩, hitems, htail⟩ := Option.bind_eq_some_iff.1 h
        obtain ⟨hcs, houts⟩ := ih (by simp) hjs hitems
        subst hcs
        cases htail
        exact ⟨rfl, by rw [outlineItems, hout, houts]; rfl⟩

theorem member?_outlines {key : String} (hj : Outlines read j) (hr : Delimited rest)
    {m : String × Json} (h : member? strict (fun _ => read)
      ((stringText key).toList ++ ':' :: ((compact j).toList ++ rest)) = some (m, rest')) :
    rest' = rest ∧ m.1 = key ∧ outline m.2 = outline j := by
  rw [toList_stringText, List.cons_append, member?, skip_cons rfl, List.append_assoc] at h
  simp only [List.singleton_append, string?_escaped, Option.bind_eq_bind, Option.bind_some,
    skip_cons (rfl : isSpace ':' = false)] at h
  obtain ⟨⟨j', cs⟩, hread, htail⟩ := Option.bind_eq_some_iff.1 h
  obtain ⟨hcs, hout⟩ := hj _ hr _ _ hread
  cases htail
  exact ⟨hcs, rfl, hout⟩

theorem members?_outlines {ms ms' : List (String × Json)} (hne : ms ≠ [])
    (hr : ∀ k j, (k, j) ∈ ms → Outlines read j) {fuel : List Char}
    (h : members? strict (fun _ => read) fuel ((compactMembers ms).toList ++ '\x7d' :: rest) =
      some (ms', rest')) :
    rest' = rest ∧ outlineMembers ms' = outlineMembers ms := by
  induction ms generalizing fuel ms' rest' with
  | nil => exact absurd rfl hne
  | cons m ms ih =>
    obtain ⟨k, j⟩ := m
    have hj := hr k j List.mem_cons_self
    rcases fuel with _ | ⟨c, fuel⟩
    · cases h
    · rcases ms with _ | ⟨m, ms⟩
      · have htext : (compactMembers [(k, j)]).toList ++ '\x7d' :: rest =
            (stringText k).toList ++ ':' :: ((compact j).toList ++ '\x7d' :: rest) := by
          simp [compactMembers]
        rw [htext, members?] at h
        obtain ⟨⟨⟨k', j'⟩, cs⟩, hread, htail⟩ := Option.bind_eq_some_iff.1 h
        obtain ⟨hcs, hkey, hout⟩ := member?_outlines hj (delimited_cons.2 (by simp)) hread
        subst hcs
        cases htail
        exact ⟨rfl, by rw [outlineMembers, hout, show k' = k from hkey]; rfl⟩
      · have htext : (compactMembers ((k, j) :: m :: ms)).toList ++ '\x7d' :: rest =
            (stringText k).toList ++ ':' :: ((compact j).toList ++
              ',' :: ((compactMembers (m :: ms)).toList ++ '\x7d' :: rest)) := by
          simp [compactMembers]
        rw [htext, members?] at h
        obtain ⟨⟨⟨k', j'⟩, cs⟩, hread, h⟩ := Option.bind_eq_some_iff.1 h
        obtain ⟨hcs, hkey, hout⟩ := member?_outlines hj (delimited_cons.2 (by simp)) hread
        subst hcs
        simp only [skip_cons (rfl : isSpace ',' = false)] at h
        obtain ⟨⟨ms'', cs⟩, hmembers, htail⟩ := Option.bind_eq_some_iff.1 h
        obtain ⟨hcs, houts⟩ :=
          ih (by simp) (fun k j hm => hr k j (List.mem_cons_of_mem _ hm)) hmembers
        subst hcs
        cases htail
        exact ⟨rfl, by rw [outlineMembers, hout, houts, show k' = k from hkey]; rfl⟩

/-! ## Trees -/

/-- A tree with integers of 64 bits that repeats no key. -/
inductive Regular : Json → Prop where
  | null : Regular .null
  | bool {b : Bool} : Regular (.bool b)
  | integer {n : Int} : fits 64 n = true → Regular (.integer n)
  | float {x : Double} : Regular (.float x)
  | text {s : String} : Regular (.text s)
  | array {items : List Json} : (∀ j ∈ items, Regular j) → Regular (.array items)
  | object {members : List (String × Json)} : (Table.keys members).Nodup →
    (∀ k j, (k, j) ∈ members → Regular j) → Regular (.object members)

/-- What starts with a digit or a sign is read as a number. -/
theorem value?_of_digit_or_minus {d : Nat} {c : Char} {cs : List Char}
    (hc : c = '-' ∨ c.isDigit = true) : value? strict d (c :: cs) = number? (c :: cs) := by
  have hne : ∀ d, d.isDigit = false → d ≠ '-' → c ≠ d := by
    intro d hd hminus
    rcases hc with rfl | hc
    · exact hminus.symm
    · exact ne_of_isDigit hc hd
  have hspace : isSpace c = false := by
    rcases hc with rfl | hc
    · rfl
    · exact isSpace_of_isDigit hc
  have hscalar : scalar? strict (c :: cs) = number? (c :: cs) := by
    rw [scalar?, if_neg (hne '"' rfl (by decide)), if_neg (hne 't' rfl (by decide)),
      if_neg (hne 'f' rfl (by decide)), if_neg (hne 'n' rfl (by decide))]
    rfl
  rcases d with _ | d
  · rw [value?, skip_cons hspace, hscalar]
  · unfold value?
    rw [skip_cons hspace]
    split
    · rename_i he
      exact absurd (List.cons.inj he).1 (hne '[' rfl (by decide))
    · rename_i he
      exact absurd (List.cons.inj he).1 (hne '\x7b' rfl (by decide))
    · exact hscalar

theorem opens_tree (j : Json) : Opens (compact j).toList := by
  cases j with
  | null => exact opens_compact (@Plain.null 0)
  | bool b => exact opens_compact (@Plain.bool 0 b)
  | integer n => exact opens_intText n
  | float x =>
    obtain ⟨c, cs, hc, rfl | hd⟩ := isDigit_or_minus_doubleText x
    · exact ⟨'-', cs, hc, rfl, by decide, by decide⟩
    · exact ⟨c, cs, hc, isSpace_of_isDigit hd, ne_of_isDigit hd rfl, ne_of_isDigit hd rfl⟩
  | text s => exact opens_compact (@Plain.text 0 s)
  | array items =>
    rw [compact, String.toList_append, String.toList_append]
    exact ⟨'[', _, rfl, rfl, by decide, by decide⟩
  | object members =>
    rw [compact, String.toList_append, String.toList_append]
    exact ⟨'\x7b', _, rfl, rfl, by decide, by decide⟩

theorem array?_outlines {js : List Json} (hr : ∀ j ∈ js, Outlines read j)
    (h : array? read ((compactItems js).toList ++ ']' :: rest) = some (j', rest')) :
    rest' = rest ∧ outline j' = outline (.array js) := by
  by_cases hne : js = []
  · subst hne
    cases h
    exact ⟨rfl, rfl⟩
  · have hopens : Opens ((compactItems js).toList ++ ']' :: rest) := by
      obtain ⟨j, ks, rfl⟩ := List.exists_cons_of_ne_nil hne
      rcases ks with _ | ⟨k, ks⟩
      · exact (opens_tree j).append _
      · rw [compactItems, String.append_assoc, String.toList_append, List.append_assoc]
        · exact (opens_tree j).append _
        · simp
    rw [array?, hopens.skip] at h
    obtain ⟨c, cs, hc, -, hne', -⟩ := hopens
    split at h
    · rename_i he
      rw [hc] at he
      exact absurd (List.cons.inj he).1 hne'
    · obtain ⟨⟨js', cs⟩, hitems, heq⟩ := Option.map_eq_some_iff.1 h
      obtain ⟨hcs, hout⟩ := items?_outlines hne hr hitems
      cases heq
      exact ⟨hcs, by rw [outline, outline, hout]⟩

theorem object?_outlines {ms : List (String × Json)} (hr : ∀ k j, (k, j) ∈ ms → Outlines read j)
    (h : object? strict (fun _ => read) ((compactMembers ms).toList ++ '\x7d' :: rest) =
      some (j', rest')) :
    rest' = rest ∧ outline j' = outline (.object ms) := by
  by_cases hne : ms = []
  · subst hne
    cases h
    exact ⟨rfl, rfl⟩
  · obtain ⟨cs, hc⟩ : ∃ cs, (compactMembers ms).toList ++ '\x7d' :: rest = '"' :: cs := by
      obtain ⟨⟨k, j⟩, ns, rfl⟩ := List.exists_cons_of_ne_nil hne
      rcases ns with _ | ⟨n, ns⟩ <;> simp [compactMembers, toList_stringText]
    rw [object?, hc, skip_cons (rfl : isSpace '"' = false), ← hc] at h
    split at h
    · rename_i he
      rw [hc] at he
      cases (List.cons.inj he).1
    · obtain ⟨⟨ms', cs'⟩, hmembers, heq⟩ := Option.map_eq_some_iff.1 h
      obtain ⟨hcs, hout⟩ := members?_outlines hne hr hmembers
      cases heq
      exact ⟨hcs, by rw [outline, outline, hout]⟩

/-- **Whatever is read from the text of a tree** has its outline. -/
theorem value?_outlines (hj : Regular j) (d : Nat) : Outlines (value? strict d) j := by
  induction hj generalizing d with
  | null | bool | integer | text =>
    intro rest hr j' rest' h
    rw [value?_compact (by constructor; try assumption) rest hr] at h
    cases h
    exact ⟨rfl, rfl⟩
  | @float x =>
    intro rest hr j' rest' h
    obtain ⟨c, cs, hc, hfirst⟩ := isDigit_or_minus_doubleText x
    rw [compact, hc, List.cons_append, value?_of_digit_or_minus hfirst, ← List.cons_append, ← hc] at h
    obtain ⟨hrest, hnumber⟩ := number?_doubleText x hr h
    exact ⟨hrest, outline_of_isNumber hnumber⟩
  | @array items _ ih =>
    intro rest hr j' rest' h
    have htext : (compact (.array items)).toList ++ rest =
        '[' :: ((compactItems items).toList ++ ']' :: rest) := by
      simp [compact]
    rw [htext] at h
    rcases d with _ | d
    · cases h
    · rw [value?, skip_cons (rfl : isSpace '[' = false)] at h
      exact array?_outlines (fun j hj => ih j hj d) h
  | @object members _ _ ih =>
    intro rest hr j' rest' h
    have htext : (compact (.object members)).toList ++ rest =
        '\x7b' :: ((compactMembers members).toList ++ '\x7d' :: rest) := by
      simp [compact]
    rw [htext] at h
    rcases d with _ | d
    · cases h
    · rw [value?, skip_cons (rfl : isSpace '\x7b' = false)] at h
      exact object?_outlines (fun k j hm => ih k j hm d) h

/-! ## Documents -/

theorem foldl_put_map {g : Json → Json} (ms ns : List (String × Json)) :
    (ms.foldl (fun t m => put t m.1 m.2) ns).map (fun m => (m.1, g m.2)) =
      (ms.map fun m => (m.1, g m.2)).foldl (fun t m => put t m.1 m.2)
        (ns.map fun m => (m.1, g m.2)) := by
  have hput : ∀ (ns : List (String × Json)) k j,
      (put ns k j).map (fun m => (m.1, g m.2)) = put (ns.map fun m => (m.1, g m.2)) k (g j) := by
    intro ns k j
    induction ns with
    | nil => rfl
    | cons n ns ih =>
      obtain ⟨k', j'⟩ := n
      simp only [put, List.map_cons]
      split
      · rfl
      · rw [List.map_cons, ih]
  induction ms generalizing ns with
  | nil => rfl
  | cons m ms ih => rw [List.foldl_cons, ih, hput, List.map_cons, List.foldl_cons]

/-- Merging keys and leaving out numbers can be done in either order. -/
theorem outline_merged (j : Json) : outline (merged j) = merged (outline j) := by
  induction j using induction with
  | null | bool | integer | float | text => rfl
  | array items ih =>
    have hitems : outlineItems (mergedItems items) = mergedItems (outlineItems items) := by
      induction items with
      | nil => rfl
      | cons j js ihjs =>
        obtain ⟨hj, hjs⟩ := List.forall_mem_cons.1 ih
        rw [mergedItems, outlineItems, outlineItems, mergedItems, hj, ihjs hjs]
    rw [merged, outline, outline, merged, hitems]
  | object members ih =>
    have hmembers : outlineMembers (mergedMembers members) =
        mergedMembers (outlineMembers members) := by
      induction members with
      | nil => rfl
      | cons m ms ihms =>
        rw [mergedMembers, outlineMembers, outlineMembers, mergedMembers,
          ih m.1 m.2 List.mem_cons_self, ihms fun k j hm => ih k j (List.mem_cons_of_mem _ hm)]
    rw [merged, ofMembers, outline, outline, merged, ofMembers, ← hmembers, outlineMembers_eq_map,
      outlineMembers_eq_map, foldl_put_map, List.map_nil]

theorem merged_of_regular (h : Regular j) : merged j = j := by
  induction h with
  | null | bool | integer | float | text => rfl
  | array _ ih => rw [merged, mergedItems_eq_self ih]
  | object hn _ ih => exact merged_object hn ih

/-- **Whatever is read from the bytes of the text of a tree** has its outline. -/
theorem outline_of_ofBytes? (hj : Regular j) (h : ofBytes? (Text.toBytes (compact j)) = some j') :
    outline j' = outline j := by
  rw [ofBytes?, Text.ofBytes?_toBytes, Option.bind_eq_bind, Option.bind_some, ofChars?, written?,
    ← List.append_nil (compact j).toList] at h
  obtain ⟨k, hk, rfl⟩ := Option.map_eq_some_iff.1 h
  obtain ⟨⟨k', rest⟩, hread, halone⟩ := Option.bind_eq_some_iff.1 hk
  obtain ⟨-, hout⟩ := value?_outlines hj depthLimit [] delimited_nil k' rest hread
  rw [alone?] at halone
  split at halone
  · cases halone
    rw [outline_merged, hout, ← outline_merged, merged_of_regular hj]
  · cases halone

/-! ## Drafts -/

theorem mem_put {ms : List (String × Json)} {k k' : String} {j j' : Json}
    (h : (k', j') ∈ put ms k j) : (k', j') ∈ ms ∨ j' = j := by
  induction ms with
  | nil => exact .inr (Prod.mk.inj (List.mem_singleton.1 h)).2
  | cons m ms ih =>
    rw [put] at h
    split at h
    · rcases List.mem_cons.1 h with h | h
      · exact .inr (Prod.mk.inj h).2
      · exact .inl (List.mem_cons_of_mem _ h)
    · rcases List.mem_cons.1 h with h | h
      · exact .inl (h ▸ List.mem_cons_self)
      · exact (ih h).imp_left (List.mem_cons_of_mem _)

theorem keys_put_of_mem {ms : List (String × Json)} {k : String} (hk : k ∈ Table.keys ms) (j : Json) :
    Table.keys (put ms k j) = Table.keys ms := by
  induction ms with
  | nil => cases hk
  | cons m ms ih =>
    rw [put]
    split
    · rfl
    · rename_i he
      rcases List.mem_cons.1 hk with hk | hk
      · exact absurd hk.symm he
      · exact congrArg (m.1 :: ·) (ih hk)

theorem nodup_put {ms : List (String × Json)} (h : (Table.keys ms).Nodup) (k : String) (j : Json) :
    (Table.keys (put ms k j)).Nodup := by
  by_cases hk : k ∈ Table.keys ms
  · rw [keys_put_of_mem hk]
    exact h
  · rw [put_eq_append hk, Table.keys, List.map_append]
    refine List.nodup_append.2 ⟨h, List.nodup_singleton _, ?_⟩
    rintro a ha b hb rfl
    obtain rfl := List.mem_singleton.1 hb
    exact hk ha

/-- Merging members repeats no key, and makes no values up. -/
theorem exists_ofMembers (ms : List (String × Json)) : ∃ ns, ofMembers ms = .object ns ∧
    (Table.keys ns).Nodup ∧ ∀ k j, (k, j) ∈ ns → ∃ m ∈ ms, m.2 = j := by
  have hfold : ∀ (ms ns : List (String × Json)), (Table.keys ns).Nodup →
      (Table.keys (ms.foldl (fun t m => put t m.1 m.2) ns)).Nodup ∧
        ∀ k j, (k, j) ∈ ms.foldl (fun t m => put t m.1 m.2) ns →
          (k, j) ∈ ns ∨ ∃ m ∈ ms, m.2 = j := by
    intro ms
    induction ms with
    | nil => exact fun ns hn => ⟨hn, fun k j hj => .inl hj⟩
    | cons m ms ih =>
      intro ns hn
      obtain ⟨hkeys, hmem⟩ := ih (put ns m.1 m.2) (nodup_put hn _ _)
      refine ⟨hkeys, fun k j hj => ?_⟩
      rcases hmem k j hj with hj | ⟨x, hx, rfl⟩
      · rcases mem_put hj with hj | rfl
        · exact .inl hj
        · exact .inr ⟨m, List.mem_cons_self, rfl⟩
      · exact .inr ⟨x, List.mem_cons_of_mem _ hx, rfl⟩
  obtain ⟨hkeys, hmem⟩ := hfold ms [] List.nodup_nil
  exact ⟨_, rfl, hkeys, fun k j hj => (hmem k j hj).resolve_left (by simp)⟩

theorem Regular.ofMembers {ms : List (String × Json)} (h : ∀ m ∈ ms, Regular m.2) :
    Regular (ofMembers ms) := by
  obtain ⟨ns, hns, hkeys, hmem⟩ := exists_ofMembers ms
  rw [hns]
  refine .object hkeys fun k j hj => ?_
  obtain ⟨m, hm, rfl⟩ := hmem k j hj
  exact h m hm

theorem regular_ofDraft (d : Draft) : Regular (ofDraft d) := by
  induction d with
  | null => exact .null
  | scalar t _ =>
    cases t with
    | bool => exact .bool
    | integer n => exact .integer (fits_64 n)
    | float => exact .float
    | text => exact .text
  | object parts ih =>
    refine .ofMembers ?_
    induction parts with
    | nil => simp [ofParts]
    | cons x parts ihparts =>
      obtain ⟨hx, hparts⟩ := List.forall_mem_cons.1 ih
      exact List.forall_mem_cons.2 ⟨hx, ihparts hparts⟩
  | sequence layout items ih =>
    refine .array ?_
    induction items with
    | nil => simp [ofItems]
    | cons d items ihitems =>
      obtain ⟨hd, hitems⟩ := List.forall_mem_cons.1 ih
      exact List.forall_mem_cons.2 ⟨hd, ihitems hitems⟩
  | mapping entries ih =>
    refine .ofMembers ?_
    induction entries with
    | nil => simp [ofEntries]
    | cons e entries ihentries =>
      obtain ⟨he, hentries⟩ := List.forall_mem_cons.1 ih
      exact List.forall_mem_cons.2 ⟨he, ihentries hentries⟩

theorem filter_put (p : String → Bool) (k : String) (j : Json) (ms : List (String × Json)) :
    (put ms k j).filter (fun m => p m.1) =
      if p k then put (ms.filter fun m => p m.1) k j else ms.filter fun m => p m.1 := by
  induction ms with
  | nil => by_cases h : p k <;> simp [put, h]
  | cons m ms ih =>
    obtain ⟨k', j'⟩ := m
    by_cases h : p k <;> by_cases h' : k' = k <;> by_cases h'' : p k' <;>
      simp_all [put]

/-- The members under some keys are put from those under them alone. -/
theorem filter_foldl_put (p : String → Bool) (ms ns : List (String × Json)) :
    (ms.foldl (fun t m => put t m.1 m.2) ns).filter (fun m => p m.1) =
      (ms.filter fun m => p m.1).foldl (fun t m => put t m.1 m.2)
        (ns.filter fun m => p m.1) := by
  induction ms generalizing ns with
  | nil => rfl
  | cons m ms ih =>
    rw [List.foldl_cons, ih, filter_put]
    by_cases h : p m.1
    · rw [if_pos h, List.filter_cons_of_pos (by simpa using h), List.foldl_cons]
    · rw [if_neg h, List.filter_cons_of_neg (by simpa using h)]

variable {parts : List (String × Placement × Draft)} {key : String} {placement : Placement} {d : Draft}

theorem ofParts_eq_map (parts : List (String × Placement × Draft)) :
    ofParts parts = parts.map fun x => (x.1, ofDraft x.2.2) := by
  induction parts with
  | nil => rfl
  | cons x parts ih => rw [ofParts, ih, List.map_cons]

/-- **A part that stands alone under its name** is read as one member under it. -/
theorem exists_filter_of_outline (h : outline j = outline (ofDraft (.object parts)))
    (hone : parts.filter (fun x => x.1 = key) = [(key, placement, d)]) :
    ∃ ms j', j = .object ms ∧ ms.filter (fun m => m.1 = key) = [(key, j')] ∧
      outline j' = outline (ofDraft d) := by
  have hput : ((ofParts parts).foldl (fun t m => put t m.1 m.2) []).filter (fun m => m.1 = key) =
      [(key, ofDraft d)] := by
    have hparts : (ofParts parts).filter (fun m => m.1 = key) =
        (parts.filter fun x => x.1 = key).map fun x => (x.1, ofDraft x.2.2) := by
      rw [ofParts_eq_map, List.filter_map]
      rfl
    rw [filter_foldl_put fun k => k = key, hparts, hone]
    rfl
  rw [ofDraft, ofMembers, outline, outlineMembers_eq_map] at h
  cases j with
  | object ms =>
    rw [outline, outlineMembers_eq_map] at h
    have hfilter : (ms.filter fun m => m.1 = key).map (fun m => (m.1, outline m.2)) =
        [(key, outline (ofDraft d))] := by
      have := congrArg (List.filter fun m : String × Json => m.1 = key) (Json.object.inj h)
      rw [List.filter_map, List.filter_map] at this
      refine this.trans (Eq.trans ?_ (congrArg (List.map fun m => (m.1, outline m.2)) hput))
      rfl
    obtain ⟨⟨k, j'⟩, hms, he⟩ := List.map_eq_singleton_iff.1 hfilter
    obtain ⟨rfl, hout⟩ := Prod.mk.inj he
    exact ⟨ms, j', rfl, hms, hout⟩
  | _ => cases h

theorem firstText?_of_filter {ms : List (String × Json)} {w : String}
    (h : ms.filter (fun m => m.1 = key) = [(key, .text w)]) :
    Reader.firstText? key ms = some w := by
  induction ms with
  | nil => cases h
  | cons m ms ih =>
    obtain ⟨k, j⟩ := m
    by_cases hk : k = key
    · rw [List.filter_cons_of_pos (by simpa using hk)] at h
      obtain ⟨he, -⟩ := List.cons.inj h
      cases he
      exact if_pos rfl
    · rw [List.filter_cons_of_neg (by simpa using hk)] at h
      cases j with
      | text s => rw [Reader.firstText?, if_neg hk, ih h]
      | _ =>
        rw [Reader.firstText?, ih h]
        simp

/-- **The texts of an object** can be seen in whatever is read from its text. -/
theorem showsTexts_of_outline (h : outline j = outline (ofDraft (.object parts))) :
    Tree.ShowsTexts j parts := by
  intro key placement w hone
  obtain ⟨ms, j', rfl, hms, hout⟩ := exists_filter_of_outline h hone
  have hj' : j' = .text w := by
    cases j' <;> simp_all [outline, Draft.text, ofDraft, ofScalar]
  rw [hj'] at hms
  exact congrArg Except.ok (firstText?_of_filter hms)

/-- **An object that stands alone under its name** is read as the one part under it. -/
theorem exists_under_of_outline {ps : List (String × Placement × Draft)}
    (h : outline j = outline (ofDraft (.object parts)))
    (hone : parts.filter (fun x => x.1 = key) = [(key, placement, .object ps)]) :
    ∃ ts j', Tree.parts j = .ok ts ∧ Tree.under key .element ts = [(key, .element, j')] ∧
      Tree.isNull j' = false ∧ outline j' = outline (ofDraft (.object ps)) := by
  obtain ⟨ms, j', rfl, hms, hout⟩ := exists_filter_of_outline h hone
  refine ⟨_, j', rfl, ?_, ?_, hout⟩
  · rw [Tree.under, List.filter_map]
    have hkey : (fun x : String × Placement × Json => decide (x.1 = key ∧ x.2.1 = .element)) ∘
        (fun m : String × Json => (m.1, Placement.element, m.2)) = fun m => decide (m.1 = key) := by
      funext m
      simp
    rw [hkey, hms]
    rfl
  · cases j' with
    | null => cases hout
    | _ => rfl

end Marshal.Json
