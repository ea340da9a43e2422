import Marshal.Text.Symbol
import Mathlib.Data.List.Basic

/-!
# Bytes and texts

`ofBytes?_toBytes`: the bytes of a text are read back as the text.
-/

namespace Marshal.Text

/-- Listing an array of bytes from a place on puts the rest of it behind what has been listed. -/
theorem listed_from (bytes : ByteArray) (i : Nat) (listed : List UInt8) :
    ByteArray.toList.loop bytes i listed = listed.reverse ++ bytes.data.toList.drop i := by
  fun_induction ByteArray.toList.loop bytes i listed with
  | case1 i listed hlt ih =>
    have hrest : bytes.data.toList.drop i = bytes.get! i :: bytes.data.toList.drop (i + 1) := by
      rw [List.drop_eq_getElem_cons hlt, Array.getElem_toList]
      exact congrArg (· :: _) (getElem!_pos bytes.data i hlt).symm
    rw [ih, hrest, List.reverse_cons, List.append_assoc, List.singleton_append]
  | case2 i listed hge =>
    rw [List.drop_of_length_le (Nat.le_of_not_lt hge), List.append_nil]

theorem toBytes_eq (s : String) : toBytes s = s.toList.flatMap String.utf8EncodeChar := by
  rw [toBytes, String.toUTF8_eq_toByteArray, ← String.utf8Encode_toList, ByteArray.toList,
    listed_from, List.reverse_nil, List.nil_append, List.drop_zero, List.utf8Encode,
    List.data_toByteArray]

namespace Symbol

theorem toNat_ofNat {n : Nat} (h : n < 256) : (UInt8.ofNat n).toNat = n := by
  rw [UInt8.toNat_ofNat', Nat.mod_eq_of_lt h]

/-- A sequence of continuation bytes is passed whole. -/
theorem continuation_append {lo hi : UInt8} {b : UInt8} {t bs : List UInt8}
    (hb : lo.toNat ≤ b.toNat ∧ b.toNat ≤ hi.toNat)
    (ht : ∀ a ∈ t, 128 ≤ a.toNat ∧ a.toNat ≤ 191) :
    continuation (t.length + 1) lo hi (b :: (t ++ bs)) = (b :: t, bs) := by
  induction t generalizing b lo hi with
  | nil =>
    rw [List.length_nil, continuation, if_pos (by simpa [UInt8.le_iff_toNat_le] using hb)]
    rfl
  | cons a t ih =>
    obtain ⟨ha, ht⟩ := List.forall_mem_cons.1 ht
    rw [List.length_cons, continuation, if_pos (by simpa [UInt8.le_iff_toNat_le] using hb),
      List.cons_append, @ih 0x80 0xBF a ha ht]

/-- The symbol of a leading byte with its continuation bytes. -/
theorem decode_append {b a : UInt8} {t bs : List UInt8} {lo hi : UInt8}
    (h80 : 128 ≤ b.toNat) (hl : lead b = some (t.length + 1, lo, hi))
    (ha : lo.toNat ≤ a.toNat ∧ a.toNat ≤ hi.toNat) (ht : ∀ a ∈ t, 128 ≤ a.toNat ∧ a.toNat ≤ 191) :
    decode (b :: a :: (t ++ bs)) = .char (Char.ofNat (codePoint b (a :: t))) :: decode bs := by
  have hlt : ¬ b < 0x80 := by
    rw [UInt8.lt_iff_toNat_lt, Nat.not_lt]
    exact h80
  rw [decode, if_neg hlt, hl]
  dsimp only
  rw [continuation_append ha ht, if_pos (by rfl)]

/-- The leading bytes of two-byte encodings. -/
theorem lead_two {b : UInt8} (h : 0xC2 ≤ b.toNat) (h' : b.toNat ≤ 0xDF) :
    lead b = some (1, 0x80, 0xBF) :=
  if_pos (by simp [UInt8.le_iff_toNat_le, h, h'])

/-- The leading bytes of three-byte encodings. What they exclude next is overlong, or encodes a
surrogate. -/
theorem exists_lead_three {b a : UInt8} (hb : 0xE0 ≤ b.toNat ∧ b.toNat ≤ 0xEF)
    (ha : 0x80 ≤ a.toNat ∧ a.toNat ≤ 0xBF) (hlong : b.toNat = 0xE0 → 0xA0 ≤ a.toNat)
    (hscalar : b.toNat = 0xED → a.toNat ≤ 0x9F) :
    ∃ lo hi : UInt8, lead b = some (2, lo, hi) ∧ lo.toNat ≤ a.toNat ∧ a.toNat ≤ hi.toNat := by
  unfold lead
  rw [if_neg (by simp [UInt8.le_iff_toNat_le]; omega)]
  by_cases h0 : b.toNat = 0xE0
  · exact ⟨0xA0, 0xBF, if_pos (by simp [← UInt8.toNat_inj, h0]), hlong h0, ha.2⟩
  rw [if_neg (by simpa [← UInt8.toNat_inj] using h0)]
  by_cases h13 : b.toNat = 0xED
  · exact ⟨0x80, 0x9F, if_pos (by simp [← UInt8.toNat_inj, h13]), ha.1, hscalar h13⟩
  rw [if_neg (by simpa [← UInt8.toNat_inj] using h13)]
  exact ⟨0x80, 0xBF, if_pos (by simp [UInt8.le_iff_toNat_le]; omega), ha⟩

/-- The leading bytes of four-byte encodings. What they exclude next is overlong, or encodes no code
point. -/
theorem exists_lead_four {b a : UInt8} (hb : 0xF0 ≤ b.toNat ∧ b.toNat ≤ 0xF4)
    (ha : 0x80 ≤ a.toNat ∧ a.toNat ≤ 0xBF) (hlong : b.toNat = 0xF0 → 0x90 ≤ a.toNat)
    (hrange : b.toNat = 0xF4 → a.toNat ≤ 0x8F) :
    ∃ lo hi : UInt8, lead b = some (3, lo, hi) ∧ lo.toNat ≤ a.toNat ∧ a.toNat ≤ hi.toNat := by
  unfold lead
  rw [if_neg (by simp [UInt8.le_iff_toNat_le]; omega),
    if_neg (by simp [← UInt8.toNat_inj]; omega), if_neg (by simp [← UInt8.toNat_inj]; omega),
    if_neg (by simp [UInt8.le_iff_toNat_le]; omega)]
  by_cases h0 : b.toNat = 0xF0
  · exact ⟨0x90, 0xBF, if_pos (by simp [← UInt8.toNat_inj, h0]), hlong h0, ha.2⟩
  rw [if_neg (by simpa [← UInt8.toNat_inj] using h0)]
  by_cases h4 : b.toNat = 0xF4
  · rw [if_neg (by simp [UInt8.le_iff_toNat_le, h4]), if_pos (by simp [← UInt8.toNat_inj, h4])]
    exact ⟨0x80, 0x8F, rfl, ha.1, hrange h4⟩
  · exact ⟨0x80, 0xBF, if_pos (by simp [UInt8.le_iff_toNat_le]; omega), ha⟩

/-- **The encoding of a character** is read as that character. -/
theorem decode_utf8EncodeChar (c : Char) (bs : List UInt8) :
    decode (String.utf8EncodeChar c ++ bs) = .char c :: decode bs := by
  have hvalid : c.val.toNat < 0xD800 ∨ 0xDFFF < c.val.toNat ∧ c.val.toNat < 0x110000 := c.valid
  unfold String.utf8EncodeChar
  dsimp only
  generalize hn : c.val.toNat = n at *
  have hc : c = Char.ofNat n := by rw [← hn]; exact (Char.ofNat_toNat c).symm
  split
  · -- one byte
    have hb := toNat_ofNat (n := n) (by omega)
    rw [List.singleton_append, decode, if_pos (by rw [UInt8.lt_iff_toNat_lt, hb]; simp; omega), hb,
      hc]
  split
  · -- two bytes
    have hb := toNat_ofNat (n := n / 64 % 32 + 192) (by omega)
    have ha := toNat_ofNat (n := n % 64 + 128) (by omega)
    generalize UInt8.ofNat (n / 64 % 32 + 192) = b at *
    generalize UInt8.ofNat (n % 64 + 128) = a at *
    have hl := lead_two (b := b) (by omega) (by omega)
    refine (decode_append (t := []) (by omega) hl ?_ (by simp)).trans ?_
    · simp [ha]
      omega
    · rw [hc]
      congr 3
      simp [codePoint, ha, hb]
      omega
  split
  · -- three bytes
    have hb := toNat_ofNat (n := n / 4096 % 16 + 224) (by omega)
    have ha := toNat_ofNat (n := n / 64 % 64 + 128) (by omega)
    have ha' := toNat_ofNat (n := n % 64 + 128) (by omega)
    generalize UInt8.ofNat (n / 4096 % 16 + 224) = b at *
    generalize UInt8.ofNat (n / 64 % 64 + 128) = a at *
    generalize UInt8.ofNat (n % 64 + 128) = a' at *
    obtain ⟨lo, hi, hl, hrange⟩ := exists_lead_three (b := b) (a := a) (by omega) (by omega)
      (by omega) (by omega)
    refine (decode_append (t := [a']) (by omega) hl hrange ?_).trans ?_
    · simp [ha']
      omega
    · rw [hc]
      congr 3
      simp [codePoint, ha, ha', hb]
      omega
  · -- four bytes
    have hb := toNat_ofNat (n := n / 262144 % 8 + 240) (by omega)
    have ha := toNat_ofNat (n := n / 4096 % 64 + 128) (by omega)
    have ha' := toNat_ofNat (n := n / 64 % 64 + 128) (by omega)
    have ha'' := toNat_ofNat (n := n % 64 + 128) (by omega)
    generalize UInt8.ofNat (n / 262144 % 8 + 240) = b at *
    generalize UInt8.ofNat (n / 4096 % 64 + 128) = a at *
    generalize UInt8.ofNat (n / 64 % 64 + 128) = a' at *
    generalize UInt8.ofNat (n % 64 + 128) = a'' at *
    obtain ⟨lo, hi, hl, hrange⟩ := exists_lead_four (b := b) (a := a) (by omega) (by omega)
      (by omega) (by omega)
    refine (decode_append (t := [a', a'']) (by omega) hl hrange ?_).trans ?_
    · simp [ha', ha'']
      omega
    · rw [hc]
      congr 3
      simp [codePoint, ha, ha', ha'', hb]
      omega

theorem decode_flatMap (cs : List Char) :
    decode (cs.flatMap String.utf8EncodeChar) = cs.map .char := by
  induction cs with
  | nil => simp [decode]
  | cons c cs ih => rw [List.flatMap_cons, decode_utf8EncodeChar, ih, List.map_cons]

/-- The symbols of the bytes of a text. -/
theorem decode_toBytes (s : String) : decode (toBytes s) = ofText s := by
  rw [toBytes_eq, decode_flatMap, ofText]

theorem ofText_ofList (cs : List Char) : ofText (String.ofList cs) = cs.map .char := by
  rw [ofText, String.toList_ofList]

theorem decode_ofList (cs : List Char) : decode (toBytes (String.ofList cs)) = cs.map .char := by
  rw [decode_toBytes, ofText_ofList]

theorem eq_map_of_chars? {symbols : List Symbol} {cs : List Char} (h : chars? symbols = some cs) :
    symbols = cs.map .char := by
  induction symbols generalizing cs with
  | nil =>
    obtain rfl := Option.some.inj h
    rfl
  | cons x symbols ih =>
    cases x with
    | char c =>
      obtain ⟨cs', hcs, rfl⟩ := Option.map_eq_some_iff.1 h
      rw [ih hcs, List.map_cons]
    | stray => cases h

/-- Only the symbols of a text read as the text. -/
theorem text?_eq_some_iff {symbols : List Symbol} {s : String} :
    text? symbols = some s ↔ symbols = ofText s := by
  constructor
  · intro h
    obtain ⟨cs, hcs, rfl⟩ := Option.map_eq_some_iff.1 h
    rw [ofText, String.toList_ofList, eq_map_of_chars? hcs]
  · rintro rfl
    exact text?_ofText s

end Symbol

/-- **The bytes of a text** are read back as the text. -/
theorem ofBytes?_toBytes (s : String) : ofBytes? (toBytes s) = some s := by
  rw [ofBytes?, Symbol.decode_toBytes, Symbol.text?_ofText]

end Marshal.Text
