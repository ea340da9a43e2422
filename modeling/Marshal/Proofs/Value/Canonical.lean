import Marshal.Proofs.Value.Typing

/-!
# Canonical values

Documents cannot tell all well typed values apart: a double may lose its last bits, the word of a
type is written whatever its discriminator holds, and a captured entry under the key of a property
is dropped. `isExact` says that a value holds no doubles, and `Canonical` what an object must be in
a slot to be told apart. `Settled` is what every object is that was read from JSON.
-/

namespace Marshal

namespace Value

mutual

/-- Whether a value holds no doubles. -/
def isExact : Value → Bool
  | .float _ => false
  | .list vs => areExact vs
  | .map es => entriesAreExact es
  | .object _ fields => entriesAreExact fields
  | _ => true

/-- Whether the items of a list hold no doubles. -/
def areExact : List Value → Bool
  | [] => true
  | v :: vs => isExact v && areExact vs

/-- Whether the values of a table hold no doubles. -/
def entriesAreExact : List (String × Value) → Bool
  | [] => true
  | (_, v) :: es => isExact v && entriesAreExact es

end

theorem areExact_iff {vs : List Value} : areExact vs = true ↔ ∀ v ∈ vs, v.isExact = true := by
  induction vs with
  | nil => simp [areExact]
  | cons v vs ih => rw [areExact, Bool.and_eq_true, ih, List.forall_mem_cons]

theorem entriesAreExact_iff {es : List (String × Value)} :
    entriesAreExact es = true ↔ ∀ k v, (k, v) ∈ es → v.isExact = true := by
  induction es with
  | nil => simp [entriesAreExact]
  | cons e es ih =>
    rw [entriesAreExact, Bool.and_eq_true, ih, Table.forall_mem_cons]

mutual

/-- Values without doubles that are the same are equal. -/
theorem eq_of_same : ∀ {v w : Value}, v.same w = true → v.isExact = true → v = w
  | .null, w, h, _ => by cases w <;> first | rfl | cases h
  | .bool _, w, h, _ => by cases w <;> first | rw [eq_of_beq h] | cases h
  | .integer _, w, h, _ => by cases w <;> first | rw [eq_of_beq h] | cases h
  | .float _, _, _, hx => nomatch hx
  | .text _, w, h, _ => by cases w <;> first | rw [eq_of_beq h] | cases h
  | .timestamp _, w, h, _ => by cases w <;> first | rw [eq_of_beq h] | cases h
  | .blob _, w, h, _ => by cases w <;> first | rw [eq_of_beq h] | cases h
  | .enum _, w, h, _ => by cases w <;> first | rw [eq_of_beq h] | cases h
  | .list vs, w, h, hx => by
    cases w with
    | list ws => rw [eq_of_sameItems h hx]
    | _ => cases h
  | .map es, w, h, hx => by
    cases w with
    | map fs => rw [eq_of_sameEntries h hx]
    | _ => cases h
  | .object t es, w, h, hx => by
    cases w with
    | object u fs =>
      obtain ⟨ht, hes⟩ := Bool.and_eq_true_iff.1 h
      rw [eq_of_beq ht, eq_of_sameEntries hes hx]
    | _ => cases h

theorem eq_of_sameItems : ∀ {vs ws : List Value}, sameItems vs ws = true → areExact vs = true → vs = ws
  | [], ws, h, _ => by cases ws <;> first | rfl | cases h
  | v :: vs, ws, h, hx => by
    cases ws with
    | nil => cases h
    | cons w ws =>
      obtain ⟨hv, hvs⟩ := Bool.and_eq_true_iff.1 h
      obtain ⟨hxv, hxvs⟩ := Bool.and_eq_true_iff.1 hx
      rw [eq_of_same hv hxv, eq_of_sameItems hvs hxvs]

theorem eq_of_sameEntries :
    ∀ {es fs : List (String × Value)}, sameEntries es fs = true → entriesAreExact es = true → es = fs
  | [], fs, h, _ => by cases fs <;> first | rfl | cases h
  | (k, v) :: es, fs, h, hx => by
    cases fs with
    | nil => cases h
    | cons f fs =>
      obtain ⟨hkv, hes⟩ := Bool.and_eq_true_iff.1 h
      obtain ⟨hk, hv⟩ := Bool.and_eq_true_iff.1 hkv
      obtain ⟨hxv, hxes⟩ := Bool.and_eq_true_iff.1 hx
      rw [eq_of_beq hk, eq_of_same hv hxv, eq_of_sameEntries hes hxes]

end

end Value

/-- The value that a word of an enumeration is read as. -/
def Enumeration.read? (e : Enumeration) (w : String) : Option EnumValue :=
  match Member.match? e.members e.caseSensitive w with
  | some m => some (.known m.name)
  | none => if e.isOpen then some (.unknown w) else none

namespace Catalogue

variable {c : Catalogue}

/-- A word is read as a value by a reference to a type that can hold words. -/
def ReadsAs (c : Catalogue) (r : Reference) (w : String) (v : Value) : Prop :=
  ∃ k, r = .named k ∧ ((c.kind? k = some (.primitive .string) ∧ v = .text w) ∨
    ∃ e x, c.kind? k = some (.enumeration e) ∧ e.read? w = some x ∧ v = .enum x)

/-- An object of the second type is recognised where the first is declared: the two are one, or the
first stands above the second in its hierarchy. -/
def Selects (c : Catalogue) (declared t : Handle) : Prop :=
  declared = t ∨ ∃ r, c.Governs r declared ∧ c.Governs r t ∧ c.Inherits t declared

/-- **What an object must be in a slot** to be read back from a document of a format. -/
structure Canonical (c : Catalogue) (f : Format) (declared t : Handle)
    (fields : Table String Value) : Prop where
  selects : c.Selects declared t
  concrete : ∀ o, c.object? t = some o → o.isAbstract = false
  /-- In a hierarchy the type has a word, and the discriminator holds what the word is read as. -/
  word : ∀ r d, c.Governs r t → c.Names r d → ∃ w, c.word? t = some w ∧
    ∀ p ∈ c.plannedProperties t, p.name = d →
      ∃ v, Table.find? fields d = some v ∧ c.ReadsAs p.type w v
  /-- What is captured has no key that a property has. -/
  keys : ∀ p ∈ c.plannedProperties t, p.carrier = true → ∀ es,
    Table.find? fields p.name = some (.map es) →
      ∀ q ∈ c.plannedProperties t, q.carrier = false → wireName f q ∉ Table.keys es

/-- **The discriminator agrees with the type**: it holds what the word of the type is read as, if the
type has a word. -/
def Agrees (c : Catalogue) (t : Handle) (fields : Table String Value) : Prop :=
  ∀ r d w, c.Governs r t → c.Names r d → c.word? t = some w →
    ∀ p ∈ c.plannedProperties t, p.name = d →
      ∃ v, Table.find? fields d = some v ∧ c.ReadsAs p.type w v

/-- **What an object in a slot is once it was read**: all that `Canonical` asks for, but its type may
be abstract or have no word. -/
structure Settled (c : Catalogue) (f : Format) (declared t : Handle)
    (fields : Table String Value) : Prop where
  selects : c.Selects declared t
  agrees : c.Agrees t fields
  keys : ∀ p ∈ c.plannedProperties t, p.carrier = true → ∀ es,
    Table.find? fields p.name = some (.map es) →
      ∀ q ∈ c.plannedProperties t, q.carrier = false → wireName f q ∉ Table.keys es

theorem Settled.canonical {f : Format} {declared t : Handle} {fields : Table String Value}
    (h : c.Settled f declared t fields) (concrete : ∀ o, c.object? t = some o → o.isAbstract = false)
    (word : ∀ r, c.Governs r t → ∃ w, c.word? t = some w) : c.Canonical f declared t fields where
  selects := h.selects
  concrete := concrete
  word r d g hd := by
    obtain ⟨w, hw⟩ := word r g
    exact ⟨w, hw, h.agrees r d w g hd hw⟩
  keys := h.keys

theorem Selects.inherits {declared t : Handle} (h : c.Selects declared t) :
    c.Inherits t declared := by
  rcases h with rfl | ⟨r, -, -, hi⟩
  · exact .refl declared
  · exact hi

end Catalogue

end Marshal
