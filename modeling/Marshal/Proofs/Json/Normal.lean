import Marshal.Proofs.Json.Levels
import Marshal.Proofs.Json.RoundTrip
import Marshal.Proofs.Wire.Origins
import Marshal.Proofs.Wire.Soundness

/-!
# What is read from JSON

Every object that is read from a JSON document is settled (`Document.settled_of_read_json`): it was
recognised by its word, its discriminator agrees with its type, and what it captured has keys of no
property. It nests no deeper than the document. The typing of what is read is known already
(`Document.admits_of_read`), so the induction on the room that is left looks at the objects only.
-/

namespace Marshal

namespace Json

open Catalogue Decode

variable {c : Catalogue} {s : PlanSet} {t declared : Handle} {o : ObjectType} {plan : TypePlan}
  {d room : Nat} {i : Instance} {j : Json} {members : List (String × Json)}

/-- In JSON every key binds what has its name. -/
theorem boundAction_eq (hplan : c.Plans .json t o plan) (key : String) :
    boundAction plan key .element = Table.find? plan.read.actions key := by
  rw [boundAction]
  rcases ha : Table.find? plan.read.actions key with _ | a
  · rfl
  · obtain ⟨p, -, -, -, _, -, -, rfl⟩ := (hplan.actions key a).1 ha
    rfl

/-- A text of an object that repeats no key is found ahead of the scan. -/
theorem text?_of_scalar (hn : (Table.keys members).Nodup) (x : String × Placement × Json)
    (hx : x ∈ members.map fun m => (m.1, (.element : Placement), m.2)) (word : String)
    (hw : Tree.scalar x.2.2 = .ok (.text word)) :
    Tree.text? (Json.object members) x.1 x.2.1 = .ok (some word) := by
  obtain ⟨⟨key, j⟩, hm, rfl⟩ := List.mem_map.1 hx
  obtain rfl := Json.eq_text_of_scalar hw
  exact congrArg Except.ok (firstText?_of_mem hn hm)

/-- What reading with so much room gives of trees of so many levels is settled. -/
def Settles (c : Catalogue) (s : PlanSet) (room d : Nat) : Prop :=
  ∀ {l : Layout} {r : Reference} {shape : Shape} {allowed : Bool} {name : String} {j : Json}
    {v : Value}, c.Forms l r shape → Bounded d j → c.Admits allowed r v →
      Tree.value s room shape allowed name j = .ok v →
        c.Conforms (c.Settled .json) allowed r v ∧ c.nesting false v ≤ d

section Scanned

variable {scan : Scan} {ts : List (String × Placement × Json)}

/-- What a scan makes of a property is settled and nests no deeper than the parts of the object. A
carrier is looked at entry by entry. -/
theorem field_settled (W : c.WellFormed) (ho : c.object? t = some o) (hplan : c.Plans .json t o plan)
    (hfrom : Tree.Scanned (Tree.value s room) plan ts scan) (hmake : scan.make plan = .ok i)
    (ih : Settles c s room d) (hbounded : ∀ x ∈ ts, Bounded d x.2.2) {p : Property}
    (hp : p ∈ c.plannedProperties t) {v : Value} (hv : Table.find? i.fields p.name = some v)
    (hadm : c.Admits (p.nullable && !p.carrier) p.type v) :
    c.Conforms (c.Settled .json) (p.nullable && !p.carrier) p.type v ∧ c.nesting p.carrier v ≤ d := by
  cases hc : p.carrier with
  | false =>
    rw [hc, Bool.not_false, Bool.and_true] at hadm
    obtain ⟨x, hx, shape, u, -, -, hshape, hread, hflat⟩ :=
      hfrom.exists_field W ho hplan hmake hp hc hv
    obtain rfl := hflat hshape.not_flattened
    rw [Bool.not_false, Bool.and_true]
    exact ih hshape (hbounded x hx) hadm hread
  | true =>
    obtain ⟨es, r, shape, m, rfl, htype, hshape, hes⟩ :=
      hfrom.exists_captured W ho hplan hmake hp hc hv
    rw [hc, htype, Bool.not_true, Bool.and_false] at hadm
    cases hadm with
    | map hasc hadm =>
      have hentries : ∀ k u, (k, u) ∈ es →
          c.Conforms (c.Settled .json) m r u ∧ c.nesting false u ≤ d := by
        intro k u hu
        obtain ⟨x, hx, -, -, hread⟩ := hes k u hu
        exact ih hshape (hbounded x hx) (hadm k u hu) hread
      rw [htype, Catalogue.nesting, if_pos rfl, Nat.add_zero, nestingEntries_le_iff]
      exact ⟨.map hasc fun k u hu => (hentries k u hu).1, fun k u hu => (hentries k u hu).2⟩

/-- What is captured in JSON has keys of no property. -/
theorem not_mem_keys_of_scanned (W : c.WellFormed) (ho : c.object? t = some o)
    (hplan : c.Plans .json t o plan) (hfrom : Tree.Scanned (Tree.value s room) plan ts scan)
    (hmake : scan.make plan = .ok i) (helement : ∀ x ∈ ts, x.2.1 = .element) {p : Property}
    (hp : p ∈ c.plannedProperties t) (hc : p.carrier = true) {es : List (String × Value)}
    (hes : Table.find? i.fields p.name = some (.map es)) {q : Property}
    (hq : q ∈ c.plannedProperties t) (hqc : q.carrier = false) :
    wireName .json q ∉ Table.keys es := by
  intro hmem
  obtain ⟨es', _, _, _, he, -, -, hfound⟩ := hfrom.exists_captured W ho hplan hmake hp hc hes
  obtain rfl := Value.map.inj he
  obtain ⟨⟨key, u⟩, hu, hkey⟩ := List.mem_map.1 hmem
  obtain ⟨x, hx, hxkey, hnone, -⟩ := hfound key u hu
  obtain ⟨_, -, -, hact⟩ := hplan.action_of_mem hq hqc
  have hname : x.1 = wireName .json q := hxkey.trans hkey
  rw [helement x hx, boundAction_eq hplan, hname, hact] at hnone
  cases hnone

end Scanned

/-- **An object that is read is settled** when what stands in it is. -/
theorem object_settled (P : c.PlannedBy .json s) (ih : ∀ d, Settles c s room d) {allowed : Bool}
    (hj : Bounded d j) (hadm : c.Admits allowed (.named declared) i.toValue)
    (h : Tree.object s (Tree.value s room) declared j = .ok i) :
    c.Conforms (c.Settled .json) allowed (.named declared) i.toValue ∧
      c.nesting false i.toValue ≤ d := by
  have W := P.wellFormed
  obtain ⟨dplan, ts, plan, scan, hd, hts, hconcrete, hscan, -, hmake⟩ := Tree.object_eq_ok_iff.1 h
  obtain ⟨t, hplanned, hsel, hword⟩ := Tree.exists_selected P hd hconcrete
  obtain ⟨o, ho, hplan⟩ := P.plans hplanned
  obtain rfl : i.type = t := (type_of_make hmake).trans hplan.type
  obtain ⟨members, rfl⟩ : ∃ members, j = .object members := by
    cases j with
    | object members => exact ⟨members, rfl⟩
    | _ => cases hts
  cases hj with
  | @object d _ hkeys hmembers =>
    obtain rfl := Except.ok.inj hts
    have hfrom := Tree.scanned_of_fields hscan
    have hparts : ∀ x ∈ members.map fun m => (m.1, (.element : Placement), m.2),
        x.2.1 = .element ∧ Bounded d x.2.2 := by
      intro x hx
      obtain ⟨m, hm, rfl⟩ := List.mem_map.1 hx
      exact ⟨rfl, hmembers m.1 m.2 hm⟩
    cases hadm with
    | primitive _ hh => exact absurd hh Primitive.not_holds_object
    | @object _ _ _ _ _ type slot ascending hdeclared required carried typed =>
      obtain rfl := Option.some.inj (ho.symm.trans type)
      have hfield := fun p hp v hv => field_settled W ho hplan hfrom hmake (ih d)
        (fun x hx => (hparts x hx).2) hp hv (typed p hp v hv)
      have hagrees := Tree.agrees_of_scanned P hd hsel ho hplan hword hfrom hmake required
        (text?_of_scalar hkeys)
      refine ⟨.object ho ⟨hsel, hagrees, fun p hp hc es hes q hq hqc => not_mem_keys_of_scanned W ho
        hplan hfrom hmake (fun x hx => (hparts x hx).1) hp hc hes hq hqc⟩ ascending hdeclared required
        carried fun p hp v hv => (hfield p hp v hv).1, ?_⟩
      rw [Instance.toValue, Catalogue.nesting, Nat.add_le_add_iff_right, nestingFields_le_iff]
      intro k v hkv
      obtain ⟨p, hp, rfl⟩ := hdeclared k v hkv
      rw [W.carrierName?_beq ho hp]
      exact (hfield p hp v ((Table.find?_eq_some_iff ascending).2 hkv)).2

theorem foldlM_entry {inner : String → Json → Except DecodeError Value}
    {ms : List (String × Json)} {table es : List (String × Value)}
    (h : (ms.map .ok).foldlM (Tree.entry inner) table = .ok es) {k : String} {v : Value}
    (hv : (k, v) ∈ es) : (k, v) ∈ table ∨ ∃ m ∈ ms, inner m.1 m.2 = .ok v := by
  induction ms generalizing table with
  | nil =>
    obtain rfl := Outcome.pure_eq_ok_iff.1 h
    exact .inl hv
  | cons m ms ih =>
    obtain ⟨table', hentry, h⟩ := Outcome.bind_eq_ok_iff.1 h
    obtain ⟨_, hm, hentry⟩ := Outcome.bind_eq_ok_iff.1 hentry
    cases hm
    obtain ⟨u, hu, hentry⟩ := Outcome.bind_eq_ok_iff.1 hentry
    obtain rfl := Outcome.pure_eq_ok_iff.1 hentry
    rcases ih h with hv | ⟨m', hm', hread⟩
    · rcases Table.mem_insert hv with he | hv
      · cases he
        exact .inr ⟨m, List.mem_cons_self, hu⟩
      · exact .inl hv
    · exact .inr ⟨m', List.mem_cons_of_mem _ hm', hread⟩

section Collections

variable {l : Layout} {r : Reference} {element : Shape} {m allowed : Bool} {name : String}

theorem list_settled (ih : ∀ d, Settles c s room d) (helement : c.Forms .standard r element)
    {vs : List Value} (hj : Bounded d j) (hadm : c.Admits allowed (.collection .sequence r m) (.list vs))
    {items : List Json} (hitems : Tree.items l j = .ok items)
    (hvs : items.mapM (Tree.value s room element m name) = .ok vs) :
    c.Conforms (c.Settled .json) allowed (.collection .sequence r m) (.list vs) ∧
      c.nesting false (.list vs) ≤ d := by
  cases hj with
  | @array d _ hbounded =>
    obtain rfl := Except.ok.inj hitems
    cases hadm with
    | list hall =>
      have hsettled : ∀ v ∈ vs, c.Conforms (c.Settled .json) m r v ∧ c.nesting false v ≤ d := by
        intro v hv
        obtain ⟨j, hj, hread⟩ := Outcome.forall₂_exists_right (Outcome.mapM_eq_ok_iff.1 hvs) hv
        exact ih _ helement (hbounded j hj) (hall v hv) hread
      exact ⟨.list fun v hv => (hsettled v hv).1,
        nesting_list_le_iff.2 fun v hv => (hsettled v hv).2⟩
  | _ => cases hitems

theorem map_settled (ih : ∀ d, Settles c s room d) (helement : c.Forms .standard r element)
    {es : List (String × Value)} (hj : Bounded d j)
    (hadm : c.Admits allowed (.collection .mapping r m) (.map es))
    {entries : List (Except DecodeError (String × Json))} (hentries : Tree.entries j = .ok entries)
    (hes : entries.foldlM (Tree.entry (Tree.value s room element m)) [] = .ok es) :
    c.Conforms (c.Settled .json) allowed (.collection .mapping r m) (.map es) ∧
      c.nesting false (.map es) ≤ d := by
  cases hj with
  | @object d _ hkeys hbounded =>
    obtain rfl := Except.ok.inj hentries
    cases hadm with
    | map hasc hall =>
      have hsettled : ∀ k v, (k, v) ∈ es →
          c.Conforms (c.Settled .json) m r v ∧ c.nesting false v ≤ d := by
        intro k v hv
        obtain ⟨m, hm, hread⟩ := (foldlM_entry hes hv).resolve_left (by simp)
        exact ih _ helement (hbounded m.1 m.2 hm) (hall k v hv) hread
      refine ⟨.map hasc fun k v hv => (hsettled k v hv).1, ?_⟩
      rw [Catalogue.nesting, if_neg Bool.false_ne_true, Nat.add_le_add_iff_right,
        nestingEntries_le_iff]
      exact fun k v hv => (hsettled k v hv).2
  | _ => cases hentries

end Collections

/-- A value that is read is settled when what is read inside of it is. -/
theorem nullable_settled (P : c.PlannedBy .json s) {inner : Option (Tree.Inner Json)}
    (hinner : ∀ f, inner = some f → ∃ room, f = Tree.value s room ∧ ∀ d, Settles c s room d)
    {l : Layout} {r : Reference} {shape : Shape} {allowed : Bool} {name : String} {v : Value}
    (hshape : c.Forms l r shape) (hj : Bounded d j) (hadm : c.Admits allowed r v)
    (h : Tree.nullable s inner shape allowed name j = .ok v) :
    c.Conforms (c.Settled .json) allowed r v ∧ c.nesting false v ≤ d := by
  rcases Tree.shaped_of_nullable h with h | ⟨rfl, rfl⟩
  swap
  · exact ⟨.null, Nat.zero_le _⟩
  cases hshape with
  | primitive hk =>
    obtain ⟨token, -, hv⟩ := Outcome.bind_eq_ok_iff.1 h
    have hholds := toValue_holds hv
    exact ⟨.primitive hk hholds, (nesting_of_holds hholds false).symm ▸ Nat.zero_le _⟩
  | enumeration hk =>
    rw [Tree.shaped, Tree.enumeration, P.enum?_eq_some_iff.2 ⟨_, hk, rfl⟩] at h
    obtain ⟨token, -, hv⟩ := Outcome.bind_eq_ok_iff.1 h
    obtain ⟨w, rfl, hw⟩ := enumOfToken_holds hv
    exact ⟨.enumeration hk hw, Nat.zero_le _⟩
  | object ho =>
    rcases inner with _ | f
    · cases h
    obtain ⟨room, rfl, ih⟩ := hinner f rfl
    obtain ⟨i, hi, h⟩ := Outcome.bind_eq_ok_iff.1 h
    obtain rfl := Outcome.pure_eq_ok_iff.1 h
    exact object_settled P ih hj hadm hi
  | sequence helement =>
    rcases inner with _ | f
    · cases h
    obtain ⟨room, rfl, ih⟩ := hinner f rfl
    obtain ⟨items, hitems, h⟩ := Outcome.bind_eq_ok_iff.1 h
    obtain ⟨vs, hvs, h⟩ := Outcome.bind_eq_ok_iff.1 h
    obtain rfl := Outcome.pure_eq_ok_iff.1 h
    exact list_settled ih helement hj hadm hitems hvs
  | mapping helement =>
    rcases inner with _ | f
    · cases h
    obtain ⟨room, rfl, ih⟩ := hinner f rfl
    obtain ⟨entries, hentries, h⟩ := Outcome.bind_eq_ok_iff.1 h
    obtain ⟨es, hes, h⟩ := Outcome.bind_eq_ok_iff.1 h
    obtain rfl := Outcome.pure_eq_ok_iff.1 h
    exact map_settled ih helement hj hadm hentries hes

/-- **What is read is settled.** -/
theorem settles (P : c.PlannedBy .json s) (room d : Nat) : Settles c s room d := by
  induction room generalizing d with
  | zero => exact fun hshape hj hadm h => nullable_settled P (by simp) hshape hj hadm h
  | succ room ih =>
    refine fun hshape hj hadm h => nullable_settled P (fun f hf => ⟨room, ?_, ih⟩) hshape hj hadm h
    exact (Option.some.inj hf).symm

end Json
end Marshal
