import Marshal.Json.Sink
import Marshal.Json.Source
import Marshal.Proofs.Json.Text
import Marshal.Proofs.Outcome
import Marshal.Proofs.Wire.Objects
import Marshal.Wire.Decode
import Marshal.Wire.Encode

/-!
# Runs over JSON trees

What the writer of a structure leaves in the tree when each of its parts is placed, and what the
reader of a structure returns when each of its parts is taken. A part that is written is placed by
`Writer.emit`; a part that is read is taken off the cursor (`Takes`).
-/

namespace Marshal.Json

open Outcome

variable {s : PlanSet} {shape : Shape} {allowed : Bool}

/-! ## Writing -/

namespace Writer

/-- Writing that adds members to the innermost object. -/
def AddsMembers (m : Writing Writer Unit) (ns : List (String × Json)) : Prop :=
  ∀ ms own stack root, (Table.keys (ms ++ ns)).Nodup →
    m ⟨.object ms own :: stack, root⟩ = .ok () ⟨.object (ms ++ ns) own :: stack, root⟩

/-- Writing that adds items to the innermost array. -/
def AddsItems (m : Writing Writer Unit) (js : List Json) : Prop :=
  ∀ items own stack root,
    m ⟨.array items own :: stack, root⟩ = .ok () ⟨.array (items ++ js) own :: stack, root⟩

theorem addsMembers_pure : AddsMembers (pure ()) [] := by
  intro ms own stack root _
  rw [List.append_nil]
  rfl

theorem AddsMembers.bind {m m' : Writing Writer Unit} {ns ns' : List (String × Json)}
    (h : AddsMembers m ns) (h' : AddsMembers m' ns') :
    AddsMembers (do m; m') (ns ++ ns') := by
  intro ms own stack root hn
  rw [← List.append_assoc] at hn ⊢
  have hfirst : (Table.keys (ms ++ ns)).Nodup :=
    hn.sublist (List.Sublist.map _ (List.sublist_append_left _ _))
  rw [run_bind (h ms own stack root hfirst), h' _ own stack root hn]

theorem addsMembers_emit (k : String) (j : Json) : AddsMembers (emit (some k) j) [(k, j)] := by
  intro ms own stack root hn
  have hk : k ∉ Table.keys ms := by
    rw [Table.keys, List.map_append] at hn
    exact fun hmem => (List.nodup_append.1 hn).2.2 k hmem k List.mem_cons_self rfl
  rw [emit, place]
  dsimp only
  rw [put_eq_append hk]

theorem addsItems_pure : AddsItems (pure ()) [] := by
  intro items own stack root
  rw [List.append_nil]
  rfl

theorem AddsItems.bind {m m' : Writing Writer Unit} {js js' : List Json} (h : AddsItems m js)
    (h' : AddsItems m' js') : AddsItems (do m; m') (js ++ js') := by
  intro items own stack root
  rw [run_bind (h items own stack root), h' _ own stack root, List.append_assoc]

theorem addsItems_emit (key : Option String) (j : Json) : AddsItems (emit key j) [j] :=
  fun _ _ _ _ => rfl

/-- The items of a list are added when each of them is placed. -/
theorem items_addsItems {vs : List Value} {js : List Json}
    (H : List.Forall₂ (fun v j => Encode.value s .item shape allowed v = emit none j) vs js) :
    AddsItems (Encode.items s shape allowed vs) js := by
  induction H with
  | nil =>
    rw [Encode.items]
    exact addsItems_pure
  | cons hv _ ih =>
    rw [Encode.items, hv]
    exact (addsItems_emit none _).bind ih

/-- The entries of a map are added when each of them is placed. -/
theorem entries_addsMembers {es : List (String × Value)} {ms : List (String × Json)}
    (H : List.Forall₂ (fun e m => m.1 = e.1 ∧
      Encode.value s (.entry e.1) shape allowed e.2 = emit (some e.1) m.2) es ms) :
    AddsMembers (Encode.entries s shape allowed es) ms := by
  induction H with
  | nil =>
    rw [Encode.entries]
    exact addsMembers_pure
  | @cons e m es ms he _ ih =>
    obtain ⟨_, v⟩ := e
    obtain ⟨k, j⟩ := m
    obtain ⟨rfl, hv⟩ := he
    rw [Encode.entries, hv]
    exact (addsMembers_emit k j).bind ih

/-- Captured entries are added when each of them is placed and no key is that of a property. -/
theorem extras_addsMembers {plan : TypePlan} {es : List (String × Value)}
    {ms : List (String × Json)}
    (H : List.Forall₂ (fun e m => m.1 = e.1 ∧
      Encode.value s (.field e.1 .element) shape allowed e.2 = emit (some e.1) m.2) es ms)
    (hkeys : ∀ k ∈ Table.keys es, Table.contains plan.read.actions k = false) :
    AddsMembers (Encode.extras s plan shape allowed es) ms := by
  induction H with
  | nil =>
    rw [Encode.extras]
    exact addsMembers_pure
  | @cons e m es ms he _ ih =>
    obtain ⟨_, v⟩ := e
    obtain ⟨k, j⟩ := m
    obtain ⟨rfl, hv⟩ := he
    obtain ⟨hk, hks⟩ := List.forall_mem_cons.1 hkeys
    rw [Encode.extras, if_neg (by simp [hk]), hv]
    exact (addsMembers_emit k j).bind (ih hks)

/-- A list is placed as the array of its items. -/
theorem value_list {pos : Position} {n : Bool} {l : Layout} {vs : List Value} {js : List Json}
    (h : AddsItems (Encode.items s shape allowed vs) js) :
    Encode.value s pos (.sequence shape allowed l) n (.list vs) = emit (keyOf pos) (.array js) := by
  funext w
  rw [Encode.value]
  have hopen : Sink.beginContainer pos (Encode.containerAt pos l) w =
      .ok () ⟨.array [] (keyOf pos) :: w.stack, w.root⟩ := by
    cases l <;> rfl
  rw [run_bind hopen, run_bind (h [] _ _ _), List.nil_append]
  rfl

/-- A map is placed as the object of its entries. -/
theorem value_map {pos : Position} {n : Bool} {es : List (String × Value)}
    {ms : List (String × Json)} (h : AddsMembers (Encode.entries s shape allowed es) ms)
    (hn : (Table.keys ms).Nodup) :
    Encode.value s pos (.mapping shape allowed) n (.map es) = emit (keyOf pos) (.object ms) := by
  funext w
  rw [Encode.value]
  have hopen : Sink.beginContainer pos .mapping w =
      .ok () ⟨.object [] (keyOf pos) :: w.stack, w.root⟩ := rfl
  rw [run_bind hopen, run_bind (h [] _ _ _ hn), List.nil_append]
  rfl

/-- An object is placed as the object of what its steps add. -/
theorem object_eq {pos : Position} {declared : Option Handle} {t : Handle}
    {fields : List (String × Value)} {plan : TypePlan} {ms : List (String × Json)}
    (hplan : Encode.instancePlan s pos declared t = .ok plan)
    (h : AddsMembers (plan.write.steps.forM fun st => Encode.step s plan fields st) ms)
    (hn : (Table.keys ms).Nodup) :
    Encode.object s pos declared t fields = emit (keyOf pos) (.object ms) := by
  funext w
  rw [Encode.object, hplan]
  have hopen : Sink.beginObject pos w = .ok () ⟨.object [] (keyOf pos) :: w.stack, w.root⟩ := rfl
  refine (run_bind (rfl : Writing.lift (.ok plan) w = .ok plan w)).trans ?_
  rw [run_bind hopen, run_bind (h [] _ _ _ hn), List.nil_append]
  rfl

end Writer

/-! ## Reading -/

namespace Reader

variable {α : Type}

/-- Reading that takes a tree off the cursor. -/
def Takes (m : Reading Reader α) (j : Json) (a : α) : Prop :=
  ∀ stack, m ⟨some j, stack⟩ = .ok a ⟨none, stack⟩

theorem length_le_bound (cursor : Option Json) (p : OpenPart) (stack : List OpenPart) :
    OpenPart.size p ≤ Source.bound (⟨cursor, p :: stack⟩ : Reader) := Nat.le_max_left _ _

/-- A list is read when each of its items is taken. -/
theorem items_run {inner : Reading Reader Value} {vs : List Value} {js : List Json}
    (H : List.Forall₂ (fun v j => Takes inner j v) vs js) {fuel : Nat} (hf : js.length < fuel)
    (stack : List OpenPart) :
    Decode.items inner fuel ⟨none, .array js :: stack⟩ = .ok vs ⟨none, stack⟩ := by
  induction H generalizing fuel with
  | nil =>
    obtain ⟨fuel, rfl⟩ := Nat.exists_eq_succ_of_ne_zero (Nat.ne_of_gt hf)
    rfl
  | @cons v j vs js hv _ ih =>
    obtain ⟨fuel, rfl⟩ := Nat.exists_eq_succ_of_ne_zero (Nat.ne_of_gt (Nat.zero_lt_of_lt hf))
    have hnext : Source.nextElement (⟨none, .array (j :: js) :: stack⟩ : Reader) =
        .ok true ⟨some j, .array js :: stack⟩ := rfl
    rw [Decode.items, run_bind hnext, if_pos rfl, run_bind (hv _),
      run_bind (ih (Nat.lt_of_succ_lt_succ hf))]
    rfl

/-- A map is read when the value of each of its entries is taken. -/
theorem entries_run {inner : String → Reading Reader Value} {es : List (String × Value)}
    {ms : List (String × Json)}
    (H : List.Forall₂ (fun e m => m.1 = e.1 ∧ Takes (inner e.1) m.2 e.2) es ms) {fuel : Nat}
    (hf : ms.length < fuel) (table : List (String × Value)) (stack : List OpenPart) :
    Decode.entries inner fuel table ⟨none, .object ms :: stack⟩ =
      .ok (es.foldl (fun t e => Table.insert t e.1 e.2) table) ⟨none, stack⟩ := by
  induction H generalizing fuel table with
  | nil =>
    obtain ⟨fuel, rfl⟩ := Nat.exists_eq_succ_of_ne_zero (Nat.ne_of_gt hf)
    rfl
  | @cons e m es ms he _ ih =>
    obtain ⟨_, v⟩ := e
    obtain ⟨k, j⟩ := m
    obtain ⟨rfl, hv⟩ := he
    obtain ⟨fuel, rfl⟩ := Nat.exists_eq_succ_of_ne_zero (Nat.ne_of_gt (Nat.zero_lt_of_lt hf))
    have hnext : Source.nextEntry (⟨none, .object ((k, j) :: ms) :: stack⟩ : Reader) =
        .ok (some k) ⟨some j, .object ms :: stack⟩ := rfl
    rw [Decode.entries, run_bind hnext]
    dsimp only
    rw [run_bind (hv _), ih (Nat.lt_of_succ_lt_succ hf), List.foldl_cons]

/-! ### Objects -/

variable {inner : Decode.Inner Reader} {plan : TypePlan}

/-- A scan that passes members and gains what they hold. -/
def Absorbs (inner : Decode.Inner Reader) (plan : TypePlan) (ms : List (String × Json))
    (u : Decode.Scan → Decode.Scan) : Prop :=
  ∀ fuel scan rest stack,
    Decode.fields inner plan (fuel + ms.length) scan ⟨none, .object (ms ++ rest) :: stack⟩ =
      Decode.fields inner plan fuel (u scan) ⟨none, .object rest :: stack⟩

theorem absorbs_nil : Absorbs inner plan [] id := fun _ _ _ _ => rfl

theorem Absorbs.append {ms ns : List (String × Json)} {u v : Decode.Scan → Decode.Scan}
    (h : Absorbs inner plan ms u) (h' : Absorbs inner plan ns v) :
    Absorbs inner plan (ms ++ ns) (v ∘ u) := by
  intro fuel scan rest stack
  rw [List.length_append, Nat.add_comm ms.length, ← Nat.add_assoc, List.append_assoc, h, h']
  rfl

/-- A member is passed when its value is taken. -/
theorem absorbs_single {k : String} {j : Json} {u : Decode.Scan → Decode.Scan}
    (h : ∀ scan, Takes (Decode.field inner plan scan k .element) j (u scan)) :
    Absorbs inner plan [(k, j)] u := by
  intro fuel scan rest stack
  have hnext : Source.nextKey (⟨none, .object ((k, j) :: rest) :: stack⟩ : Reader) =
      .ok (some (k, .element)) ⟨some j, .object rest :: stack⟩ := rfl
  rw [List.length_singleton, List.singleton_append, Decode.fields, run_bind hnext]
  dsimp only
  rw [run_bind (h scan _)]

/-- The member of a property is passed when its value is taken. -/
theorem absorbs_field {p : Property} {fields : Table String Value} {k : String} {j : Json}
    {v : Value} (ha : Table.find? plan.read.actions k = some (Catalogue.fieldAction .json p shape))
    (hflat : shape.isFlattened = false) (hc : p.carrier = false)
    (hv : Table.find? fields p.name = some v) (h : Takes (inner shape p.nullable k) j v) :
    Absorbs inner plan [(k, j)] fun scan => scan.absorb fields p := by
  refine absorbs_single fun scan stack => ?_
  have hbound : Decode.boundAction plan k .element = some (Catalogue.fieldAction .json p shape) := by
    rw [Decode.boundAction, ha]
    rfl
  have hassign : scan.assign (Catalogue.fieldAction .json p shape) v = scan.absorb fields p := by
    rw [Decode.Scan.absorb, if_neg (by simp [hc]), hv, scan.assign_of_not_flattened hflat]
    rfl
  rw [Decode.field, hbound]
  dsimp only
  refine (run_bind (h stack)).trans ?_
  rw [hassign]
  rfl

/-- Captured members are passed when the value of each is taken. -/
theorem absorbs_extras {p : Property} {fields : Table String Value} {es : List (String × Value)}
    {ms : List (String × Json)} (hp : plan.read.carrier = some ⟨p.name, shape, allowed⟩)
    (hc : p.carrier = true) (hes : Table.find? fields p.name = some (.map es))
    (hkeys : ∀ k ∈ Table.keys es, Table.contains plan.read.actions k = false)
    (H : List.Forall₂ (fun e m => m.1 = e.1 ∧ Takes (inner shape allowed e.1) m.2 e.2) es ms) :
    Absorbs inner plan ms fun scan => scan.absorb fields p := by
  have hfold : Absorbs inner plan ms fun scan =>
      { scan with extra := es.foldl (fun t e => Table.insert t e.1 e.2) scan.extra } := by
    clear hes
    induction H with
    | nil => exact absorbs_nil
    | @cons e m es ms he _ ih =>
      obtain ⟨_, v⟩ := e
      obtain ⟨k, j⟩ := m
      obtain ⟨rfl, hv⟩ := he
      obtain ⟨hk, hks⟩ := List.forall_mem_cons.1 hkeys
      refine Absorbs.append (@absorbs_single _ _ k j
        (fun scan => { scan with extra := Table.insert scan.extra k v })
        fun scan stack => ?_) (ih hks)
      have hnone : Decode.boundAction plan k .element = none := by
        rw [Decode.boundAction, Option.not_isSome_iff_eq_none.1 (Bool.eq_false_iff.1 hk)]
        rfl
      rw [Decode.field, hnone, hp]
      dsimp only
      rw [run_bind (hv stack)]
      rfl
  have hu : (fun scan : Decode.Scan => scan.absorb fields p) = fun scan =>
      { scan with extra := es.foldl (fun t e => Table.insert t e.1 e.2) scan.extra } := by
    funext scan
    rw [Decode.Scan.absorb, if_pos hc, Decode.captured, hes]
  rw [hu]
  exact hfold

/-- An object is read when the scan of its members gains what makes it. -/
theorem object_run {declared : Handle} {declaredPlan : TypePlan} {ms : List (String × Json)}
    {u : Decode.Scan → Decode.Scan} {i : Instance}
    (hdeclared : s.type? declared = some declaredPlan)
    (hconcrete : ∀ stack, (Decode.concretePlan s declaredPlan : Reading Reader TypePlan)
      ⟨none, .object ms :: stack⟩ = .ok plan ⟨none, .object ms :: stack⟩)
    (h : Absorbs inner plan ms u) (hmake : (u ⟨[], []⟩).make plan = .ok i) :
    Takes (Decode.object s inner declared) (.object ms) i := by
  intro stack
  have hplan : Decode.typePlan s declared = .ok declaredPlan := by
    rw [Decode.typePlan, hdeclared]
  have hbegin : Source.beginObject (⟨some (.object ms), stack⟩ : Reader) =
      .ok () ⟨none, .object ms :: stack⟩ := rfl
  obtain ⟨fuel, hfuel⟩ := Nat.exists_eq_add_of_le
    (length_le_bound none (.object ms) stack)
  rw [Decode.object, hplan]
  refine (run_bind (rfl : Reading.lift (.ok declaredPlan) _ = .ok declaredPlan _)).trans ?_
  rw [run_bind hbegin, run_bind (hconcrete stack)]
  refine (run_bind (rfl : (get : Reading Reader Reader) _ = .ok _ _)).trans ?_
  have hscan := h (fuel + 1) ⟨[], []⟩ [] stack
  have hend : Decode.fields inner plan (fuel + 1) (u ⟨[], []⟩) ⟨none, .object [] :: stack⟩ =
      .ok (u ⟨[], []⟩) ⟨none, stack⟩ := rfl
  have hsize : Source.bound (⟨none, .object ms :: stack⟩ : Reader) + 1 = fuel + 1 + ms.length := by
    rw [hfuel]
    show ms.length + fuel + 1 = _
    omega
  rw [hsize]
  rw [List.append_nil] at hscan
  rw [run_bind (hscan.trans hend), hmake]
  rfl

end Reader

end Marshal.Json
