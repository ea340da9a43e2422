import Marshal.Proofs.Json.Outline

/-!
# Decoding JSON by recursion

`valueAs` is the value of a JSON tree for a shape, by recursion on the tree: an object is taken member by
member, an array item by item and a mapping entry by entry. There is no cursor in it, no stack of
structures that have been entered, and no bound on a loop. The decoder, which moves a cursor over such
a stack, gives the same value or the same error, and it leaves the stack as it was
(`Reader.decode_eq_rootAs`).
-/

namespace Marshal

namespace Json

open Decode

/-! ## Trees as values -/

/-- The room inside of a structure. -/
def deeper (name : String) : Nat → Except DecodeError Nat
  | 0 => .error (.nestingTooDeep name Decode.depthLimit)
  | room + 1 => .ok room

/-- The plan that an object is read by: that of the type its word selects, if it has a word. -/
def planAs (s : PlanSet) (declared : TypePlan) (members : List (String × Json)) :
    Except DecodeError TypePlan :=
  match declared.read.discriminator with
  | none => .ok declared
  | some d =>
    match Reader.firstText? d.wire members with
    | none => .ok declared
    | some word =>
      match Table.find? d.variants word with
      | none => .error (.unknownDiscriminator declared.name word)
      | some h => typePlan s h

mutual

/-- **The value of a tree for a shape**, inside which structures may stand `room` deep. The name is that
of the member, for errors. -/
def valueAs (s : PlanSet) (room : Nat) (shape : Shape) (allowed : Bool) (name : String) :
    Json → Except DecodeError Value
  | .null => if allowed then .ok .null else .error (.unexpectedNull name)
  | j =>
    match shape with
    | .primitive kind => do Token.toValue kind (← Reader.tokenOf j) name
    | .enumeration h =>
      match s.enum? h with
      | none => .error (.missingPlan h.index)
      | some p => do enumOfToken p name (← Reader.tokenOf j)
    | .object h => do
      let room ← deeper name room
      let declared ← typePlan s h
      match j with
      | .object members =>
        let plan ← planAs s declared members
        let scan ← membersAs s room plan ⟨[], []⟩ members
        let i ← scan.make plan
        return i.toValue
      | j => throw (Reader.mismatch "object" j)
    | .sequence element nullable _ => do
      let room ← deeper name room
      match j with
      | .array items =>
        let vs ← itemsAs s room element nullable name items
        return .list vs
      | j => throw (Reader.mismatch "array" j)
    | .mapping element nullable => do
      let room ← deeper name room
      match j with
      | .object members =>
        let es ← entriesAs s room element nullable [] members
        return .map es
      | j => throw (Reader.mismatch "map" j)

/-- The values of items. -/
def itemsAs (s : PlanSet) (room : Nat) (shape : Shape) (allowed : Bool) (name : String) :
    List Json → Except DecodeError (List Value)
  | [] => .ok []
  | j :: js => do
    let v ← valueAs s room shape allowed name j
    let vs ← itemsAs s room shape allowed name js
    return v :: vs

/-- A table with the values of entries, each named by its key. -/
def entriesAs (s : PlanSet) (room : Nat) (shape : Shape) (allowed : Bool)
    (table : List (String × Value)) :
    List (String × Json) → Except DecodeError (List (String × Value))
  | [] => .ok table
  | (key, j) :: ms => do
    let v ← valueAs s room shape allowed key j
    entriesAs s room shape allowed (Table.insert table key v) ms

/-- A scan that has passed members. A member that no property takes is captured by the carrier, and
dropped where there is none. -/
def membersAs (s : PlanSet) (room : Nat) (plan : TypePlan) (scan : Scan) :
    List (String × Json) → Except DecodeError Scan
  | [] => .ok scan
  | (key, j) :: ms =>
    match boundAction plan key .element with
    | some a => do
      let v ← valueAs s room a.shape a.nullable key j
      membersAs s room plan (scan.assign a v) ms
    | none =>
      match plan.read.carrier with
      | some c => do
        let v ← valueAs s room c.value c.nullable key j
        membersAs s room plan { scan with extra := Table.insert scan.extra key v } ms
      | none => membersAs s room plan scan ms

end

/-- The object of a tree, inside which structures may stand `room` deep. -/
def objectAs (s : PlanSet) (room : Nat) (declared : Handle) (j : Json) :
    Except DecodeError Instance := do
  let declaredPlan ← typePlan s declared
  match j with
  | .object members =>
    let plan ← planAs s declaredPlan members
    let scan ← membersAs s room plan ⟨[], []⟩ members
    scan.make plan
  | j => throw (Reader.mismatch "object" j)

/-- The object of a document that is a tree. -/
def rootAs (s : PlanSet) (declared : Handle) (j : Json) : Except DecodeError Instance :=
  objectAs s (Decode.depthLimit - 1) declared j

variable {s : PlanSet} {room : Nat} {shape : Shape} {allowed : Bool} {name : String} {j : Json}

/-! ## The same as of any tree -/

/-- A tree that is no null has the value of its shape. -/
theorem valueAs_object {h : Handle} (hn : Tree.isNull j = false) :
    valueAs s (room + 1) (.object h) allowed name j =
      (do return (← objectAs s room h j).toValue) := by
  cases j with
  | null => cases hn
  | _ =>
    rw [valueAs, objectAs]
    · simp only [deeper, bind_assoc]
      rfl
    · simp

/-- The value of the tree for every shape is that by the rules for all trees. -/
def Agrees (s : PlanSet) (j : Json) : Prop := ∀ room shape allowed name,
  valueAs s room shape allowed name j = Tree.value s room shape allowed name j

theorem itemsAs_eq {js : List Json} (hjs : ∀ j ∈ js, Agrees s j) :
    itemsAs s room shape allowed name js = js.mapM (Tree.value s room shape allowed name) := by
  induction js with
  | nil => rfl
  | cons j js ih =>
    obtain ⟨hj, hjs⟩ := List.forall_mem_cons.1 hjs
    rw [itemsAs, List.mapM_cons, hj, ih hjs]

theorem entriesAs_eq {ms : List (String × Json)} (hms : ∀ m ∈ ms, Agrees s m.2)
    (table : List (String × Value)) :
    entriesAs s room shape allowed table ms =
      (ms.map .ok).foldlM (Tree.entry (Tree.value s room shape allowed)) table := by
  induction ms generalizing table with
  | nil => rfl
  | cons m ms ih =>
    obtain ⟨hm, hms⟩ := List.forall_mem_cons.1 hms
    rw [entriesAs, List.map_cons, List.foldlM_cons, hm, Tree.entry]
    simp only [bind_assoc, pure_bind, ih hms]
    rfl

theorem membersAs_eq {ms : List (String × Json)} (hms : ∀ m ∈ ms, Agrees s m.2) (plan : TypePlan)
    (scan : Scan) :
    membersAs s room plan scan ms =
      (ms.map fun m => (m.1, .element, m.2)).foldlM (Tree.field (Tree.value s room) plan) scan := by
  induction ms generalizing scan with
  | nil => rfl
  | cons m ms ih =>
    obtain ⟨hm, hms⟩ := List.forall_mem_cons.1 hms
    rw [membersAs, List.map_cons, List.foldlM_cons, Tree.field]
    dsimp only
    rcases boundAction plan m.1 .element with _ | a
    · rcases plan.read.carrier with _ | c
      · exact ih hms scan
      · simp only [hm _ _ _ _, bind_assoc, pure_bind, ih hms]
    · simp only [hm _ _ _ _, bind_assoc, pure_bind, ih hms]

theorem planAs_eq (declared : TypePlan) (members : List (String × Json)) :
    planAs s declared members = Tree.concretePlan s declared (Json.object members) := by
  rw [planAs, Tree.concretePlan]
  rcases declared.read.discriminator with _ | d
  · rfl
  · have htext : Tree.text? (Json.object members) d.wire d.placement =
        .ok (Reader.firstText? d.wire members) := rfl
    dsimp only
    rw [htext]
    rcases Reader.firstText? d.wire members with _ | word <;> rfl

theorem objectAs_eq (hj : ∀ members, j = .object members → ∀ m ∈ members, Agrees s m.2) (h : Handle) :
    objectAs s room h j = Tree.object s (Tree.value s room) h j := by
  rw [objectAs, Tree.object]
  refine bind_congr fun declared => ?_
  cases j with
  | object members =>
    simp only [planAs_eq, membersAs_eq (hj members rfl)]
    rfl
  | _ => rfl

theorem valueAs_object_eq {h : Handle} (hn : Tree.isNull j = false)
    (hj : ∀ members, j = .object members → ∀ m ∈ members, Agrees s m.2) :
    valueAs s room (.object h) allowed name j = Tree.value s room (.object h) allowed name j := by
  rw [Tree.value_of_not_null hn]
  cases room with
  | zero => cases j with
    | null => cases hn
    | _ => rfl
  | succ room =>
    rw [valueAs_object hn, objectAs_eq hj]
    rfl

/-- **The value of a tree is that by the rules for all trees**, by induction on the tree. What is in
the tree only matters to a shape that has something in it too. -/
theorem valueAs_eq (s : PlanSet) (j : Json) : Agrees s j := by
  induction j using induction with
  | null =>
    intro room shape allowed name
    rw [valueAs, Tree.value_eq, Tree.nullable]
    rfl
  | bool | integer | float | text =>
    intro room shape allowed name
    cases shape with
    | object h => exact valueAs_object_eq rfl (by simp)
    | _ =>
      rw [Tree.value_of_not_null rfl]
      cases room <;> rfl
  | array items ih =>
    intro room shape allowed name
    cases shape with
    | object h => exact valueAs_object_eq rfl (by simp)
    | sequence element n layout =>
      rw [Tree.value_of_not_null rfl]
      cases room with
      | zero => rfl
      | succ room =>
        show (do return Value.list (← itemsAs s room element n name items)) = _
        rw [itemsAs_eq ih]
        rfl
    | _ =>
      rw [Tree.value_of_not_null rfl]
      cases room <;> rfl
  | object members ih =>
    have hmembers : ∀ m ∈ members, Agrees s m.2 := fun m hm => ih m.1 m.2 hm
    intro room shape allowed name
    cases shape with
    | object h => exact valueAs_object_eq rfl fun _ e => Json.object.inj e ▸ hmembers
    | mapping element n =>
      rw [Tree.value_of_not_null rfl]
      cases room with
      | zero => rfl
      | succ room =>
        show (do return Value.map (← entriesAs s room element n [] members)) = _
        rw [entriesAs_eq hmembers]
        rfl
    | _ =>
      rw [Tree.value_of_not_null rfl]
      cases room <;> rfl

/-! ## The decoder -/

namespace Reader

/-- Nothing is read where nothing is at the cursor. -/
theorem error_of_vacant (s : PlanSet) (room : Nat) (shape : Shape) (allowed : Bool) (name : String)
    (stack : List OpenPart) :
    ∃ e r, Decode.value s room shape allowed name (⟨none, stack⟩ : Reader) = .error e r := by
  have hshaped : ∀ inner, ∃ e r, shaped s inner shape name (⟨none, stack⟩ : Reader) = .error e r := by
    intro inner
    cases shape with
    | primitive kind => exact ⟨_, _, rfl⟩
    | enumeration h =>
      rw [shaped, enumeration]
      rcases s.enum? h with _ | p <;> exact ⟨_, _, rfl⟩
    | object h =>
      rcases inner with _ | inner
      · exact ⟨_, _, rfl⟩
      · rw [shaped, Decode.object]
        rcases typePlan s h with e | p <;> exact ⟨_, _, rfl⟩
    | sequence element n layout => rcases inner with _ | inner <;> cases layout <;> exact ⟨_, _, rfl⟩
    | mapping element n => rcases inner with _ | inner <;> exact ⟨_, _, rfl⟩
  cases room with
  | zero => exact hshaped none
  | succ room => exact hshaped (some (Decode.value s room))

/-- **Decoding with a cursor is decoding by recursion on the tree**, errors included. Wherever the
reader stands, reading a value gives what the recursion gives for the tree at the cursor, and when there
is a value nothing is at the cursor any more and the structures that have been entered are the same.
Where nothing is at the cursor nothing is read. -/
theorem decode_eq_rootAs (s : PlanSet) :
    (∀ declared j, decode s declared (ofTree j) = rootAs s declared j) ∧
    ∀ room shape allowed name (r : Reader),
      match r.cursor with
      | some j =>
        Follows (Decode.value s room shape allowed name) (valueAs s room shape allowed name j) r
          ⟨none, r.stack⟩
      | none => ∃ e r', Decode.value s room shape allowed name r = .error e r' := by
  refine ⟨fun declared j => ?_, ?_⟩
  · rw [decode_ofTree, Tree.root, rootAs, objectAs_eq fun _ _ m _ => valueAs_eq s m.2]
  · rintro room shape allowed name ⟨_ | j, stack⟩
    · exact error_of_vacant s room shape allowed name stack
    · show Follows _ (valueAs s room shape allowed name j) _ _
      rw [valueAs_eq s j]
      have hat : Walks.At (σ := Reader) j ⟨some j, stack⟩ ⟨none, stack⟩ := ⟨rfl, rfl⟩
      exact Walks.value_follows room shape allowed name j _ _ hat

end Reader

end Json

end Marshal
