import Marshal.Proofs.Outcome
import Marshal.Proofs.Table.Ascending
import Marshal.Wire.Encode

/-!
# Drafts

The encoder walks a value and makes events as it goes. `Draft` is the tree of those events, and
`Draft.ofValue?` makes it without a sink: there is a draft exactly when nothing in the value is
refused. Encoding into any sink is writing the draft (`Encode.value_renders`), and where there is no
draft encoding fails in every state of every sink.
-/

namespace Marshal

/-- Whether a token is no infinite double and a number. -/
def Token.isFinite : Token → Bool
  | .float x => x.isFinite
  | _ => true

theorem Token.isFinite_of_ofValue {kind : Primitive} {v : Value} {field : String} {t : Token}
    (h : ofValue kind v field = .ok t) : t.isFinite = true := by
  unfold ofValue at h
  split at h
  case h_3 | h_5 | h_6 =>
    split at h
    · cases h
      first | rfl | assumption
    · cases h
  all_goals
    cases h <;> rfl

/-- The text in an error aside, the token of a value does not depend on where it stands. -/
theorem Token.toOption_ofValue (kind : Primitive) (v : Value) (field : String) :
    (ofValue kind v field).toOption = (ofValue kind v "").toOption := by
  cases kind <;> cases v <;> simp only [ofValue] <;> first | rfl | (split <;> rfl)

/-- **What is written for a value**: a tree of events. The parts of an object have names and
placements, and the entries of a mapping keys. -/
inductive Draft where
  | null
  | scalar (token : Token) (finite : token.isFinite = true)
  | object (parts : List (String × Placement × Draft))
  | sequence (layout : Layout) (items : List Draft)
  | mapping (entries : List (String × Draft))

namespace Draft

/-- The draft of a text. -/
def text (s : String) : Draft := .scalar (.text s) rfl

/-! ## Writing a draft into a sink -/

section Write

variable {σ : Type} [Sink σ]

mutual

/-- Makes the events of a draft at a position. -/
def write : Position → Draft → Writing σ Unit
  | pos, .null => Sink.null pos
  | pos, .scalar t _ => Sink.scalar pos t
  | pos, .object parts => do
    Sink.beginObject pos
    writeParts parts
    Sink.endObject
  | pos, .sequence layout items => do
    Sink.beginContainer pos (Encode.containerAt pos layout)
    writeItems items
    Sink.endContainer
  | pos, .mapping entries => do
    Sink.beginContainer pos .mapping
    writeEntries entries
    Sink.endContainer

/-- Makes the events of the parts of an object. -/
def writeParts : List (String × Placement × Draft) → Writing σ Unit
  | [] => pure ()
  | (name, placement, d) :: parts => do
    write (.field name placement) d
    writeParts parts

/-- Makes the events of the items of a sequence. -/
def writeItems : List Draft → Writing σ Unit
  | [] => pure ()
  | d :: items => do
    write .item d
    writeItems items

/-- Makes the events of the entries of a mapping. -/
def writeEntries : List (String × Draft) → Writing σ Unit
  | [] => pure ()
  | (key, d) :: entries => do
    write (.entry key) d
    writeEntries entries

end

theorem writeParts_append (ps qs : List (String × Placement × Draft)) :
    (writeParts (ps ++ qs) : Writing σ Unit) = (do writeParts ps; writeParts qs) := by
  induction ps with
  | nil => simp [writeParts]
  | cons p ps ih => simp [writeParts, ih]

end Write

theorem sizeOf_lt_of_mem_object {parts : List (String × Placement × Draft)}
    {p : String × Placement × Draft} (h : p ∈ parts) : sizeOf p.2.2 < sizeOf (object parts) := by
  obtain ⟨name, placement, d⟩ := p
  have := List.sizeOf_lt_of_mem h
  simp only [Prod.mk.sizeOf_spec, object.sizeOf_spec] at this ⊢
  omega

theorem sizeOf_lt_of_mem_sequence {layout : Layout} {items : List Draft} {d : Draft}
    (h : d ∈ items) : sizeOf d < sizeOf (sequence layout items) := by
  have := List.sizeOf_lt_of_mem h
  simp only [sequence.sizeOf_spec]
  omega

theorem sizeOf_lt_of_mem_mapping {entries : List (String × Draft)} {e : String × Draft}
    (h : e ∈ entries) : sizeOf e.2 < sizeOf (mapping entries) := by
  obtain ⟨key, d⟩ := e
  have := List.sizeOf_lt_of_mem h
  simp only [Prod.mk.sizeOf_spec, mapping.sizeOf_spec] at this ⊢
  omega

/-- What holds of a draft when it holds of its parts holds of every draft. -/
@[elab_as_elim, induction_eliminator]
theorem induction {P : Draft → Prop} (null : P .null)
    (scalar : ∀ t h, P (.scalar t h))
    (object : ∀ parts, (∀ p ∈ parts, P p.2.2) → P (.object parts))
    (sequence : ∀ layout items, (∀ d ∈ items, P d) → P (.sequence layout items))
    (mapping : ∀ entries, (∀ e ∈ entries, P e.2) → P (.mapping entries)) (d : Draft) : P d := by
  induction hn : sizeOf d using Nat.strongRecOn generalizing d with
  | ind n ih =>
    subst hn
    cases d with
    | null => exact null
    | scalar t h => exact scalar t h
    | object parts => exact object parts fun p hp => ih _ (sizeOf_lt_of_mem_object hp) _ rfl
    | sequence layout items =>
      exact sequence layout items fun d hd => ih _ (sizeOf_lt_of_mem_sequence hd) _ rfl
    | mapping entries => exact mapping entries fun e he => ih _ (sizeOf_lt_of_mem_mapping he) _ rfl

/-! ## Drafts of values -/

/-- The draft of a value of a primitive type. -/
def ofPrimitive? (kind : Primitive) (v : Value) : Option Draft :=
  match h : Token.ofValue kind v "" with
  | .ok t => some (.scalar t (Token.isFinite_of_ofValue h))
  | .error _ => none

/-- The plan for writing an object of type `t` where `declared` is expected. -/
def plan? (s : PlanSet) (declared : Option Handle) (t : Handle) : Option TypePlan :=
  (Encode.instancePlan s .item declared t).toOption

mutual

/-- The draft of an object. -/
def ofObject? (s : PlanSet) (declared : Option Handle) (t : Handle)
    (fields : List (String × Value)) : Option Draft := do
  let plan ← plan? s declared t
  let parts ← plan.write.steps.mapM fun st => ofStep? s plan fields st
  return .object parts.flatten
termination_by (sizeOf fields, 1)

/-- The parts that a step writes. -/
def ofStep? (s : PlanSet) (plan : TypePlan) (fields : List (String × Value)) (st : Step) :
    Option (List (String × Placement × Draft)) :=
  match st.emission with
  | .discriminator none => none
  | .discriminator (some word) => some [(st.wire, st.placement, text word)]
  | .entries shape nullable =>
    match _ : Table.find? fields st.property with
    | none => some []
    | some .null => some []
    | some (.map captured) => ofExtras? s plan shape nullable captured
    | some _ => none
  | .value shape =>
    match _ : Table.find? fields st.property with
    | none => if st.required then none else some []
    | some v => (ofValue? s shape st.nullable v).map fun d => [(st.wire, st.placement, d)]
termination_by (sizeOf fields, 0)
decreasing_by
  all_goals
    have := List.sizeOf_lt_of_mem (Table.mem_of_find? (by assumption))
    simp only [Prod.mk.sizeOf_spec, Value.map.sizeOf_spec] at this
    omega

/-- The parts for the entries of a carrier whose keys are not names of properties. -/
def ofExtras? (s : PlanSet) (plan : TypePlan) (shape : Shape) (nullable : Bool) :
    List (String × Value) → Option (List (String × Placement × Draft))
  | [] => some []
  | (key, v) :: rest =>
    if Table.contains plan.read.actions key then ofExtras? s plan shape nullable rest
    else do
      let d ← ofValue? s shape nullable v
      let parts ← ofExtras? s plan shape nullable rest
      return (key, .element, d) :: parts
termination_by captured => (sizeOf captured, 0)

/-- The drafts of the entries of a mapping. -/
def ofEntries? (s : PlanSet) (shape : Shape) (nullable : Bool) :
    List (String × Value) → Option (List (String × Draft))
  | [] => some []
  | (key, v) :: rest => do
    let d ← ofValue? s shape nullable v
    let entries ← ofEntries? s shape nullable rest
    return (key, d) :: entries
termination_by es => (sizeOf es, 0)

/-- The drafts of the items of a sequence. -/
def ofItems? (s : PlanSet) (shape : Shape) (nullable : Bool) : List Value → Option (List Draft)
  | [] => some []
  | v :: rest => do
    let d ← ofValue? s shape nullable v
    let items ← ofItems? s shape nullable rest
    return d :: items
termination_by vs => (sizeOf vs, 0)

/-- **The draft of a value** of a given shape, if all of it can be written. -/
def ofValue? (s : PlanSet) (shape : Shape) (nullable : Bool) (v : Value) : Option Draft :=
  match shape, v with
  | _, .null => if nullable then some .null else none
  | .primitive kind, v => ofPrimitive? kind v
  | .enumeration h, .enum e => (Encode.enumWord s h e).toOption.map text
  | .object h, .object t fields => ofObject? s (some h) t fields
  | .sequence element nullable layout, .list vs =>
    (ofItems? s element nullable vs).map (.sequence layout)
  | .mapping element nullable, .map es => (ofEntries? s element nullable es).map .mapping
  | _, _ => none
termination_by (sizeOf v, 0)

end

/-- The draft of an object as the root of a document. -/
def ofInstance? (s : PlanSet) (i : Instance) : Option Draft := ofObject? s none i.type i.fields

/-- **How the draft of a value arises**, by the shape of the value. -/
inductive Arises (s : PlanSet) : Shape → Bool → Value → Draft → Prop where
  | null {shape : Shape} {nullable : Bool} : nullable = true → Arises s shape nullable .null .null
  | primitive {kind : Primitive} {nullable : Bool} {v : Value} {d : Draft} : v ≠ .null →
    ofPrimitive? kind v = some d → Arises s (.primitive kind) nullable v d
  | enumeration {h : Handle} {nullable : Bool} {e : EnumValue} {w : String} :
    Encode.enumWord s h e = .ok w → Arises s (.enumeration h) nullable (.enum e) (text w)
  | object {h t : Handle} {nullable : Bool} {fields : List (String × Value)} {d : Draft} :
    ofObject? s (some h) t fields = some d → Arises s (.object h) nullable (.object t fields) d
  | sequence {element : Shape} {m nullable : Bool} {layout : Layout} {vs : List Value}
    {ds : List Draft} : ofItems? s element m vs = some ds →
    Arises s (.sequence element m layout) nullable (.list vs) (.sequence layout ds)
  | mapping {element : Shape} {m nullable : Bool} {es : List (String × Value)}
    {ds : List (String × Draft)} : ofEntries? s element m es = some ds →
    Arises s (.mapping element m) nullable (.map es) (.mapping ds)

/-- **A value has the drafts that arise from it.** -/
theorem ofValue?_eq_some_iff {s : PlanSet} {shape : Shape} {nullable : Bool} {v : Value} {d : Draft} :
    ofValue? s shape nullable v = some d ↔ Arises s shape nullable v d := by
  constructor
  · intro h
    unfold ofValue? at h
    split at h
    · split at h
      · rename_i hn
        obtain rfl := Option.some.inj h
        exact .null hn
      · cases h
    · rename_i hv
      exact .primitive (fun he => hv he) h
    · obtain ⟨w, hw, rfl⟩ := Option.map_eq_some_iff.1 h
      exact .enumeration (Outcome.toOption_eq_some_iff.1 hw)
    · exact .object h
    · obtain ⟨ds, hds, rfl⟩ := Option.map_eq_some_iff.1 h
      exact .sequence hds
    · obtain ⟨ds, hds, rfl⟩ := Option.map_eq_some_iff.1 h
      exact .mapping hds
    · cases h
  · rintro (hn | ⟨hv, h⟩ | hw | h | hds | hds)
    · rw [ofValue?.eq_1, if_pos hn]
    · rw [ofValue?.eq_2 _ _ _ _ hv, h]
    · rw [ofValue?.eq_3, hw]
      rfl
    · rw [ofValue?.eq_4, h]
    · rw [ofValue?.eq_5, hds, Option.map_some]
    · rw [ofValue?.eq_6, hds, Option.map_some]

/-- The draft of an object is one of parts. -/
theorem exists_of_ofObject? {s : PlanSet} {declared : Option Handle} {t : Handle}
    {fields : List (String × Value)} {d : Draft} (h : ofObject? s declared t fields = some d) :
    ∃ parts, d = .object parts := by
  rw [ofObject?] at h
  simp only [Option.bind_eq_bind, Option.bind_eq_some_iff, Option.pure_def, Option.some.injEq] at h
  obtain ⟨plan, -, pss, -, rfl⟩ := h
  exact ⟨_, rfl⟩

/-- The draft of a value of a primitive type is a scalar. -/
theorem exists_of_ofPrimitive? {kind : Primitive} {v : Value} {d : Draft}
    (h : ofPrimitive? kind v = some d) :
    ∃ t ht, d = .scalar t ht ∧ Token.ofValue kind v "" = .ok t := by
  rw [ofPrimitive?] at h
  split at h
  · rename_i t ht
    exact ⟨t, _, (Option.some.inj h).symm, ht⟩
  · cases h

end Draft

/-! ## Values inside of values -/

/-- The values that a step may write: those of fields, and the entries of maps in them. -/
def Within (fields : List (String × Value)) (v : Value) : Prop :=
  (∃ k, (k, v) ∈ fields) ∨ ∃ k k' es, (k, .map es) ∈ fields ∧ (k', v) ∈ es

theorem Value.sizeOf_lt_of_mem_list {vs : List Value} {v : Value} (h : v ∈ vs) :
    sizeOf v < sizeOf (Value.list vs) := by
  have := List.sizeOf_lt_of_mem h
  simp only [Value.list.sizeOf_spec]
  omega

theorem Value.sizeOf_lt_of_mem_map {es : List (String × Value)} {k : String} {v : Value}
    (h : (k, v) ∈ es) : sizeOf v < sizeOf (Value.map es) := by
  have := List.sizeOf_lt_of_mem h
  simp only [Value.map.sizeOf_spec, Prod.mk.sizeOf_spec] at this ⊢
  omega

theorem Value.sizeOf_lt_of_mem_fields {t : Handle} {fields : List (String × Value)} {k : String}
    {v : Value} (h : (k, v) ∈ fields) : sizeOf v < sizeOf (Value.object t fields) := by
  have := List.sizeOf_lt_of_mem h
  simp only [Value.object.sizeOf_spec, Prod.mk.sizeOf_spec] at this ⊢
  omega

theorem Value.sizeOf_lt_of_within {t : Handle} {fields : List (String × Value)} {v : Value}
    (h : Within fields v) : sizeOf v < sizeOf (Value.object t fields) := by
  rcases h with ⟨k, hv⟩ | ⟨k, k', es, hes, hv⟩
  · exact sizeOf_lt_of_mem_fields hv
  · exact Nat.lt_trans (sizeOf_lt_of_mem_map hv) (sizeOf_lt_of_mem_fields hes)

/-! ## Encoding is writing the draft -/

section Renders

variable {σ : Type} {m m' : Writing σ Unit} {a b : Option (Writing σ Unit)}

/-- Writing that fails in every state. -/
def Writing.Fails (m : Writing σ Unit) : Prop := ∀ w, ∃ e w', m w = .error e w'

/-- Writing that is `a`, or that fails where there is none. -/
def Writing.Renders (m : Writing σ Unit) (a : Option (Writing σ Unit)) : Prop :=
  match a with
  | some p => m = p
  | none => m.Fails

theorem Writing.fails_throw (e : EncodeError) : (throw e : Writing σ Unit).Fails :=
  fun w => ⟨e, w, rfl⟩

theorem Writing.Fails.bind_left (h : m.Fails) : Fails (do m; m') := by
  intro w
  obtain ⟨e, w', hw⟩ := h w
  exact ⟨e, w', by simp only [bind, EStateM.bind, hw]⟩

theorem Writing.Fails.bind_right (h : m'.Fails) : Fails (do m; m') := by
  intro w
  rcases hw : m w with ⟨_, w'⟩ | ⟨e, w'⟩
  · obtain ⟨e, w'', hw'⟩ := h w'
    exact ⟨e, w'', by rw [Outcome.run_bind hw, hw']⟩
  · exact ⟨e, w', by simp only [bind, EStateM.bind, hw]⟩

/-- Two steps of writing render one after the other. -/
theorem Writing.Renders.bind (h : m.Renders a) (h' : m'.Renders b) :
    Renders (do m; m') (a.bind fun p => b.map fun q => do p; q) := by
  rcases a with _ | p
  · exact Fails.bind_left h
  · rcases b with _ | q
    · exact Fails.bind_right h'
    · rw [show m = p from h, show m' = q from h']
      rfl

/-- What is between two steps that always render renders. -/
theorem Writing.Renders.between (h : m.Renders a) (before after : Writing σ Unit) :
    Renders (do before; m; after) (a.map fun p => do before; p; after) := by
  rcases a with _ | p
  · exact Fails.bind_right (Fails.bind_left h)
  · rw [show m = p from h]
    rfl

end Renders

namespace Encode

open Writing Draft

variable {σ : Type} [Sink σ] {s : PlanSet} {shape : Shape} {allowed : Bool}

theorem items_renders {vs : List Value}
    (h : ∀ v ∈ vs, ∀ pos, (value (σ := σ) s pos shape allowed v).Renders
      ((ofValue? s shape allowed v).map (write pos))) :
    (items (σ := σ) s shape allowed vs).Renders ((ofItems? s shape allowed vs).map writeItems) := by
  induction vs with
  | nil => rw [items, ofItems?]; rfl
  | cons v vs ih =>
    obtain ⟨hv, hvs⟩ := List.forall_mem_cons.1 h
    have hboth := (hv .item).bind (ih hvs)
    rw [items, ofItems?]
    rcases hd : ofValue? s shape allowed v with _ | d <;>
      rcases hds : ofItems? s shape allowed vs with _ | ds <;> simpa [hd, hds, writeItems] using hboth

theorem entries_renders {es : List (String × Value)}
    (h : ∀ k v, (k, v) ∈ es → ∀ pos, (value (σ := σ) s pos shape allowed v).Renders
      ((ofValue? s shape allowed v).map (write pos))) :
    (entries (σ := σ) s shape allowed es).Renders
      ((ofEntries? s shape allowed es).map writeEntries) := by
  induction es with
  | nil => rw [entries, ofEntries?]; rfl
  | cons e es ih =>
    obtain ⟨k, v⟩ := e
    obtain ⟨hv, hes⟩ := Table.forall_mem_cons.1 h
    have hboth := (hv (.entry k)).bind (ih hes)
    rw [entries, ofEntries?]
    rcases hd : ofValue? s shape allowed v with _ | d <;>
      rcases hds : ofEntries? s shape allowed es with _ | ds <;>
        simpa [hd, hds, writeEntries] using hboth

theorem extras_renders {plan : TypePlan} {es : List (String × Value)}
    (h : ∀ k v, (k, v) ∈ es → ∀ pos, (value (σ := σ) s pos shape allowed v).Renders
      ((ofValue? s shape allowed v).map (write pos))) :
    (extras (σ := σ) s plan shape allowed es).Renders
      ((ofExtras? s plan shape allowed es).map writeParts) := by
  induction es with
  | nil => rw [extras, ofExtras?]; rfl
  | cons e es ih =>
    obtain ⟨k, v⟩ := e
    obtain ⟨hv, hes⟩ := Table.forall_mem_cons.1 h
    rw [extras, ofExtras?]
    by_cases hk : Table.contains plan.read.actions k = true
    · rw [if_pos hk, if_pos hk]
      exact ih hes
    · have hboth := (hv (.field k .element)).bind (ih hes)
      rw [if_neg hk, if_neg hk]
      rcases hd : ofValue? s shape allowed v with _ | d <;>
        rcases hds : ofExtras? s plan shape allowed es with _ | ds <;>
          simpa [hd, hds, writeParts] using hboth

/-! ### Steps by what they emit -/

section Step

variable {plan : TypePlan} {fields : List (String × Value)} {st : Step}

theorem step_discriminator_none (he : st.emission = .discriminator none) :
    step (σ := σ) s plan fields st = throw (.abstractInstance plan.name) := by
  rw [step, he]

theorem step_discriminator_some {w : String} (he : st.emission = .discriminator (some w)) :
    step (σ := σ) s plan fields st = Sink.scalar (.field st.wire st.placement) (.text w) := by
  rw [step, he]

theorem step_entries {n : Bool} (he : st.emission = .entries shape n) :
    step (σ := σ) s plan fields st = match Table.find? fields st.property with
      | none => pure ()
      | some .null => pure ()
      | some (.map captured) => extras s plan shape n captured
      | some v => throw (.typeMismatch st.property "map" v.kindName) := by
  rw [step, he]
  dsimp only
  split <;> rename_i hf <;> simp [hf]

theorem step_value (he : st.emission = .value shape) :
    step (σ := σ) s plan fields st = match Table.find? fields st.property with
      | none => if st.required then throw (.missingRequired plan.name st.property) else pure ()
      | some v => value s (.field st.wire st.placement) shape st.nullable v := by
  rw [step, he]
  dsimp only
  split <;> rename_i hf <;> simp [hf]

theorem ofStep?_discriminator {word : Option String} (he : st.emission = .discriminator word) :
    ofStep? s plan fields st = word.map fun w => [(st.wire, st.placement, text w)] := by
  rw [ofStep?, he]
  cases word <;> rfl

theorem ofStep?_entries {n : Bool} (he : st.emission = .entries shape n) :
    ofStep? s plan fields st = match Table.find? fields st.property with
      | none => some []
      | some .null => some []
      | some (.map captured) => ofExtras? s plan shape n captured
      | some _ => none := by
  rw [ofStep?, he]
  dsimp only
  split <;> rename_i hf <;> simp [hf]

theorem ofStep?_value (he : st.emission = .value shape) :
    ofStep? s plan fields st = match Table.find? fields st.property with
      | none => if st.required then none else some []
      | some v => (ofValue? s shape st.nullable v).map fun d => [(st.wire, st.placement, d)] := by
  rw [ofStep?, he]
  dsimp only
  split <;> rename_i hf <;> simp [hf]

end Step

theorem step_renders {plan : TypePlan} {fields : List (String × Value)}
    (h : ∀ v, Within fields v → ∀ shape allowed pos, (value (σ := σ) s pos shape allowed v).Renders
      ((ofValue? s shape allowed v).map (write pos))) (st : Step) :
    (step (σ := σ) s plan fields st).Renders ((ofStep? s plan fields st).map writeParts) := by
  rcases he : st.emission with shape | word | ⟨shape, n⟩
  · rw [step_value he, ofStep?_value he]
    rcases hf : Table.find? fields st.property with _ | v
    · dsimp only
      split
      · exact fails_throw _
      · rfl
    · have hv := h v (.inl ⟨_, Table.mem_of_find? hf⟩) shape st.nullable (.field st.wire st.placement)
      rcases hd : ofValue? s shape st.nullable v with _ | d <;> simpa [hd, writeParts] using hv
  · rcases word with _ | w
    · rw [step_discriminator_none he, ofStep?_discriminator he]
      exact fails_throw _
    · rw [step_discriminator_some he, ofStep?_discriminator he]
      simp [Renders, writeParts, write, text]
  · rw [step_entries he, ofStep?_entries he]
    rcases hf : Table.find? fields st.property with _ | v
    · rfl
    · cases v
      case null => rfl
      case map captured =>
        exact extras_renders fun k v hv =>
          h v (.inr ⟨_, k, captured, Table.mem_of_find? hf, hv⟩) shape n
      all_goals exact fails_throw _

theorem steps_renders {plan : TypePlan} {fields : List (String × Value)} {steps : List Step}
    (h : ∀ st ∈ steps, (step (σ := σ) s plan fields st).Renders
      ((ofStep? s plan fields st).map writeParts)) :
    (steps.forM fun st => step (σ := σ) s plan fields st).Renders
      ((steps.mapM fun st => ofStep? s plan fields st).map fun parts => writeParts parts.flatten) := by
  induction steps with
  | nil => rfl
  | cons st steps ih =>
    obtain ⟨hst, hsteps⟩ := List.forall_mem_cons.1 h
    have hboth := hst.bind (ih hsteps)
    rw [List.forM, List.mapM_cons]
    rcases hd : ofStep? s plan fields st with _ | d <;>
      rcases hds : steps.mapM (fun st => ofStep? s plan fields st) with _ | ds <;>
        simpa [hd, hds, writeParts_append] using hboth

/-- The plan for writing an object does not depend on where it is written. -/
theorem toOption_instancePlan (pos : Position) (declared : Option Handle) (t : Handle) :
    (instancePlan s pos declared t).toOption = plan? s declared t := by
  rw [plan?, instancePlan, instancePlan]
  rcases typePlan s t with e | p
  · rfl
  · rcases declared with _ | d
    · rfl
    · by_cases hd : s.isSubtype t d = true
      · simp only [hd, if_true]
      · simp only [hd]
        rcases typePlan s d with e | q <;> rfl

theorem object_renders {t : Handle} {fields : List (String × Value)}
    (h : ∀ v, Within fields v → ∀ shape allowed pos, (value (σ := σ) s pos shape allowed v).Renders
      ((ofValue? s shape allowed v).map (write pos))) (pos : Position) (declared : Option Handle) :
    (object (σ := σ) s pos declared t fields).Renders
      ((ofObject? s declared t fields).map (write pos)) := by
  have hplan := toOption_instancePlan (s := s) pos declared t
  rw [object, ofObject?, ← hplan]
  rcases instancePlan s pos declared t with e | plan
  · exact fun w => ⟨e, w, rfl⟩
  · have hlift : ∀ m : TypePlan → Writing σ Unit,
        (do let plan ← Writing.lift (.ok plan); m plan) = m plan := fun _ => rfl
    rw [hlift]
    have hsteps := (steps_renders fun st (_ : st ∈ plan.write.steps) =>
      @step_renders σ _ s plan fields h st).between (Sink.beginObject pos) Sink.endObject
    rcases hps : plan.write.steps.mapM (fun st => ofStep? s plan fields st) with _ | ps
    · rw [hps] at hsteps
      simpa [Except.toOption, hps] using hsteps
    · rw [hps] at hsteps
      simpa [Except.toOption, hps, write] using hsteps

/-! ### Values -/

theorem value_renders_null (pos : Position) :
    (value (σ := σ) s pos shape allowed .null).Renders
      ((ofValue? s shape allowed .null).map (write pos)) := by
  rw [value.eq_1, ofValue?.eq_1]
  cases allowed with
  | true => simp [Renders, write]
  | false => exact fails_throw _

theorem value_renders_primitive {kind : Primitive} {v : Value} (hv : v ≠ .null) (pos : Position) :
    (value (σ := σ) s pos (.primitive kind) allowed v).Renders
      ((ofValue? s (.primitive kind) allowed v).map (write pos)) := by
  have hfield := Token.toOption_ofValue kind v pos.label
  rw [value.eq_2 _ _ _ _ _ hv, ofValue?.eq_2 _ _ _ _ hv, ofPrimitive?]
  rcases ht : Token.ofValue kind v pos.label with e | t <;> rw [ht] at hfield
  · split
    · rename_i ht'
      simp [ht', Except.toOption] at hfield
    · exact fun w => ⟨e, w, rfl⟩
  · split
    · rename_i t' ht'
      obtain rfl : t = t' := by simpa [ht', Except.toOption] using hfield
      simp only [Option.map_some, write]
      rfl
    · rename_i ht'
      simp [ht', Except.toOption] at hfield

theorem value_renders_enumeration {h : Handle} {e : EnumValue} (pos : Position) :
    (value (σ := σ) s pos (.enumeration h) allowed (.enum e)).Renders
      ((ofValue? s (.enumeration h) allowed (.enum e)).map (write pos)) := by
  rw [value.eq_3, ofValue?.eq_3]
  rcases enumWord s h e with e | w
  · exact fun w => ⟨e, w, rfl⟩
  · simp only [Except.toOption, Option.map_some, text, write]
    rfl

theorem value_renders_sequence {element : Shape} {n : Bool} {layout : Layout} {vs : List Value}
    (h : (items (σ := σ) s element n vs).Renders ((ofItems? s element n vs).map writeItems))
    (pos : Position) :
    (value (σ := σ) s pos (.sequence element n layout) allowed (.list vs)).Renders
      ((ofValue? s (.sequence element n layout) allowed (.list vs)).map (write pos)) := by
  have hall := h.between (Sink.beginContainer pos (containerAt pos layout)) Sink.endContainer
  rw [value.eq_5, ofValue?.eq_5]
  rcases hds : ofItems? s element n vs with _ | ds <;> simpa [hds, write] using hall

theorem value_renders_mapping {element : Shape} {n : Bool} {es : List (String × Value)}
    (h : (entries (σ := σ) s element n es).Renders ((ofEntries? s element n es).map writeEntries))
    (pos : Position) :
    (value (σ := σ) s pos (.mapping element n) allowed (.map es)).Renders
      ((ofValue? s (.mapping element n) allowed (.map es)).map (write pos)) := by
  have hall := h.between (Sink.beginContainer pos .mapping) Sink.endContainer
  rw [value.eq_6, ofValue?.eq_6]
  rcases hds : ofEntries? s element n es with _ | ds <;> simpa [hds, write] using hall

/-- **Encoding a value is writing its draft.** -/
theorem value_renders (v : Value) (shape : Shape) (allowed : Bool) (pos : Position) :
    (value (σ := σ) s pos shape allowed v).Renders
      ((ofValue? s shape allowed v).map (write pos)) := by
  induction hn : sizeOf v using Nat.strongRecOn generalizing v shape allowed pos with
  | ind n ih =>
    subst hn
    by_cases hv : v = .null
    · subst hv
      exact value_renders_null pos
    · have hinside : ∀ w, sizeOf w < sizeOf v → ∀ shape allowed pos,
          (value (σ := σ) s pos shape allowed w).Renders
            ((ofValue? s shape allowed w).map (write pos)) := fun w hw shape allowed pos =>
        ih _ hw w shape allowed pos rfl
      cases shape with
      | primitive kind => exact value_renders_primitive hv pos
      | enumeration h =>
        cases v
        case enum e => exact value_renders_enumeration pos
        case null => exact value_renders_null pos
        all_goals
          unfold value ofValue?
          exact fails_throw _
      | object h =>
        cases v
        case object t fields =>
          rw [value.eq_4, ofValue?.eq_4]
          exact object_renders (fun w hw => hinside w (Value.sizeOf_lt_of_within hw)) pos (some h)
        case null => exact value_renders_null pos
        all_goals
          unfold value ofValue?
          exact fails_throw _
      | sequence element n layout =>
        cases v
        case list vs =>
          exact value_renders_sequence
            (items_renders fun w hw pos => hinside w (Value.sizeOf_lt_of_mem_list hw) _ _ pos) pos
        case null => exact value_renders_null pos
        all_goals
          unfold value ofValue?
          exact fails_throw _
      | mapping element n =>
        cases v
        case map es =>
          exact value_renders_mapping (entries_renders fun k w hw pos =>
            hinside w (Value.sizeOf_lt_of_mem_map hw) _ _ pos) pos
        case null => exact value_renders_null pos
        all_goals
          unfold value ofValue?
          exact fails_throw _

/-- **Encoding an object** as the root of a document is writing its draft. -/
theorem root_renders {i : Instance} {plan : TypePlan} (hplan : s.type? i.type = some plan) :
    (root (σ := σ) s i).Renders
      ((ofInstance? s i).map (write (.root plan.write.rootName plan.write.rootNamespace))) := by
  have htype : typePlan s i.type = .ok plan := by
    rw [typePlan, hplan]
  rw [root, htype]
  exact object_renders (fun v _ shape allowed pos => value_renders v shape allowed pos) _ none

/-- An object of a type without plan is not written. -/
theorem root_fails {i : Instance} (hplan : s.type? i.type = none) :
    (root (σ := σ) s i).Fails := by
  rw [root, typePlan, hplan]
  exact fun w => ⟨_, w, rfl⟩

theorem ofInstance?_eq_none {i : Instance} (hplan : s.type? i.type = none) :
    ofInstance? s i = none := by
  rw [ofInstance?, ofObject?, plan?, instancePlan, typePlan, hplan]
  rfl

end Encode

end Marshal
