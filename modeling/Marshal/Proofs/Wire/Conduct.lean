import Marshal.Proofs.Plan.Order
import Marshal.Proofs.Wire.Events
import Marshal.Proofs.Wire.Objects

/-!
# The encoder keeps to the protocol

Along plans that are closed and in order the encoder makes no event out of turn, whatever it is given
to write, and the errors of its own are not about the sink. In particular it misses a plan, or refuses
a type, only for an object that stands in the value (`Encode.root_conducts`).
-/

namespace Marshal

/-- An object of the type stands in a value, at any depth. -/
inductive Value.Mentions (h : Handle) : Value → Prop where
  | self {fields : List (String × Value)} : Mentions h (.object h fields)
  | field {t : Handle} {fields : List (String × Value)} {k : String} {v : Value} :
    (k, v) ∈ fields → Mentions h v → Mentions h (.object t fields)
  | item {vs : List Value} {v : Value} : v ∈ vs → Mentions h v → Mentions h (.list vs)
  | entry {es : List (String × Value)} {k : String} {v : Value} :
    (k, v) ∈ es → Mentions h v → Mentions h (.map es)

theorem Value.Mentions.of_within {h t : Handle} {fields : List (String × Value)} {v : Value}
    (hw : Within fields v) (hv : v.Mentions h) : (Value.object t fields).Mentions h := by
  rcases hw with ⟨k, hk⟩ | ⟨k, k', es, hes, hk⟩
  · exact .field hk hv
  · exact .field hes (.entry hk hv)

/-- **Plans that the encoder can follow**: closed, and with their steps in order. -/
def PlanSet.Followable (s : PlanSet) : Prop :=
  ∀ h p, s.type? h = some p → s.CoversPlan p ∧ p.write.Ordered

theorem Catalogue.followable_of_planAll {c : Catalogue} (hc : c.Reachable) {f : Format}
    {cancelled : Bool} {s : PlanSet} (hs : c.planAll f cancelled = .ok s) : s.Followable :=
  fun _ _ hp => ⟨(planAll_spec hc hs).coversPlan hp, (planAll_spec hc hs).ordered hp⟩

/-- A value of the shape can stand at a position. -/
def Shape.FitsAt (shape : Shape) : Position → Prop
  | .field _ placement => shape.FitsField placement
  | _ => shape.isPlain = true

theorem Shape.FitsAt.structured {shape : Shape} {pos : Position} (h : shape.FitsAt pos)
    (hs : shape.isScalar = false) : pos.Structured := by
  rintro name rfl
  exact absurd (show shape.isScalar = true from h) (by simp [hs])

theorem Shape.FitsAt.hasPlainParts {shape : Shape} {pos : Position} (h : shape.FitsAt pos)
    (hs : shape.isScalar = false) : shape.hasPlainParts = true := by
  rcases pos with _ | ⟨name, _ | _⟩ | _ | _
  · exact hasPlainParts_of_isPlain h
  · exact h
  · exact absurd rfl (h.structured hs name)
  · exact hasPlainParts_of_isPlain h
  · exact hasPlainParts_of_isPlain h

/-- Only in a field is a sequence laid out as siblings. -/
theorem Shape.FitsAt.of_flattened {element : Shape} {n : Bool} {pos : Position}
    (h : (Shape.sequence element n .flattened).FitsAt pos) :
    ∃ name, pos = .field name .element := by
  rcases pos with _ | ⟨name, _ | _⟩ | _ | _
  · simp [FitsAt, isPlain] at h
  · exact ⟨name, rfl⟩
  · exact absurd rfl (h.structured rfl name)
  · simp [FitsAt, isPlain] at h
  · simp [FitsAt, isPlain] at h

namespace Encode

variable {s : PlanSet} {t : Handle} {fields : List (String × Value)} {plan : TypePlan}
  {shape : Shape} {allowed : Bool} {Own : EncodeError → Prop}

/-! ## Errors of the encoder -/

/-- Along the plan no object is written: its type is abstract, or has no word for its hierarchy. -/
def Refuses (plan : TypePlan) : Prop :=
  plan.isAbstract = true ∨ ∃ st ∈ plan.write.steps, st.emission = .discriminator none

/-- The errors that the encoder has of its own when it writes a value. -/
def OwnError (s : PlanSet) (v : Value) : EncodeError → Prop
  | .missingPlan n => ∃ h, h.index = n ∧ s.type? h = none ∧ v.Mentions h
  | .abstractInstance name => ∃ h p, s.type? h = some p ∧ p.name = name ∧ Refuses p ∧ v.Mentions h
  | .sinkState _ | .attributeAfterContent _ | .invalidName _ _ | .formatMismatch _ _ => False
  | _ => True

theorem OwnError.of_mentions {v w : Value} {e : EncodeError} (h : OwnError s v e)
    (hm : ∀ k, v.Mentions k → w.Mentions k) : OwnError s w e := by
  cases e with
  | missingPlan n =>
    obtain ⟨k, hk, hnone, hv⟩ := h
    exact ⟨k, hk, hnone, hm k hv⟩
  | abstractInstance name =>
    obtain ⟨k, p, hp, hname, hr, hv⟩ := h
    exact ⟨k, p, hp, hname, hr, hm k hv⟩
  | _ => exact h

theorem ownError_of_ofValue {kind : Primitive} {v w : Value} {field : String} {e : EncodeError}
    (h : Token.ofValue kind v field = .error e) : OwnError s w e := by
  unfold Token.ofValue at h
  split at h
  all_goals first
    | (cases h; done)
    | (cases h; trivial)
    | (split at h <;> cases h; trivial)

theorem ownError_of_enumWord {h : Handle} {p : EnumPlan} (hp : s.enum? h = some p) {w : EnumValue}
    {v : Value} {e : EncodeError} (he : enumWord s h w = .error e) : OwnError s v e := by
  rw [enumWord, hp] at he
  dsimp only at he
  split at he
  · split at he <;> cases he
    trivial
  · split at he <;> cases he
    trivial

/-- The plan for writing an object, or why there is none: its type has no plan, or is not right. -/
theorem instancePlan_cases (fields : List (String × Value)) (pos : Position) {declared : Option Handle}
    (hd : ∀ d, declared = some d → ∃ p, s.type? d = some p) :
    (∃ p, instancePlan s pos declared t = .ok p ∧ s.type? t = some p) ∨
      ∃ e, instancePlan s pos declared t = .error e ∧ OwnError s (.object t fields) e := by
  rcases hp : s.type? t with _ | p
  · refine .inr ⟨.missingPlan t.index, ?_, t, rfl, hp, .self⟩
    rw [instancePlan, typePlan, hp]
    rfl
  · by_cases hsub : ∀ d, declared = some d → s.isSubtype t d = true
    · by_cases ha : p.isAbstract = true
      · exact .inr ⟨_, instancePlan_of_isAbstract hp ha hsub pos, t, p, hp, rfl, .inl ha, .self⟩
      · exact .inl ⟨p, instancePlan_eq_ok hp (Bool.eq_false_iff.2 ha) hsub pos, rfl⟩
    · push Not at hsub
      obtain ⟨d, rfl, hsub⟩ := hsub
      obtain ⟨q, hq⟩ := hd d rfl
      refine .inr ⟨.typeMismatch pos.label q.name p.name, ?_, trivial⟩
      have ht : typePlan s t = .ok p := by rw [typePlan, hp]
      have hd : typePlan s d = .ok q := by rw [typePlan, hq]
      simp only [instancePlan, ht, hd, hsub]
      rfl

/-! ## The walk -/

/-- A value is written in turn wherever its shape fits. -/
def Follows (s : PlanSet) (v : Value) : Prop :=
  ∀ shape allowed pos st st', s.Covers shape → shape.FitsAt pos → st.Admits pos st' →
    Conducts (fun σ _ => value (σ := σ) s pos shape allowed v) st (· = st') (OwnError s v)

theorem items_conducts {vs ws : List Value} (hw : ∀ v ∈ ws, v ∈ vs) (h : ∀ v ∈ vs, Follows s v)
    (hc : s.Covers shape) (hp : shape.isPlain = true) (levels : List Level) :
    Conducts (fun σ _ => items (σ := σ) s shape allowed ws) (.within (.sequence :: levels))
      (· = .within (.sequence :: levels)) (OwnError s (.list vs)) := by
  induction ws with
  | nil =>
    simp only [items]
    exact .pure rfl
  | cons v ws ih =>
    obtain ⟨hv, hws⟩ := List.forall_mem_cons.1 hw
    simp only [items]
    have hitem := (h v hv shape allowed .item (.within (.sequence :: levels)) _ hc hp .item).mono
      (fun _ => id) fun e he => he.of_mentions (w := .list vs) fun k hk => .item hv hk
    refine .bind hitem ?_
    rintro st rfl
    exact ih hws

theorem entries_conducts {es fs : List (String × Value)} (hf : ∀ e ∈ fs, e ∈ es)
    (h : ∀ e ∈ es, Follows s e.2) (hc : s.Covers shape) (hp : shape.isPlain = true)
    (levels : List Level) :
    Conducts (fun σ _ => entries (σ := σ) s shape allowed fs) (.within (.mapping :: levels))
      (· = .within (.mapping :: levels)) (OwnError s (.map es)) := by
  induction fs with
  | nil =>
    simp only [entries]
    exact .pure rfl
  | cons e fs ih =>
    obtain ⟨key, v⟩ := e
    obtain ⟨hv, hfs⟩ := List.forall_mem_cons.1 hf
    simp only [entries]
    have hentry := (h _ hv shape allowed (.entry key) (.within (.mapping :: levels)) _ hc hp
      .entry).mono (fun _ => id) fun e he => he.of_mentions (w := .map es) fun k hk => .entry hv hk
    refine .bind hentry ?_
    rintro st rfl
    exact ih hfs

/-- A stage in which fields of a placement may be written, and which writing them does not leave. -/
def Takes (I : Stage → Prop) (placement : Placement) : Prop :=
  ∀ st, I st → ∀ name, ∃ st', st.Admits (.field name placement) st' ∧ I st'

theorem extras_conducts {I : Stage → Prop} (hI : Takes I .element) {es : List (String × Value)}
    (h : ∀ e ∈ es, Follows s e.2 ∧ ∀ err, OwnError s e.2 err → Own err) (hc : s.Covers shape)
    (hp : shape.hasPlainParts = true) {st : Stage} (hst : I st) :
    Conducts (fun σ _ => extras (σ := σ) s plan shape allowed es) st I Own := by
  induction es generalizing st with
  | nil =>
    simp only [extras]
    exact .pure hst
  | cons e es ih =>
    obtain ⟨key, v⟩ := e
    obtain ⟨⟨hv, hown⟩, hes⟩ := List.forall_mem_cons.1 h
    simp only [extras]
    by_cases hk : Table.contains plan.read.actions key = true
    · simp only [hk, if_true]
      exact ih hes hst
    · simp only [hk]
      obtain ⟨st', hadm, hst'⟩ := hI st hst key
      have hextra := (hv shape allowed (.field key .element) st st' hc hp hadm).mono
        (fun _ => (· ▸ hst')) hown
      exact .bind hextra fun st'' hst'' => ih hes hst''

theorem step_conducts (hplan : s.type? t = some plan) {I : Stage → Prop} {st : Step}
    (hst : st ∈ plan.write.steps) (hI : Takes I st.placement) (h : ∀ v, Within fields v → Follows s v)
    (hc : s.CoversEmission st.emission) (hf : st.emission.FitsField st.placement) {stage : Stage}
    (hstage : I stage) : Conducts (fun σ _ => step (σ := σ) s plan fields st) stage I
      (OwnError s (.object t fields)) := by
  obtain ⟨stage', hadm, hstage'⟩ := hI stage hstage st.wire
  rcases he : st.emission with shape | word | ⟨shape, n⟩ <;> rw [he] at hc hf
  · refine .congr ?_ fun σ _ => step_value he
    rcases hv : Table.find? fields st.property with _ | v
    · by_cases hr : st.required = true
      · exact .congr (.throw (e := .missingRequired _ _) trivial) fun σ _ => if_pos hr
      · exact .congr (.pure hstage) fun σ _ => if_neg hr
    · have hw : Within fields v := .inl ⟨_, Table.mem_of_find? hv⟩
      have hvalue := h v hw shape st.nullable (.field st.wire st.placement) stage stage' hc hf hadm
      exact hvalue.mono (fun _ => (· ▸ hstage')) fun e he => he.of_mentions fun k hk => hk.of_within hw
  · rcases word with _ | w
    · have hown : OwnError s (.object t fields) (.abstractInstance plan.name) :=
        ⟨t, plan, hplan, rfl, .inr ⟨st, hst, he⟩, .self⟩
      exact .congr (.throw hown) fun σ _ => step_discriminator_none he
    · exact .congr (.event (e := .scalar _ _) (.scalar hadm rfl) hstage') fun σ _ =>
        step_discriminator_some he
  · refine .congr ?_ fun σ _ => step_entries he
    rw [hf.1] at hI
    rcases hv : Table.find? fields st.property with _ | v
    · exact .pure hstage
    · cases v
      case null => exact .pure hstage
      case map captured =>
        refine extras_conducts hI (fun e he => ?_) hc hf.2 hstage
        have hw : Within fields e.2 := .inr ⟨_, e.1, captured, Table.mem_of_find? hv, he⟩
        exact ⟨h _ hw, fun err herr => herr.of_mentions fun k hk => hk.of_within hw⟩
      all_goals exact .throw (e := .typeMismatch _ _ _) trivial

theorem steps_conducts {I : Stage → Prop} {steps : List Step}
    (h : ∀ st ∈ steps, ∀ stage, I stage →
      Conducts (fun σ _ => step (σ := σ) s plan fields st) stage I Own)
    {stage : Stage} (hstage : I stage) :
    Conducts (fun σ _ => steps.forM fun st => step (σ := σ) s plan fields st) stage I Own := by
  induction steps generalizing stage with
  | nil => exact .pure hstage
  | cons st steps ih =>
    obtain ⟨hst, hsteps⟩ := List.forall_mem_cons.1 h
    exact .bind (hst stage hstage) fun stage' hstage' => ih hsteps hstage'

/-- **An object is written in turn**: its attributes while it is bare, and then the rest. -/
theorem object_conducts (hs : s.Followable) (h : ∀ v, Within fields v → Follows s v)
    {pos : Position} (hpos : pos.Structured) {st st' : Stage} (hadm : st.Admits pos st')
    {declared : Option Handle} (hd : ∀ d, declared = some d → ∃ p, s.type? d = some p) :
    Conducts (fun σ _ => object (σ := σ) s pos declared t fields) st (· = st')
      (OwnError s (.object t fields)) := by
  obtain ⟨levels, rfl⟩ := hadm.exists_within
  simp only [object]
  rcases instancePlan_cases fields pos hd with ⟨p, hp, hplan⟩ | ⟨e, he, hown⟩
  · obtain ⟨hcov, hord⟩ := hs t p hplan
    obtain ⟨early, late, hsteps, hearly, hlate⟩ := hord.attributesFirst
    have hmem : ∀ x, x ∈ p.write.steps ↔ x ∈ early ∨ x ∈ late := by simp [hsteps]
    -- while attributes are written the object stays bare, and afterwards it may be or not
    let Bare (st : Stage) : Prop := st = .within (.object true :: levels)
    let Open (st : Stage) : Prop := ∃ bare, st = .within (.object bare :: levels)
    have hbare : Takes Bare .attribute := by
      rintro _ rfl name
      exact ⟨_, .held, rfl⟩
    have hopen : Takes Open .element := by
      rintro _ ⟨bare, rfl⟩ name
      exact ⟨_, .field, _, rfl⟩
    rw [hp]
    refine .lift_bind (by simp) ?_
    rintro _ ⟨⟩
    refine .bind (.event (e := .beginObject pos) (.beginObject hadm hpos) rfl) ?_
    rintro _ rfl
    have hattributes : ∀ stage, Bare stage → Conducts (fun σ _ => early.forM fun x =>
        step (σ := σ) s p fields x) stage Bare (OwnError s (.object t fields)) := fun _ =>
      steps_conducts fun x hx stage hstage =>
        have hx' := (hmem x).2 (.inl hx)
        step_conducts hplan hx' (hearly x hx ▸ hbare) h (hcov.steps x hx') (hord.fits x hx') hstage
    have hrest : ∀ stage, Open stage → Conducts (fun σ _ => late.forM fun x =>
        step (σ := σ) s p fields x) stage Open (OwnError s (.object t fields)) := fun _ =>
      steps_conducts fun x hx stage hstage =>
        have hx' := (hmem x).2 (.inr hx)
        step_conducts hplan hx' (hlate x hx ▸ hopen) h (hcov.steps x hx') (hord.fits x hx') hstage
    have hall := (hattributes _ rfl).bind fun _ hbare => hrest _ ⟨true, hbare⟩
    refine .bind (.congr hall fun σ _ => by rw [hsteps]; exact List.forM_append) ?_
    rintro _ ⟨bare, rfl⟩
    exact .event (e := .endObject) .endObject rfl
  · rw [he]
    exact .lift_bind (fun _ h => by cases h; exact hown) (by simp)

/-! ### Values -/

theorem follows_null : Follows s .null := by
  intro shape allowed pos st st' _ _ hadm
  simp only [value.eq_1]
  cases allowed with
  | true => exact .event (e := .null pos) (.null hadm) rfl
  | false => exact .throw (e := .unexpectedNull _) trivial

theorem primitive_conducts {v : Value} (hv : v ≠ .null) (kind : Primitive) {pos : Position}
    {st st' : Stage} (hadm : st.Admits pos st') :
    Conducts (fun σ _ => value (σ := σ) s pos (.primitive kind) allowed v) st (· = st')
      (OwnError s v) := by
  refine .congr (.lift_bind (fun e he => ownError_of_ofValue he) fun token htoken => ?_)
    fun σ _ => value.eq_2 s pos allowed v kind hv
  exact .event (e := .scalar pos token) (.scalar hadm (Token.isFinite_of_ofValue htoken)) rfl

theorem enumeration_conducts {h : Handle} (hc : s.Covers (.enumeration h)) (w : EnumValue)
    {pos : Position} {st st' : Stage} (hadm : st.Admits pos st') :
    Conducts (fun σ _ => value (σ := σ) s pos (.enumeration h) allowed (.enum w)) st (· = st')
      (OwnError s (.enum w)) := by
  obtain ⟨p, hp⟩ := hc
  simp only [value.eq_3]
  refine .lift_bind (fun e he => ownError_of_enumWord hp he) fun word _ => ?_
  exact .event (e := .scalar pos (.text word)) (.scalar hadm rfl) rfl

theorem sequence_conducts {element : Shape} {n : Bool} {layout : Layout} {vs : List Value}
    (h : ∀ v ∈ vs, Follows s v) (hc : s.Covers (.sequence element n layout)) {pos : Position}
    (hf : (Shape.sequence element n layout).FitsAt pos) {st st' : Stage}
    (hadm : st.Admits pos st') :
    Conducts (fun σ _ => value (σ := σ) s pos (.sequence element n layout) allowed (.list vs)) st
      (· = st') (OwnError s (.list vs)) := by
  obtain ⟨levels, rfl⟩ := hadm.exists_within
  have hpos := hf.structured rfl
  have hbegin : st.Step (.beginContainer pos (containerAt pos layout))
      (.within (.sequence :: levels)) := by
    cases layout with
    | wrapped item => exact .beginSequence hadm hpos nofun
    | flattened => exact .beginSequence hadm hpos fun _ => hf.of_flattened
  simp only [value.eq_5]
  refine .bind (.event hbegin rfl) ?_
  rintro _ rfl
  have hcovers : s.Covers element := hc
  have hplain : element.isPlain = true := hf.hasPlainParts rfl
  refine .bind (items_conducts (fun _ => id) h hcovers hplain levels) ?_
  rintro _ rfl
  exact .event (e := .endContainer) .endSequence rfl

theorem mapping_conducts {element : Shape} {n : Bool} {es : List (String × Value)}
    (h : ∀ e ∈ es, Follows s e.2) (hc : s.Covers (.mapping element n)) {pos : Position}
    (hf : (Shape.mapping element n).FitsAt pos) {st st' : Stage} (hadm : st.Admits pos st') :
    Conducts (fun σ _ => value (σ := σ) s pos (.mapping element n) allowed (.map es)) st
      (· = st') (OwnError s (.map es)) := by
  obtain ⟨levels, rfl⟩ := hadm.exists_within
  simp only [value.eq_6]
  refine .bind (.event (e := .beginContainer pos .mapping)
    (.beginMapping hadm (hf.structured rfl)) rfl) ?_
  rintro _ rfl
  have hcovers : s.Covers element := hc
  have hplain : element.isPlain = true := hf.hasPlainParts rfl
  refine .bind (entries_conducts (fun _ => id) h hcovers hplain levels) ?_
  rintro _ rfl
  exact .event (e := .endContainer) .endMapping rfl

/-- A value of another kind than its shape is refused before anything is written. -/
theorem mismatch_conducts {v : Value} {pos : Position} {st : Stage} {Post : Stage → Prop}
    (h : ∀ (σ : Type) [Sink σ], value (σ := σ) s pos shape allowed v =
      throw (.typeMismatch pos.label shape.name v.kindName)) :
    Conducts (fun σ _ => value (σ := σ) s pos shape allowed v) st Post (OwnError s v) :=
  .congr (.throw (e := .typeMismatch _ _ _) trivial) h

/-- **Every value is written in turn**, by induction on its size. -/
theorem follows (hs : s.Followable) (v : Value) : Follows s v := by
  induction hn : sizeOf v using Nat.strongRecOn generalizing v with
  | ind n ih =>
    subst hn
    by_cases hv : v = .null
    · subst hv
      exact follows_null
    · intro shape allowed pos st st' hc hf hadm
      have hinside : ∀ w, sizeOf w < sizeOf v → Follows s w := fun w hw => ih _ hw w rfl
      cases shape with
      | primitive kind => exact primitive_conducts hv kind hadm
      | enumeration h =>
        cases v
        case enum w => exact enumeration_conducts hc w hadm
        case null => exact absurd rfl hv
        all_goals exact mismatch_conducts fun σ _ => by unfold value; rfl
      | object h =>
        cases v
        case object t fields =>
          simp only [value.eq_4]
          exact object_conducts hs (fun w hw => hinside w (Value.sizeOf_lt_of_within hw))
            (hf.structured rfl) hadm fun d hd => Option.some.inj hd ▸ hc
        case null => exact absurd rfl hv
        all_goals exact mismatch_conducts fun σ _ => by unfold value; rfl
      | sequence element n layout =>
        cases v
        case list vs =>
          exact sequence_conducts (fun w hw => hinside w (Value.sizeOf_lt_of_mem_list hw)) hc hf hadm
        case null => exact absurd rfl hv
        all_goals exact mismatch_conducts fun σ _ => by unfold value; rfl
      | mapping element n =>
        cases v
        case map es =>
          exact mapping_conducts (fun e he => hinside e.2 (Value.sizeOf_lt_of_mem_map (k := e.1) he))
            hc hf hadm
        case null => exact absurd rfl hv
        all_goals exact mismatch_conducts fun σ _ => by unfold value; rfl

/-- **Encoding keeps to the protocol**, from a sink in which nothing is written to a whole document. -/
theorem root_conducts (hs : s.Followable) (i : Instance) :
    Conducts (fun σ _ => root (σ := σ) s i) .fresh (· = .within []) (OwnError s i.toValue) := by
  simp only [root]
  refine .lift_bind (fun e he => ?_) fun p _ => ?_
  · rw [typePlan] at he
    split at he <;> cases he
    exact ⟨i.type, rfl, ‹_›, .self⟩
  · refine object_conducts hs (fun v _ => follows hs v) ?_ .root ?_
    · simp [Position.Structured]
    · simp

end Encode

end Marshal
