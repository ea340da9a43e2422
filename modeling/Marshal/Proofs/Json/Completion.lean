import Marshal.Proofs.Json.RoundTrip
import Marshal.Proofs.Wire.Draft

/-!
# What the writer refuses of well typed values

Writing a well typed value that holds no doubles goes through, or it stops at an object of a type that
has no instances (`Document.write_json_of_admits`): one that is abstract, or one of a hierarchy that has
no word. `Completes` says this of a run from some states to others. It composes, so what remains is the
induction on the typing.
-/

namespace Marshal

namespace Json

namespace Writer

open Outcome

/-- Writing that leads from states of one kind to states of another, unless it refuses an object for
its type. -/
def Completes (I J : Writer → Prop) (m : Writing Writer Unit) : Prop :=
  ∀ w, I w → (∃ w', m w = .ok () w' ∧ J w') ∨ ∃ name w', m w = .error (.abstractInstance name) w'

/-- Any tree can be placed at the position. -/
def Fits (pos : Position) (I J : Writer → Prop) : Prop :=
  ∀ w, I w → ∀ j, ∃ w', emit (keyOf pos) j w = .ok () w' ∧ J w'

/-- The innermost structure is an object, and around it everything is as it was. -/
def InObject (own : Option String) (stack : List OpenTree) (root : Option Json) (w : Writer) : Prop :=
  ∃ members, w = ⟨.object members own :: stack, root⟩

/-- The innermost structure is an array, and around it everything is as it was. -/
def InArray (own : Option String) (stack : List OpenTree) (root : Option Json) (w : Writer) : Prop :=
  ∃ items, w = ⟨.array items own :: stack, root⟩

variable {I J K : Writer → Prop} {m m' : Writing Writer Unit} {own : Option String}
  {stack : List OpenTree} {root : Option Json} {pos : Position}

theorem fits_object {key : String} (h : keyOf pos = some key) :
    Fits pos (InObject own stack root) (InObject own stack root) := by
  rintro _ ⟨members, rfl⟩ j
  exact ⟨⟨.object (put members key j) own :: stack, root⟩, by rw [h]; rfl, _, rfl⟩

theorem fits_array : Fits pos (InArray own stack root) (InArray own stack root) := by
  rintro _ ⟨items, rfl⟩ j
  exact ⟨⟨.array (items ++ [j]) own :: stack, root⟩, rfl, _, rfl⟩

theorem completes_pure : Completes I I (pure ()) := fun w hw => .inl ⟨w, rfl, hw⟩

theorem completes_refuse (name : String) : Completes I J (throw (.abstractInstance name)) :=
  fun w _ => .inr ⟨name, w, rfl⟩

theorem completes_emit {j : Json} (h : Fits pos I J) : Completes I J (emit (keyOf pos) j) :=
  fun w hw => .inl (h w hw j)

theorem Completes.bind (h : Completes I J m) (h' : Completes J K m') : Completes I K (do m; m') := by
  intro w hw
  rcases h w hw with ⟨w', hm, hw'⟩ | ⟨name, w', hm⟩
  · have hrun : (do m; m' : Writing Writer Unit) w = m' w' := run_bind hm
    rw [hrun]
    exact h' w' hw'
  · exact .inr ⟨name, w', run_bind_error hm⟩

theorem completes_forM {α : Type} {l : List α} {f : α → Writing Writer Unit}
    (h : ∀ a ∈ l, Completes I I (f a)) : Completes I I (l.forM f) := by
  induction l with
  | nil => exact completes_pure
  | cons a l ih =>
    obtain ⟨ha, hl⟩ := List.forall_mem_cons.1 h
    exact ha.bind (ih hl)

/-- A structure is placed when what is written into it is: opening it leads to states that the inside
keeps, and from each of them closing it places a tree. -/
theorem Completes.between {before after : Writing Writer Unit} {L : Writer → Writer → Prop}
    (hopen : ∀ w, ∃ w', before w = .ok () w' ∧ L w w') (h : ∀ w, Completes (L w) (L w) m)
    (hclose : ∀ w, I w → ∀ w', L w w' → ∃ w'', after w' = .ok () w'' ∧ J w'') :
    Completes I J (do before; m; after) := by
  intro w hw
  obtain ⟨w₁, hbefore, hw₁⟩ := hopen w
  rw [run_bind hbefore]
  rcases h w w₁ hw₁ with ⟨w₂, hm, hw₂⟩ | ⟨name, w₂, hm⟩
  · rw [run_bind hm]
    exact .inl (hclose w hw w₂ hw₂)
  · exact .inr ⟨name, w₂, run_bind_error hm⟩

/-- What is opened as an object and closed as one: the object of a type, and a mapping. -/
theorem completes_object {before after : Writing Writer Unit}
    (hopen : ∀ w, before w = .ok () ⟨.object [] (keyOf pos) :: w.stack, w.root⟩)
    (hclose : ∀ members key stack root,
      after ⟨.object members key :: stack, root⟩ = emit key (.object members) ⟨stack, root⟩)
    (hfit : Fits pos I J)
    (h : ∀ own stack root, Completes (InObject own stack root) (InObject own stack root) m) :
    Completes I J (do before; m; after) := by
  refine Completes.between (L := fun w => InObject (keyOf pos) w.stack w.root)
    (fun w => ⟨_, hopen w, [], rfl⟩) (fun w => h _ _ _) ?_
  rintro w hw _ ⟨members, rfl⟩
  obtain ⟨w', hemit, hw'⟩ := hfit w hw (.object members)
  exact ⟨w', (hclose members _ _ _).trans hemit, hw'⟩

theorem completes_sequence (l : Layout) (hfit : Fits pos I J)
    (h : ∀ own stack root, Completes (InArray own stack root) (InArray own stack root) m) :
    Completes I J (do Sink.beginContainer pos (Encode.containerAt pos l); m; Sink.endContainer) := by
  refine Completes.between (L := fun w => InArray (keyOf pos) w.stack w.root)
    (fun w => ⟨⟨.array [] (keyOf pos) :: w.stack, w.root⟩, ?_, [], rfl⟩) (fun w => h _ _ _) ?_
  · cases l <;> rfl
  · rintro w hw _ ⟨items, rfl⟩
    exact hfit w hw (.array items)

end Writer

open Writer

variable {c : Catalogue} {s : PlanSet} {shape : Shape} {allowed : Bool} {v : Value}

/-! ## Values -/

/-- Wherever a tree can be placed, writing the value places one, unless it refuses an object for its
type. -/
def Writes (s : PlanSet) (shape : Shape) (allowed : Bool) (v : Value) : Prop :=
  ∀ pos I J, Fits pos I J → Completes I J (Encode.value s pos shape allowed v)

theorem RoundTrips.writes {d : Nat} {j : Json} (h : RoundTrips s d shape allowed v j) :
    Writes s shape allowed v := by
  intro pos I J hfit
  rw [h.written]
  exact completes_emit hfit

theorem writes_list {vs : List Value} (h : ∀ v ∈ vs, Writes s shape allowed v) (l : Layout)
    (n : Bool) : Writes s (.sequence shape allowed l) n (.list vs) := by
  intro pos I J hfit
  rw [Encode.value]
  refine completes_sequence l hfit fun own stack root => ?_
  induction vs with
  | nil =>
    rw [Encode.items]
    exact completes_pure
  | cons v vs ih =>
    obtain ⟨hv, hvs⟩ := List.forall_mem_cons.1 h
    rw [Encode.items]
    exact (hv _ _ _ fits_array).bind (ih hvs)

theorem writes_map {es : List (String × Value)} (h : ∀ k v, (k, v) ∈ es → Writes s shape allowed v)
    (n : Bool) : Writes s (.mapping shape allowed) n (.map es) := by
  intro pos I J hfit
  rw [Encode.value]
  refine completes_object (fun _ => rfl) (fun _ _ _ _ => rfl) hfit fun own stack root => ?_
  induction es with
  | nil =>
    rw [Encode.entries]
    exact completes_pure
  | cons e es ih =>
    obtain ⟨hv, hes⟩ := Table.forall_mem_cons.1 h
    rw [Encode.entries]
    exact (hv _ _ _ (fits_object rfl)).bind (ih hes)

theorem extras_completes {plan : TypePlan} {es : List (String × Value)}
    (h : ∀ k v, (k, v) ∈ es → Writes s shape allowed v) (own : Option String) (stack : List OpenTree)
    (root : Option Json) : Completes (InObject own stack root) (InObject own stack root)
      (Encode.extras s plan shape allowed es) := by
  induction es with
  | nil =>
    rw [Encode.extras]
    exact completes_pure
  | cons e es ih =>
    obtain ⟨hv, hes⟩ := Table.forall_mem_cons.1 h
    rw [Encode.extras]
    split
    · exact completes_pure.bind (ih hes)
    · exact (hv _ _ _ (fits_object rfl)).bind (ih hes)

/-! ## Objects -/

/-- Whatever a value of a type holds is written where the type is planned, and so are the entries of a
map, also where it is the value of a carrier. -/
structure Writable (c : Catalogue) (s : PlanSet) (allowed : Bool) (r : Reference) (v : Value) :
    Prop where
  value : ∀ l shape, c.Forms l r shape → Writes s shape allowed v
  entries : ∀ es r' m shape, v = .map es → r = .collection .mapping r' m →
    c.Forms .standard r' shape → ∀ k u, (k, u) ∈ es → Writes s shape m u

section Object

variable {t : Handle} {o : ObjectType} {plan : TypePlan} {fields : Table String Value}

theorem step_completes (P : c.PlannedBy .json s) (ho : c.object? t = some o)
    (hf : c.Filled t fields)
    (H : ∀ p ∈ c.plannedProperties t, ∀ v, Table.find? fields p.name = some v →
      Writable c s (p.nullable && !p.carrier) p.type v)
    {p : Property} (hp : p ∈ c.plannedProperties t) {x : Catalogue.Planned}
    (hx : c.Contributes .json t o p x) (own : Option String) (stack : List OpenTree)
    (root : Option Json) : Completes (InObject own stack root) (InObject own stack root)
      (Encode.step s plan fields x.step) := by
  cases hx with
  | @field shape hc hshape _ =>
    rcases P.emissionOf_eq ho p shape with ⟨-, he⟩ | ⟨-, he⟩
    · rcases hw : c.word? t with _ | w
      · rw [Encode.step_discriminator_none (he.trans (congrArg _ hw))]
        exact completes_refuse _
      · rw [Encode.step_discriminator_some (he.trans (congrArg _ hw))]
        exact completes_emit (fits_object rfl)
    · rw [Encode.step_value he]
      split
      · split
        · rename_i hv hr
          obtain ⟨v, hv'⟩ := hf.required p hp hc hr
          exact absurd (hv.symm.trans hv') (by simp)
        · exact completes_pure
      · rename_i v hv
        have hwrites := (H p hp v hv).value _ _ hshape
        rw [hc, Bool.not_false, Bool.and_true] at hwrites
        exact hwrites _ _ _ (fits_object rfl)
  | @carrier r shape m hc ht hs =>
    rw [Encode.step_entries rfl]
    split
    · exact completes_pure
    · exact completes_pure
    · rename_i es hv
      exact extras_completes ((H p hp _ hv).entries es r m shape rfl ht hs) own stack root
    · rename_i v hnull hmap hv
      obtain ⟨es, rfl, -⟩ := hf.carried p hp hc v hv
      exact absurd rfl (hmap es)

/-- An object is written, or it is refused for its type, or one inside of it is. -/
theorem object_completes (P : c.PlannedBy .json s) (ho : c.object? t = some o)
    (hf : c.Filled t fields)
    (H : ∀ p ∈ c.plannedProperties t, ∀ v, Table.find? fields p.name = some v →
      Writable c s (p.nullable && !p.carrier) p.type v)
    {expected : Option Handle} (hexp : ∀ h, expected = some h → c.Inherits t h) {pos : Position}
    {I J : Writer → Prop} (hfit : Fits pos I J) :
    Completes I J (Encode.object s pos expected t fields) := by
  obtain ⟨plan, hp, hplan⟩ := P.exists_plans ho
  have hsub : ∀ k, expected = some k → s.isSubtype t k = true := fun k hk =>
    (P.isSubtype_iff ho).2 (hexp k hk)
  rw [Encode.object]
  cases habstract : plan.isAbstract with
  | true =>
    rw [Encode.instancePlan_of_isAbstract hp habstract hsub]
    exact fun w _ => .inr ⟨plan.name, w, rfl⟩
  | false =>
    rw [Encode.instancePlan_eq_ok hp habstract hsub]
    exact completes_object (fun _ => rfl) (fun _ _ _ _ => rfl) hfit fun own stack root =>
      completes_forM <| hplan.forall_steps.2 fun p hp x hx => step_completes P ho hf H hp hx own stack root

end Object

/-- **Well typed values that hold no doubles can be written**, but for objects that are refused for
their types. -/
theorem writable_of_admits (P : c.PlannedBy .json s) {r : Reference} (h : c.Admits allowed r v)
    (hx : v.isExact = true) : Writable c s allowed r v := by
  induction h with
  | null => exact ⟨fun l shape _ => (roundTrips_null shape).writes, by simp⟩
  | @primitive n h kind v hk hv =>
    refine ⟨fun l shape hshape => ?_, by rintro _ _ _ _ - ⟨⟩⟩
    obtain rfl := hshape.unique (.primitive hk)
    obtain ⟨j, hj⟩ := exists_roundTrips_primitive hv hx n
    exact hj.writes
  | @enumeration n h e w hk hw =>
    refine ⟨fun l shape hshape => ?_, by simp⟩
    obtain rfl := hshape.unique (.enumeration hk)
    obtain ⟨j, hj⟩ := exists_roundTrips_enumeration P hk hw n
    exact hj.writes
  | @list n m r vs _ ih =>
    refine ⟨fun l shape hshape => ?_, by simp⟩
    cases hshape with
    | sequence helement =>
      exact writes_list (fun v hv => (ih v hv (Value.areExact_iff.1 hx v hv)).value _ _ helement) l n
  | @map n m r es _ _ ih =>
    have hentries : ∀ shape, c.Forms .standard r shape → ∀ k v, (k, v) ∈ es → Writes s shape m v :=
      fun shape hshape k v hv =>
        (ih k v hv (Value.entriesAreExact_iff.1 hx k v hv)).value _ _ hshape
    refine ⟨fun l shape hshape => ?_, fun es' r' m' shape he hr hshape => ?_⟩
    · cases hshape with
      | mapping helement => exact writes_map (hentries _ helement) n
    · obtain rfl := Value.map.inj he
      obtain ⟨-, rfl, rfl⟩ := Reference.collection.inj hr
      exact hentries shape hshape
  | @object n h t o fields type slot ascending declared required carried typed ih =>
    refine ⟨fun l shape hshape => ?_, by simp⟩
    have hfilled := P.wellFormed.filled_of_conforms ascending declared required carried typed
    obtain ⟨oh, hoh⟩ := Catalogue.object?_of_inherits P.wellFormed.base type slot
    obtain rfl := hshape.unique (.object hoh)
    intro pos I J hfit
    rw [Encode.value]
    exact object_completes P type hfilled
      (fun p hp v hv => ih p hp v hv (Value.entriesAreExact_iff.1 hx _ v (Table.mem_of_find? hv)))
      (fun k hk => Option.some.inj hk ▸ slot) hfit

end Json

namespace Document

/-- **Writing a well typed object that holds no doubles** as JSON gives a document, unless it stops at an
object whose type has no instances. -/
theorem write_json_of_admits {c : Catalogue} (hc : c.Reachable) {cancelled : Bool} {plans : PlanSet}
    (hp : c.planAll .json cancelled = .ok plans) {declared : Handle} {i : Instance}
    (hi : c.Admits false (.named declared) i.toValue) (hx : i.toValue.isExact = true) :
    (∃ doc, write .json plans i = .ok doc) ∨
      ∃ name, write .json plans i = .error (.abstractInstance name) := by
  have P := Catalogue.planAll_spec hc hp
  obtain ⟨t, fields⟩ := i
  cases hi with
  | primitive _ hv => exact absurd hv Primitive.not_holds_object
  | @object _ _ _ o _ type slot ascending hdeclared required carried typed =>
    obtain ⟨plan, hplan, -⟩ := P.exists_plans type
    have hfit : Json.Writer.Fits (.root plan.write.rootName plan.write.rootNamespace)
        (· = (Sink.start : Json.Writer)) fun w => ∃ j, w = ⟨[], some j⟩ := by
      rintro _ rfl j
      exact ⟨_, rfl, j, rfl⟩
    have hobject := Json.object_completes P type
      (P.wellFormed.filled_of_conforms ascending hdeclared required carried typed)
      (fun p hp v hv => Json.writable_of_admits P (typed p hp v hv)
        (Value.entriesAreExact_iff.1 hx _ v (Table.mem_of_find? hv)))
      (fun k (hk : none = some k) => by cases hk) hfit
    have hroot : Encode.root (σ := Json.Writer) plans ⟨t, fields⟩ = Encode.object plans
        (.root plan.write.rootName plan.write.rootNamespace) none t fields := by
      rw [Encode.root, Encode.typePlan, hplan]
      rfl
    rw [write, if_pos P.format]
    show (∃ doc, encode Json.Writer plans ⟨t, fields⟩ = .ok doc) ∨ ∃ name,
      encode Json.Writer plans ⟨t, fields⟩ = .error (.abstractInstance name)
    rw [encode, hroot]
    rcases hobject _ rfl with ⟨_, hrun, j, rfl⟩ | ⟨name, w, hrun⟩
    · rw [hrun]
      exact .inl ⟨Json.compact j, rfl⟩
    · rw [hrun]
      exact .inr ⟨name, rfl⟩

end Document

end Marshal
