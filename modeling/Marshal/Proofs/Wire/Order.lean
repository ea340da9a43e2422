import Marshal.Proofs.Plan.Sets
import Marshal.Proofs.Wire.Origins

/-!
# The order of parts

What a scan gathers does not depend on the order of parts with different names: each is read by
itself, and no two of them are put in one place (`Tree.field_comm`). So of lists in which the parts of
one name keep their order a scan gathers the same (`Tree.fields_of_sameOrder`). Which error is reported
does depend on the order, so what is compared here are results.
-/

namespace Marshal

/-! ## Lists in another order -/

section SameOrder

variable {α β κ μ : Type} [DecidableEq κ] [DecidableEq μ] {key : α → κ} {as bs : List α}

/-- Two lists hold the same elements, and those of one key in the same order. -/
def SameOrder (key : α → κ) (as bs : List α) : Prop :=
  ∀ k, as.filter (fun a => key a = k) = bs.filter (fun a => key a = k)

theorem SameOrder.symm (h : SameOrder key as bs) : SameOrder key bs as := fun k => (h k).symm

theorem SameOrder.mem_iff (h : SameOrder key as bs) {a : α} : a ∈ as ↔ a ∈ bs := by
  have hfilter : ∀ l : List α, a ∈ l ↔ a ∈ l.filter (fun b => key b = key a) := fun l => by
    simp
  rw [hfilter as, hfilter bs, h]

/-- Elements of different keys may change places, past elements of other keys. -/
theorem sameOrder_swap {a b : α} (before between after : List α)
    (hab : key a ≠ key b) (ha : ∀ x ∈ between, key x ≠ key a) (hb : ∀ x ∈ between, key x ≠ key b) :
    SameOrder key (before ++ a :: (between ++ b :: after))
      (before ++ b :: (between ++ a :: after)) := by
  intro k
  have hnone : k = key a ∨ k = key b → between.filter (fun x => key x = k) = [] := by
    rintro (rfl | rfl)
    · exact List.filter_eq_nil_iff.2 fun x hx => by simpa using ha x hx
    · exact List.filter_eq_nil_iff.2 fun x hx => by simpa using hb x hx
  simp only [List.filter_append, List.filter_cons]
  by_cases hka : key a = k
  · have hkb : key b ≠ k := fun e => hab (hka.trans e.symm)
    simp [hka, hkb, hnone (.inl hka.symm)]
  · by_cases hkb : key b = k
    · simp [hka, hkb, hnone (.inr hkb.symm)]
    · simp [hka, hkb]

/-- Elements of different keys may be put in any order. -/
theorem sameOrder_of_perm (hn : (as.map key).Nodup) (h : as.Perm bs) : SameOrder key as bs := by
  intro k
  have hperm := h.filter fun a => key a = k
  have hlength : (as.filter fun a => key a = k).length ≤ 1 := by
    have hkeys : (as.filter fun a => key a = k).map key =
        List.replicate (as.filter fun a => key a = k).length k := by
      refine List.eq_replicate_iff.2 ⟨List.length_map _, fun x hx => ?_⟩
      obtain ⟨a, ha, rfl⟩ := List.mem_map.1 hx
      exact of_decide_eq_true (List.mem_filter.1 ha).2
    exact List.nodup_replicate.1 (hkeys ▸ hn.sublist (List.filter_sublist.map key))
  rcases hfilter : as.filter (fun a => key a = k) with _ | ⟨a, _ | ⟨b, l⟩⟩
  · rw [hfilter] at hperm
    exact hperm.nil_eq
  · rw [hfilter] at hperm
    exact (List.singleton_perm.1 hperm)
  · simp [hfilter] at hlength

/-- The elements of one key may be gathered in front. -/
theorem sameOrder_gather (k : κ) (as : List α) :
    SameOrder key as (as.filter (fun a => key a = k) ++ as.filter fun a => key a ≠ k) := by
  intro k'
  rw [List.filter_append, List.filter_filter, List.filter_filter]
  by_cases hk : k = k'
  · subst hk
    simp
  · have hfront : as.filter (fun a => key a = k' && key a = k) = [] :=
      List.filter_eq_nil_iff.2 (by grind)
    rw [hfront, List.nil_append]
    exact List.filter_congr (by grind)

theorem SameOrder.map {g : α → β} {key' : β → κ} (h : SameOrder key as bs)
    (hg : ∀ a, key' (g a) = key a) : SameOrder key' (as.map g) (bs.map g) := by
  intro k
  simp only [List.filter_map, Function.comp_def, hg, h k]

/-- The first element of one list stands in the other behind elements of other keys only. -/
theorem SameOrder.exists_split {a : α} (h : SameOrder key (a :: as) bs) : ∃ before after,
    bs = before ++ a :: after ∧ (∀ x ∈ before, key x ≠ key a) ∧ SameOrder key as (before ++ after) := by
  have hfirst := h (key a)
  rw [List.filter_cons_of_pos (by simp)] at hfirst
  obtain ⟨before, after, rfl, hbefore, -, hafter⟩ := List.filter_eq_cons_iff.1 hfirst.symm
  have hbefore : ∀ x ∈ before, key x ≠ key a := fun x hx => by simpa using hbefore x hx
  refine ⟨before, after, rfl, hbefore, fun k => ?_⟩
  by_cases hk : key a = k
  · subst hk
    have hnone : before.filter (fun x => key x = key a) = [] :=
      List.filter_eq_nil_iff.2 fun x hx => by simpa using hbefore x hx
    rw [List.filter_append, hnone, List.nil_append, hafter]
  · have hk := h k
    rwa [List.filter_cons_of_neg (by simpa), List.filter_append,
      List.filter_cons_of_neg (by simpa), ← List.filter_append] at hk

/-- A step may be made first if it commutes with those before it. -/
theorem foldlM_move {f : β → α → Option β} {a : α} {before : List α} (after : List α)
    (h : ∀ x ∈ before, ∀ b, (f b x >>= fun b => f b a) = (f b a >>= fun b => f b x)) (b : β) :
    (before ++ a :: after).foldlM f b = (a :: (before ++ after)).foldlM f b := by
  induction before generalizing b with
  | nil => rfl
  | cons x before ih =>
    obtain ⟨hx, hbefore⟩ := List.forall_mem_cons.1 h
    have ih := ih hbefore
    simp only [List.cons_append, List.foldlM_cons] at ih ⊢
    simp only [ih, ← bind_assoc, hx]

/-- **Steps of different keys may be made in any order** if they commute. -/
theorem SameOrder.foldlM_eq {f : β → α → Option β} (h : SameOrder key as bs)
    (hf : ∀ x y, key x ≠ key y → ∀ b, (f b x >>= fun b => f b y) = (f b y >>= fun b => f b x))
    (b : β) : as.foldlM f b = bs.foldlM f b := by
  induction as generalizing bs b with
  | nil =>
    obtain rfl : bs = [] := List.eq_nil_iff_forall_not_mem.2 fun a ha => by simpa using h.mem_iff.2 ha
    rfl
  | cons a as ih =>
    obtain ⟨before, after, rfl, hbefore, hrest⟩ := h.exists_split
    rw [foldlM_move after (fun x hx b => hf x a (hbefore x hx) b), List.foldlM_cons, List.foldlM_cons]
    exact bind_congr fun b => ih hrest b

end SameOrder

/-! ## Steps of a scan -/

/-- No two keys of a plan fill one property. -/
def TypePlan.Separates (plan : TypePlan) : Prop :=
  ∀ k k' a a', Table.find? plan.read.actions k = some a → Table.find? plan.read.actions k' = some a' →
    a.property = a'.property → k = k'

open Decode Outcome Catalogue

theorem Catalogue.PlannedBy.separates {c : Catalogue} {f : Format} {s : PlanSet} {h : Handle}
    {plan : TypePlan} (P : c.PlannedBy f s) (hplan : s.type? h = some plan) : plan.Separates := by
  obtain ⟨o, ho, hplans⟩ := P.plans hplan
  intro k k' a a' ha ha' he
  obtain ⟨p, hp, -, rfl, _, -, -, rfl⟩ := (hplans.actions k a).1 ha
  obtain ⟨q, hq, -, rfl, _, -, -, rfl⟩ := (hplans.actions k' a').1 ha'
  obtain rfl := P.wellFormed.eq_of_name ho hp hq he
  rfl

theorem Decode.Scan.assign_comm (scan : Scan) {a b : Action} (h : a.property ≠ b.property)
    (v w : Value) : (scan.assign a v).assign b w = (scan.assign b w).assign a v := by
  obtain ⟨fields, extra⟩ := scan
  simp only [Scan.assign, Table.find?_insert, h, h.symm, if_false, Table.insert_comm fields h]

namespace Tree

variable {τ : Type} {s : PlanSet} {inner : Inner τ} {plan : TypePlan} {scan : Scan}

/-- What a part does to a scan, once it is read. -/
def reading (inner : Inner τ) (plan : TypePlan) (part : String × Placement × τ) :
    Except DecodeError (Scan → Scan) :=
  match boundAction plan part.1 part.2.1 with
  | some a => (inner a.shape a.nullable part.1 part.2.2).map fun v scan => scan.assign a v
  | none =>
    match plan.read.carrier with
    | some c => (inner c.value c.nullable part.1 part.2.2).map fun v scan =>
      { scan with extra := Table.insert scan.extra part.1 v }
    | none => .ok id

/-- A part is read without regard to what has been gathered. -/
theorem field_eq_map (part : String × Placement × τ) :
    field inner plan scan part = (reading inner plan part).map fun put => put scan := by
  rw [field, reading]
  rcases boundAction plan part.1 part.2.1 with _ | a
  · rcases plan.read.carrier with _ | c
    · rfl
    · dsimp only
      rcases inner c.value c.nullable part.1 part.2.2 with _ | _ <;> rfl
  · dsimp only
    rcases inner a.shape a.nullable part.1 part.2.2 with _ | _ <;> rfl

/-- A part that is read fills a property, is captured, or is passed. -/
theorem reading_eq_ok {part : String × Placement × τ} {put : Scan → Scan}
    (h : reading inner plan part = .ok put) :
    (∃ a v, boundAction plan part.1 part.2.1 = some a ∧ put = fun scan => scan.assign a v) ∨
      (∃ v, put = fun scan => { scan with extra := Table.insert scan.extra part.1 v }) ∨ put = id := by
  rw [reading] at h
  split at h
  · rename_i a ha
    rcases hv : inner a.shape a.nullable part.1 part.2.2 with e | v <;> rw [hv] at h <;> cases h
    exact .inl ⟨a, v, ha, rfl⟩
  · split at h
    · rename_i c hc
      rcases hv : inner c.value c.nullable part.1 part.2.2 with e | v <;> rw [hv] at h <;> cases h
      exact .inr (.inl ⟨v, rfl⟩)
    · cases h
      exact .inr (.inr rfl)

/-- Parts with different names are put in different places. -/
theorem put_comm (hplan : plan.Separates) {p q : String × Placement × τ} (hne : p.1 ≠ q.1)
    {f g : Scan → Scan} (hf : reading inner plan p = .ok f) (hg : reading inner plan q = .ok g)
    (scan : Scan) : g (f scan) = f (g scan) := by
  rcases reading_eq_ok hf with ⟨a, v, ha, rfl⟩ | ⟨v, rfl⟩ | rfl <;>
    rcases reading_eq_ok hg with ⟨b, w, hb, rfl⟩ | ⟨w, rfl⟩ | rfl
  case inl.inl =>
    refine Scan.assign_comm scan (fun he => hne ?_) v w
    exact hplan _ _ a b (Option.filter_eq_some_iff.1 ha).1 (Option.filter_eq_some_iff.1 hb).1 he
  case inr.inl.inr.inl => simp only [Table.insert_comm scan.extra hne]
  all_goals rfl

/-- **Parts with different names may be read in any order.** -/
theorem field_comm (hplan : plan.Separates) {p q : String × Placement × τ} (hne : p.1 ≠ q.1)
    (scan : Scan) :
    ((field inner plan scan p).toOption >>= fun scan => (field inner plan scan q).toOption) =
      (field inner plan scan q).toOption >>= fun scan => (field inner plan scan p).toOption := by
  simp only [field_eq_map]
  rcases hp : reading inner plan p with e | f
  · cases reading inner plan q <;> rfl
  · rcases hq : reading inner plan q with e | g
    · rfl
    · exact congrArg some (put_comm hplan hne hp hq scan)

/-- **A scan gathers the same** of parts of which those with one name keep their order. -/
theorem fields_of_sameOrder (hplan : plan.Separates) {ps qs : List (String × Placement × τ)}
    (h : SameOrder Prod.fst ps qs) (scan : Scan) :
    (ps.foldlM (field inner plan) scan).toOption = (qs.foldlM (field inner plan) scan).toOption := by
  rw [toOption_foldlM, toOption_foldlM]
  exact h.foldlM_eq (fun p q hne scan => field_comm hplan hne scan) scan

/-- **A mapping gathers the same** of entries of which those with one key keep their order. -/
theorem entries_of_sameOrder {f : String → τ → Except DecodeError Value} {es fs : List (String × τ)}
    (h : SameOrder Prod.fst es fs) (table : List (String × Value)) :
    ((es.map .ok).foldlM (entry f) table).toOption =
      ((fs.map .ok).foldlM (entry f) table).toOption := by
  rw [toOption_foldlM, toOption_foldlM, List.foldlM_map, List.foldlM_map]
  refine h.foldlM_eq (fun p q hne table => ?_) table
  have hentry : ∀ (e : String × τ) table, (entry f table (.ok e)).toOption =
      (f e.1 e.2).toOption.map fun v => Table.insert table e.1 v := by
    intro e table
    show (f e.1 e.2 >>= fun v => pure (Table.insert table e.1 v)).toOption = _
    rcases f e.1 e.2 with _ | _ <;> rfl
  simp only [hentry]
  rcases (f p.1 p.2).toOption with _ | v <;> rcases (f q.1 q.2).toOption with _ | w
  case some.some => exact congrArg some (Table.insert_comm table hne v w)
  all_goals rfl

/-! ## Trees that give the same results -/

/-- The shape along which a part is read, unless it is passed. -/
def partShape (plan : TypePlan) (key : String) (placement : Placement) : Option Shape :=
  match boundAction plan key placement with
  | some a => some a.shape
  | none => plan.read.carrier.map CarrierTarget.value

variable {t u : τ}

theorem field_congr {key : String} {placement : Placement}
    (h : ∀ shape allowed, partShape plan key placement = some shape →
      (inner shape allowed key t).toOption = (inner shape allowed key u).toOption) (scan : Scan) :
    (field inner plan scan (key, placement, t)).toOption =
      (field inner plan scan (key, placement, u)).toOption := by
  rw [field, field]
  dsimp only
  rcases ha : boundAction plan key placement with _ | a
  · rcases hc : plan.read.carrier with _ | c
    · rfl
    · have hshape : partShape plan key placement = some c.value := by simp [partShape, ha, hc]
      simp only [toOption_bind, h c.value c.nullable hshape]
  · have hshape : partShape plan key placement = some a.shape := by simp [partShape, ha]
    simp only [toOption_bind, h a.shape a.nullable hshape]

theorem entry_congr {f : String → τ → Except DecodeError Value} {key : String}
    (h : (f key t).toOption = (f key u).toOption) (table : List (String × Value)) :
    (entry f table (.ok (key, t))).toOption = (entry f table (.ok (key, u))).toOption := by
  show (f key t >>= _).toOption = (f key u >>= _).toOption
  simp only [toOption_bind, h]

variable [Tree τ]

theorem concretePlan_congr (h : ∀ name placement,
    (Tree.text? t name placement).toOption = (Tree.text? u name placement).toOption)
    (declared : TypePlan) :
    (concretePlan s declared t).toOption = (concretePlan s declared u).toOption := by
  rw [concretePlan, concretePlan]
  rcases declared.read.discriminator with _ | d
  · rfl
  · simp only [toOption_bind, h]

/-- **Objects are the same** if the same concrete type is found for them and a scan gathers the same. -/
theorem object_congr {c : Catalogue} {f : Format} (P : c.PlannedBy f s) {declared : Handle}
    {ps qs : List (String × Placement × τ)} (hps : Tree.parts t = .ok ps) (hqs : Tree.parts u = .ok qs)
    (htext : ∀ name placement,
      (Tree.text? t name placement).toOption = (Tree.text? u name placement).toOption)
    (hend : (Tree.partsEnd t).toOption = (Tree.partsEnd u).toOption)
    (hscan : ∀ dplan plan, s.type? declared = some dplan → concretePlan s dplan t = .ok plan →
      plan.Separates → (ps.foldlM (field inner plan) ⟨[], []⟩).toOption =
        (qs.foldlM (field inner plan) ⟨[], []⟩).toOption) :
    (object s inner declared t).toOption = (object s inner declared u).toOption := by
  rw [object, object, hps, hqs]
  rcases hd : s.type? declared with _ | dplan
  · simp only [typePlan, hd, toOption_bind]
    rfl
  · have hplan := concretePlan_congr (s := s) htext dplan
    simp only [typePlan, hd, toOption_bind, toOption_ok, Option.bind_eq_bind, Option.bind_some,
      ← hplan, ← hend]
    rcases hconcrete : concretePlan s dplan t with e | plan
    · rfl
    · obtain ⟨k, hk, -⟩ := exists_selected P hd hconcrete
      simp only [toOption_ok, Option.bind_some, hscan dplan plan hd hconcrete (P.separates hk)]

section Values

variable (ht : Tree.isNull t = false) (hu : Tree.isNull u = false)

include ht hu

/-- A value along the shape of an object is the object, where there is room for one. -/
theorem value_object_congr {declared : Handle}
    (h : ∀ room, (object s (value s room) declared t).toOption =
      (object s (value s room) declared u).toOption) (room : Nat) (allowed : Bool) (name : String) :
    (value s room (.object declared) allowed name t).toOption =
      (value s room (.object declared) allowed name u).toOption := by
  rw [value_of_not_null ht, value_of_not_null hu]
  cases room with
  | zero => rfl
  | succ room =>
    show (object s (value s room) declared t >>= _).toOption =
      (object s (value s room) declared u >>= _).toOption
    simp only [toOption_bind, h]

/-- A value along the shape of a sequence is the sequence of its items. -/
theorem value_sequence_congr {element : Shape} {n : Bool} {layout : Layout} {ts us : List τ}
    (hts : Tree.items layout t = .ok ts) (hus : Tree.items layout u = .ok us)
    (hend : Tree.itemsEnd layout t = Tree.itemsEnd layout u)
    (h : ∀ room name, (ts.mapM (value s room element n name)).toOption =
      (us.mapM (value s room element n name)).toOption) (room : Nat) (allowed : Bool) (name : String) :
    (value s room (.sequence element n layout) allowed name t).toOption =
      (value s room (.sequence element n layout) allowed name u).toOption := by
  rw [value_of_not_null ht, value_of_not_null hu]
  cases room with
  | zero => rfl
  | succ room =>
    simp only [shaped, innerOf, hts, hus, hend, toOption_bind, toOption_ok, Option.bind_eq_bind,
      Option.bind_some, h]

/-- A value along the shape of a mapping is the table of its entries. -/
theorem value_mapping_congr {element : Shape} {n : Bool}
    {es fs : List (Except DecodeError (String × τ))} (hes : Tree.entries t = .ok es)
    (hfs : Tree.entries u = .ok fs)
    (h : ∀ room, (es.foldlM (entry (value s room element n)) []).toOption =
      (fs.foldlM (entry (value s room element n)) []).toOption)
    (room : Nat) (allowed : Bool) (name : String) :
    (value s room (.mapping element n) allowed name t).toOption =
      (value s room (.mapping element n) allowed name u).toOption := by
  rw [value_of_not_null ht, value_of_not_null hu]
  cases room with
  | zero => rfl
  | succ room =>
    simp only [shaped, innerOf, hes, hfs, toOption_bind, toOption_ok, Option.bind_eq_bind,
      Option.bind_some, h]

/-- Documents are the same if their roots are the same as values. -/
theorem root_congr {declared : Handle}
    (h : ∀ allowed name, (value s depthLimit (.object declared) allowed name t).toOption =
      (value s depthLimit (.object declared) allowed name u).toOption) :
    (root s declared t).toOption = (root s declared u).toOption := by
  have hvalue : ∀ {t : τ}, Tree.isNull t = false →
      (value s depthLimit (.object declared) false "" t).toOption =
        (root s declared t).toOption.map Instance.toValue := by
    intro t ht
    rw [value_of_not_null ht]
    show (root s declared t >>= fun i => pure i.toValue).toOption = _
    rcases root s declared t with _ | _ <;> rfl
  refine Option.map_injective ?_ ((hvalue ht).symm.trans ((h false "").trans (hvalue hu)))
  rintro ⟨type, fields⟩ ⟨type', fields'⟩ he
  simpa [Instance.toValue] using he

end Values

end Tree

end Marshal
