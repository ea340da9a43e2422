import Marshal.Proofs.Catalogue.Changes

/-!
# Reachable catalogues

A catalogue is built from the primitives by declaring, defining, registering and sealing, so it comes
out of the initial one by changes in place (`Reachable.changes`), and what these keep holds of it. Any
defined types whose names differ can be registered (`Reachable.append`). The checks of sealing do not
look at the hierarchies, so a sealed catalogue still passes them, and they give the hierarchies it holds
(`Reachable.check_eq_ok`).
-/

namespace Marshal.Catalogue

open Outcome

/-- The catalogues that the operations make out of the primitives. An operation that fails makes
none, and it leaves none behind either where a catalogue is changed in place
(`reachable_iff_exists_after`). -/
inductive Reachable : Catalogue → Prop where
  | initial : Reachable initial
  | declare {c c' : Catalogue} {name : String} {h : Handle} :
    Reachable c → c.declare name = .ok (h, c') → Reachable c'
  | define {c c' : Catalogue} {h : Handle} {kind : Kind} :
    Reachable c → c.define h kind = .ok c' → Reachable c'
  | register {c c' : Catalogue} {e : Entity} {h : Handle} :
    Reachable c → c.register e = .ok (h, c') → Reachable c'
  | trySeal {c c' : Catalogue} : Reachable c → c.trySeal = .ok c' → Reachable c'

variable {c c' : Catalogue}

/-! ## Results of changes in place -/

section Results

theorem InPlace.result_eq_ok_iff {α : Type} {m : InPlace α} {a : α} :
    m.result c = .ok (a, c') ↔ m c = .ok a c' := by
  rw [InPlace.result]
  rcases m c with ⟨a, c₁⟩ | ⟨e, c₁⟩ <;> simp

theorem InPlace.result_eq_error_iff {α : Type} {m : InPlace α} {e : CatalogueError} :
    m.result c = .error e ↔ ∃ c', m c = .error e c' := by
  rw [InPlace.result]
  rcases m c with ⟨a, c₁⟩ | ⟨e, c₁⟩ <;> simp

theorem InPlace.map_snd_result_eq_ok_iff {m : InPlace Unit} :
    (m.result c).map Prod.snd = .ok c' ↔ m c = .ok () c' := by
  rw [map_eq_ok_iff]
  constructor
  · rintro ⟨⟨_, _⟩, hm, rfl⟩
    exact InPlace.result_eq_ok_iff.1 hm
  · exact fun hm => ⟨_, InPlace.result_eq_ok_iff.2 hm, rfl⟩

variable {name : String} {h : Handle} {kind : Kind} {e : Entity}

theorem declare_eq_ok_iff : c.declare name = .ok (h, c') ↔ InPlace.declare name c = .ok h c' :=
  InPlace.result_eq_ok_iff

theorem define_eq_ok_iff : c.define h kind = .ok c' ↔ InPlace.define h kind c = .ok () c' :=
  InPlace.map_snd_result_eq_ok_iff

theorem register_eq_ok_iff : c.register e = .ok (h, c') ↔ InPlace.register e c = .ok h c' :=
  InPlace.result_eq_ok_iff

theorem trySeal_eq_ok_iff : c.trySeal = .ok c' ↔ InPlace.trySeal c = .ok () c' :=
  InPlace.map_snd_result_eq_ok_iff

end Results

/-- **A reachable catalogue comes out of the initial one by changes in place.** -/
theorem Reachable.changes (hc : c.Reachable) : Changes Catalogue.initial c := by
  induction hc with
  | initial => exact .refl
  | declare _ hd ih => exact ih.trans (InPlace.declare_changes (declare_eq_ok_iff.1 hd))
  | define _ hd ih => exact ih.trans (InPlace.define_changes (define_eq_ok_iff.1 hd))
  | register _ hr ih => exact ih.trans (InPlace.register_changes (register_eq_ok_iff.1 hr))
  | trySeal _ ht ih => exact ih.trans (InPlace.trySeal_changes (trySeal_eq_ok_iff.1 ht))

theorem Reachable.indexed (hc : c.Reachable) : c.Indexed := hc.changes.indexed .initial

theorem Reachable.carried (hc : c.Reachable) : c.Carried := hc.changes.carried .initial

/-! ## New names -/

/-- What is declared under a name that is there is what is there. -/
theorem exists_declare_of_mem (hc : c.Indexed) {name : String} (hmem : name ∈ c.names) :
    ∃ h, c.declare name = .ok (h, c) := by
  obtain ⟨h, hh⟩ := Option.ne_none_iff_exists'.1 (mt hc.handleOf?_eq_none_iff.1 (not_not.2 hmem))
  exact ⟨h, by rw [declare_eq_ok_iff, InPlace.declare_eq, hh]⟩

/-- What an open catalogue declares under a new name is put behind its types. -/
theorem declare_of_new (hc : c.Indexed) (hopen : c.isSealed = false) {name : String}
    (hnew : name ∉ c.names) : c.declare name = .ok (⟨c.size⟩, c.push ⟨name, none⟩) := by
  rw [declare_eq_ok_iff, InPlace.declare_eq, hc.handleOf?_eq_none_iff.2 hnew, hopen]
  rfl

/-- A blank slot is filled in where it stands. -/
theorem define_of_blank (hopen : c.isSealed = false) {h : Handle} {name : String} {kind : Kind}
    (hs : c.slot? h = some ⟨name, none⟩) : c.define h kind = .ok (c.fill h ⟨name, kind⟩) := by
  rw [define_eq_ok_iff, InPlace.define_eq, hs, hopen]
  rfl

/-- What is defined cannot be defined otherwise. -/
theorem define_of_other (hopen : c.isSealed = false) {h : Handle} {name : String} {e : Entity}
    {kind : Kind} (hs : c.slot? h = some ⟨name, some e⟩) (hne : e.kind ≠ kind) :
    c.define h kind = .error (.duplicateType name) := by
  rw [define, map_eq_error_iff, InPlace.result_eq_error_iff]
  refine ⟨c, ?_⟩
  rw [InPlace.define_eq, hs, hopen]
  exact if_neg hne

/-- What an open catalogue registers under a new name is put behind its types. -/
theorem register_of_new (hc : c.Indexed) (hopen : c.isSealed = false) {e : Entity}
    (hnew : e.name ∉ c.names) : c.register e = .ok (⟨c.size⟩, c.push e.slot) := by
  have hdeclare := declare_eq_ok_iff.1 (declare_of_new hc hopen hnew)
  rw [register_eq_ok_iff, InPlace.register]
  exact (run_bind hdeclare).trans (run_bind (InPlace.define_push hopen e.name e.kind))

/-- Types that are defined, each under a name of its own, can be registered one after the other. -/
theorem Reachable.append (hc : c.Reachable) (hopen : c.isSealed = false) {es : List Entity}
    (hnames : (c.names ++ es.map Entity.name).Nodup) :
    (c.append (es.map Entity.slot)).Reachable := by
  induction es generalizing c with
  | nil => exact hc
  | cons e es ih =>
    have hnew : e.name ∉ c.names := fun hmem =>
      List.disjoint_of_nodup_append hnames hmem List.mem_cons_self
    refine ih (.register hc (register_of_new hc.indexed hopen hnew)) hopen ?_
    rw [names_push, List.append_assoc]
    exact hnames

/-- The catalogue of the primitives and these types. -/
def ofEntities (es : List Entity) : Catalogue := initial.append (es.map Entity.slot)

theorem Reachable.ofEntities {es : List Entity}
    (hnames : (Primitive.all.map Primitive.name ++ es.map Entity.name).Nodup) :
    (Catalogue.ofEntities es).Reachable :=
  .append .initial rfl (by rwa [names_initial])

/-! ## Checks do not look at the hierarchies -/

section WithForest

variable (c : Catalogue) (f : Forest)

theorem ascend_withForest : (c.withForest f).ascend = c.ascend := by
  funext fuel seen h
  induction fuel generalizing seen h with
  | zero => rfl
  | succ fuel ih =>
    simp only [ascend, ih]
    rfl

theorem lineage_withForest : (c.withForest f).lineage = c.lineage := by
  funext h
  rw [lineage, ascend_withForest]
  rfl

theorem hasCycle_withForest : (c.withForest f).hasCycle = c.hasCycle := by
  funext h
  rw [hasCycle, lineage_withForest]
  rfl

theorem effectiveProperties_withForest :
    (c.withForest f).effectiveProperties = c.effectiveProperties := by
  funext h
  rw [effectiveProperties, lineage_withForest]
  rfl

theorem checkEffective_withForest : (c.withForest f).checkEffective = c.checkEffective := by
  funext h
  rw [checkEffective, effectiveProperties_withForest]
  rfl

theorem checkReference_withForest : (c.withForest f).checkReference = c.checkReference := by
  funext context r
  induction r with
  | named => rfl
  | collection _ _ _ ih => exact ih

theorem checkSlot_withForest : (c.withForest f).checkSlot = c.checkSlot := by
  funext s
  simp only [checkSlot, checkObject, checkReference_withForest]
  rfl

theorem generations_withForest : (c.withForest f).generations = c.generations := by
  funext fuel level
  induction fuel generalizing level with
  | zero => rfl
  | succ fuel ih =>
    cases level with
    | nil => rfl
    | cons =>
      simp only [generations, ih]
      rfl

theorem visit_withForest : (c.withForest f).visit = c.visit := by
  funext g h
  simp only [visit, governing, discriminatorFault?, effectiveProperties_withForest]
  rfl

theorem resolveForest_withForest : (c.withForest f).resolveForest = c.resolveForest := by
  rw [resolveForest, topDown, generations_withForest, visit_withForest]
  rfl

theorem check_withForest : (c.withForest f).check = c.check := by
  rw [check, checkSlot_withForest, checkEffective_withForest, hasCycle_withForest,
    resolveForest_withForest]
  rfl

end WithForest

/-! ## What sealing leaves -/

/-- Sealing an open catalogue leaves the types as they are. -/
theorem trySeal_eq_ok_iff_check (ho : c.isSealed = false) :
    c.trySeal = .ok c' ↔ ∃ f, c.check = .ok f ∧ c' = c.withForest f := by
  rw [trySeal_eq_ok_iff, InPlace.trySeal_eq, ho]
  rcases c.check with e | f <;> simp [eq_comm]

theorem trySeal_eq_error_iff (ho : c.isSealed = false) {e : CatalogueError} :
    c.trySeal = .error e ↔ c.check = .error e := by
  rw [trySeal, map_eq_error_iff, InPlace.result_eq_error_iff, InPlace.trySeal_eq, ho]
  rcases c.check with e | f <;> simp

theorem trySeal_of_isSealed (hs : c.isSealed = true) : c.trySeal = .ok c := by
  rw [trySeal_eq_ok_iff, InPlace.trySeal_eq, hs]
  rfl

/-- A change leaves the catalogue open, or it freezes it with the hierarchies that the checks give. -/
theorem Change.check_eq_ok (h : Change c c') (hs : c'.isSealed = true) :
    c'.check = .ok c'.forest := by
  cases h with
  | append ho => cases ho.symm.trans hs
  | fill ho => cases ho.symm.trans hs
  | freeze _ hf => rw [check_withForest, hf]; rfl

/-- **A sealed catalogue passes the checks**, and they give the hierarchies it holds. -/
theorem Reachable.check_eq_ok (hc : c.Reachable) (hs : c.isSealed = true) :
    c.check = .ok c.forest := by
  rcases hc.changes.cases_tail with rfl | ⟨c₁, -, h⟩
  · cases hs
  · exact h.check_eq_ok hs

end Marshal.Catalogue
