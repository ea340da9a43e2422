import Marshal.Proofs.Catalogue.Reachable

/-!
# Runs of calls

A catalogue that is changed in place by one call after the other, some of which fail. A registration
is two operations, and what the first has done would stay if the second failed; that it cannot fail
then is why a call that fails changes nothing (`InPlace.register_error`). What the states of a run have
in common is proved for one change, and holds for whole runs by induction (`consistent_after`).
-/

namespace Marshal.Catalogue

open Outcome

/-! ## Calls -/

/-- A call on a catalogue. -/
inductive Call where
  | declare (name : String)
  | define (handle : Handle) (kind : Kind)
  | register (entity : Entity)
  | trySeal
deriving DecidableEq, Repr

namespace Call

/-- What a call does in place, with the handle it gives out. -/
def perform : Call → InPlace (Option Handle)
  | .declare name => do return some (← InPlace.declare name)
  | .define h kind => do
    InPlace.define h kind
    return none
  | .register e => do return some (← InPlace.register e)
  | .trySeal => do
    InPlace.trySeal
    return none

/-- The name whose handle a call gives out. -/
def name? : Call → Option String
  | .declare name => some name
  | .register e => some e.name
  | _ => none

/-- The catalogue after a call, whether it fails or not. -/
def next (c : Catalogue) (call : Call) : Catalogue :=
  match call.perform c with
  | .ok _ c' => c'
  | .error _ c' => c'

end Call

/-- The catalogue after a run of calls. -/
def after (calls : List Call) (c : Catalogue) : Catalogue := calls.foldl Call.next c

variable {c c' : Catalogue}

/-- What the success of a call says about the operation behind it. -/
theorem perform_eq_ok_iff {call : Call} {a : Option Handle} :
    call.perform c = .ok a c' ↔
      match call with
      | .declare name => ∃ h, a = some h ∧ InPlace.declare name c = .ok h c'
      | .define h kind => a = none ∧ InPlace.define h kind c = .ok () c'
      | .register e => ∃ h, a = some h ∧ InPlace.register e c = .ok h c'
      | .trySeal => a = none ∧ InPlace.trySeal c = .ok () c' := by
  cases call <;> simp only [Call.perform, run_bind_eq_ok_iff]
  all_goals
    constructor
    · rintro ⟨h, c₁, hop, hret⟩
      cases hret
      first
      | exact ⟨rfl, hop⟩
      | exact ⟨h, rfl, hop⟩
  case declare | register =>
    rintro ⟨h, rfl, hop⟩
    exact ⟨h, c', hop, rfl⟩
  case define | trySeal =>
    rintro ⟨rfl, hop⟩
    exact ⟨(), c', hop, rfl⟩

theorem perform_changes {call : Call} {a : Option Handle} (h : call.perform c = .ok a c') :
    Changes c c' := by
  rw [perform_eq_ok_iff] at h
  cases call with
  | declare =>
    obtain ⟨k, -, hd⟩ := h
    exact InPlace.declare_changes hd
  | define => exact InPlace.define_changes h.2
  | register =>
    obtain ⟨k, -, hr⟩ := h
    exact InPlace.register_changes hr
  | trySeal => exact InPlace.trySeal_changes h.2

/-! ## A call that fails changes nothing -/

/-- **A call is all or nothing.** -/
theorem perform_error {call : Call} {err : CatalogueError} (h : call.perform c = .error err c') :
    c' = c := by
  cases call <;> rcases run_bind_eq_error_iff.1 h with h | ⟨_, _, _, h⟩
  case declare.inl => exact InPlace.declare_error h
  case define.inl => exact InPlace.define_error h
  case register.inl => exact InPlace.register_error h
  case trySeal.inl => exact InPlace.trySeal_error h
  all_goals cases h

theorem next_changes (c : Catalogue) (call : Call) : Changes c (call.next c) := by
  rw [Call.next]
  split
  · rename_i h
    exact perform_changes h
  · rename_i h
    rw [perform_error h]
    exact .refl

/-- What a run of calls does is a number of changes. -/
theorem after_changes (calls : List Call) (c : Catalogue) : Changes c (after calls c) := by
  induction calls generalizing c with
  | nil => exact .refl
  | cons call calls ih => exact (next_changes c call).trans (ih _)

/-! ## Runs -/

/-- What is true in every state of a run, and of all that comes later. -/
structure Consistent (c : Catalogue) : Prop where
  /-- The index and the slots are inverse to each other. -/
  index (n : String) (h : Handle) : c.handleOf? n = some h ↔ c.name? h = some n
  /-- The first slots are the primitives. -/
  primitives (i : Nat) (p : Primitive) : Primitive.all[i]? = some p →
    c.slot? ⟨i⟩ = some ⟨p.name, some ⟨p.name, .primitive p⟩⟩
  /-- A definition carries the name of its slot. -/
  carried (h : Handle) (e : Entity) : c.get? h = some e → c.name? h = some e.name
  /-- A handle that is given out for a name keeps it. -/
  handed (call : Call) (n : String) (h : Handle) (c' : Catalogue) :
    call.name? = some n → call.perform c = .ok (some h) c' →
      ∀ later, (after later c').name? h = some n
  /-- Names stay. -/
  name (h : Handle) (n : String) : c.name? h = some n → ∀ later, (after later c).name? h = some n
  /-- Definitions stay. -/
  definition (h : Handle) (e : Entity) :
    c.get? h = some e → ∀ later, (after later c).get? h = some e
  /-- What was registered resolves to itself. -/
  registered (e : Entity) (h : Handle) (c' : Catalogue) :
    (Call.register e).perform c = .ok (some h) c' → ∀ later, (after later c').resolve h = .ok e
  /-- A call that fails changes nothing. -/
  atomic (call : Call) (e : CatalogueError) (c' : Catalogue) : call.perform c = .error e c' → c' = c
  /-- What is defined can only be defined the same again, and that changes nothing. -/
  again (h : Handle) (e : Entity) (kind : Kind) (a : Option Handle) (c' : Catalogue) :
    c.get? h = some e → (Call.define h kind).perform c = .ok a c' → kind = e.kind ∧ c' = c
  /-- A sealed catalogue does not change. -/
  closed : c.isSealed = true → ∀ later, after later c = c

namespace Indexed

theorem name?_of_declare (hc : c.Indexed) {n : String} {h : Handle}
    (hd : InPlace.declare n c = .ok h c') : c'.name? h = some n := by
  rcases InPlace.declare_eq_ok hd with ⟨hf, rfl⟩ | ⟨-, -, rfl, rfl⟩
  · exact (hc n h).1 hf
  · rw [name?_push, if_pos rfl]

/-- A handle that is given out for a name is the handle of a slot with that name. -/
theorem name?_of_perform (hc : c.Indexed) {call : Call} {n : String} {h : Handle}
    (hn : call.name? = some n) (hp : call.perform c = .ok (some h) c') : c'.name? h = some n := by
  rw [perform_eq_ok_iff] at hp
  cases call with
  | declare name =>
    obtain ⟨_, ⟨⟩, hd⟩ := hp
    cases hn
    exact hc.name?_of_declare hd
  | register e =>
    obtain ⟨_, ⟨⟩, hr⟩ := hp
    obtain ⟨c₁, hd, hf⟩ := InPlace.register_eq_ok hr
    cases hn
    exact (InPlace.define_changes hf).name? (hc.name?_of_declare hd)
  | define => cases hn
  | trySeal => cases hn

end Indexed

/-- What is defined has its definition. -/
theorem kind?_of_define {h : Handle} {kind : Kind} (hd : InPlace.define h kind c = .ok () c') :
    c'.kind? h = some kind := by
  rcases InPlace.define_eq_ok hd with ⟨hk, rfl⟩ | ⟨name, -, hs, rfl⟩
  · exact hk
  · rw [Catalogue.kind?, slot?_fill, if_pos rfl, hs]
    rfl

/-- **Every run of calls leaves a consistent catalogue.** -/
theorem consistent_after (calls : List Call) : Consistent (after calls initial) := by
  have hchanges := after_changes calls initial
  have hindexed := hchanges.indexed .initial
  have hcarried := hchanges.carried .initial
  generalize after calls initial = c at hchanges hindexed hcarried
  exact
    { index := hindexed
      primitives := fun i p hp => by
        refine hchanges.slot?_of_defined ?_
        have hslots : initial.slots = (Primitive.all.map fun p => Entity.slot
          ⟨p.name, .primitive p⟩).toArray := rfl
        simp [Catalogue.slot?, hslots, hp, Entity.slot]
      carried := hcarried
      handed := fun call n h c' hn hp later =>
        (after_changes later c').name? (hindexed.name?_of_perform hn hp)
      name := fun h n hname later => (after_changes later c).name? hname
      definition := fun h e he later => (after_changes later c).get? he
      registered := fun e h c' hp later => by
        refine resolve_eq_ok_iff.2 ((after_changes later c').get? ?_)
        have hname := hindexed.name?_of_perform rfl hp
        obtain ⟨_, ⟨⟩, hr⟩ := perform_eq_ok_iff.1 hp
        obtain ⟨c₁, -, hf⟩ := InPlace.register_eq_ok hr
        obtain ⟨name, he⟩ := kind?_eq_some_iff.1 (kind?_of_define hf)
        have hc' := (perform_changes hp).carried hcarried
        obtain rfl : name = e.name := Option.some.inj ((hc' h _ he).symm.trans hname)
        exact he
      atomic := fun call e c' h => perform_error h
      again := fun h e kind a c' he hp => by
        obtain ⟨-, hd⟩ := perform_eq_ok_iff.1 hp
        have hk : c.kind? h = some e.kind := by rw [kind?_eq, he]; rfl
        rcases InPlace.define_eq_ok hd with ⟨hk', rfl⟩ | ⟨name, -, hs, -⟩
        · exact ⟨Option.some.inj (hk'.symm.trans hk), rfl⟩
        · rw [Catalogue.kind?, hs] at hk
          cases hk
      closed := fun hs later => (after_changes later c).eq_of_isSealed hs }

/-! ## Runs and reachable catalogues -/

theorem Reachable.next (hc : c.Reachable) (call : Call) : (call.next c).Reachable := by
  rcases hp : call.perform c with ⟨a, c'⟩ | ⟨e, c'⟩
  · rw [show call.next c = c' by rw [Call.next, hp]]
    have hop := perform_eq_ok_iff.1 hp
    cases call with
    | declare => exact hop.elim fun h hd => .declare hc (declare_eq_ok_iff.2 hd.2)
    | define => exact .define hc (define_eq_ok_iff.2 hop.2)
    | register => exact hop.elim fun h hr => .register hc (register_eq_ok_iff.2 hr.2)
    | trySeal => exact .trySeal hc (trySeal_eq_ok_iff.2 hop.2)
  · rw [show call.next c = c' by rw [Call.next, hp], perform_error hp]
    exact hc

/-- One more call that succeeds leads on to what it leaves. -/
theorem exists_after_of_perform (call : Call) {a : Option Handle}
    (hc : ∃ calls, after calls initial = c) (hp : call.perform c = .ok a c') :
    ∃ calls, after calls initial = c' := by
  obtain ⟨calls, rfl⟩ := hc
  refine ⟨calls ++ [call], ?_⟩
  rw [after, List.foldl_append]
  show call.next (after calls initial) = c'
  rw [Call.next, hp]

/-- **The reachable catalogues are those that runs of calls lead to.** -/
theorem reachable_iff_exists_after : c.Reachable ↔ ∃ calls, after calls initial = c := by
  constructor
  · intro hc
    induction hc with
    | initial => exact ⟨[], rfl⟩
    | @declare c c' name h _ hd ih =>
      exact exists_after_of_perform (.declare name) ih
        (perform_eq_ok_iff.2 ⟨h, rfl, declare_eq_ok_iff.1 hd⟩)
    | @define c c' h kind _ hd ih =>
      exact exists_after_of_perform (.define h kind) ih
        (perform_eq_ok_iff.2 ⟨rfl, define_eq_ok_iff.1 hd⟩)
    | @register c c' e h _ hr ih =>
      exact exists_after_of_perform (.register e) ih
        (perform_eq_ok_iff.2 ⟨h, rfl, register_eq_ok_iff.1 hr⟩)
    | trySeal _ ht ih =>
      exact exists_after_of_perform .trySeal ih
        (perform_eq_ok_iff.2 ⟨rfl, trySeal_eq_ok_iff.1 ht⟩)
  · rintro ⟨calls, rfl⟩
    suffices h : ∀ c : Catalogue, c.Reachable → (after calls c).Reachable from h _ .initial
    induction calls with
    | nil => exact fun c hc => hc
    | cons call calls ih => exact fun c hc => ih _ (hc.next call)

end Marshal.Catalogue
