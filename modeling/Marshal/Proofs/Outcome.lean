import Mathlib.Data.List.Forall2

/-!
# Outcomes that are results

When a computation that may fail gives a result: each of its parts gave one.
-/

namespace Marshal.Outcome

variable {ε α β : Type}

theorem bind_eq_ok_iff {x : Except ε α} {f : α → Except ε β} {b : β} :
    x >>= f = .ok b ↔ ∃ a, x = .ok a ∧ f a = .ok b := by
  cases x <;> simp [bind, Except.bind]

theorem pure_eq_ok_iff {a b : α} : (pure a : Except ε α) = .ok b ↔ a = b := by
  simp [pure, Except.pure]

theorem throw_ne_ok {e : ε} {a : α} : (throw e : Except ε α) ≠ .ok a := by
  simp [throw, throwThe, MonadExceptOf.throw]

theorem toOption_eq_some_iff {x : Except ε α} {a : α} : x.toOption = some a ↔ x = .ok a := by
  cases x <;> simp [Except.toOption]

/-- A computation that may fail gives a result exactly when it gives no error. -/
theorem exists_eq_ok_iff {x : Except ε α} : (∃ a, x = .ok a) ↔ ¬ ∃ e, x = .error e := by
  cases x <;> simp

/-- A check made of every element passes when it passes each of them. -/
theorem forM_eq_ok_iff {l : List α} {f : α → Except ε PUnit} {u : PUnit} :
    l.forM f = .ok u ↔ ∀ a ∈ l, f a = .ok () := by
  induction l with
  | nil => simp [List.forM, pure, Except.pure]
  | cons a l ih =>
    rw [List.forM, bind_eq_ok_iff, List.forall_mem_cons, ← ih]
    exact ⟨fun ⟨_, ha, hl⟩ => ⟨ha, hl⟩, fun ⟨ha, hl⟩ => ⟨_, ha, hl⟩⟩

/-- The results for the elements of a list, in order. -/
theorem mapM_eq_ok_iff {l : List α} {f : α → Except ε β} {bs : List β} :
    l.mapM f = .ok bs ↔ List.Forall₂ (fun a b => f a = .ok b) l bs := by
  induction l generalizing bs with
  | nil =>
    rw [List.mapM_nil, pure_eq_ok_iff, List.forall₂_nil_left_iff]
    exact eq_comm
  | cons a l ih =>
    rw [List.mapM_cons, bind_eq_ok_iff]
    constructor
    · rintro ⟨b, hb, h⟩
      obtain ⟨bs', hbs, h⟩ := bind_eq_ok_iff.1 h
      obtain rfl := pure_eq_ok_iff.1 h
      exact .cons hb (ih.1 hbs)
    · rintro (_ | ⟨hb, hbs⟩)
      exact ⟨_, hb, bind_eq_ok_iff.2 ⟨_, ih.2 hbs, rfl⟩⟩

theorem bind_eq_error_iff {x : Except ε α} {f : α → Except ε β} {e : ε} :
    x >>= f = .error e ↔ x = .error e ∨ ∃ a, x = .ok a ∧ f a = .error e := by
  cases x <;> simp [bind, Except.bind]

theorem map_eq_ok_iff {x : Except ε α} {f : α → β} {b : β} :
    x.map f = .ok b ↔ ∃ a, x = .ok a ∧ f a = b := by
  cases x <;> simp [Except.map]

theorem map_eq_error_iff {x : Except ε α} {f : α → β} {e : ε} :
    x.map f = .error e ↔ x = .error e := by
  cases x <;> simp [Except.map]

/-- The result for an element that may be missing. -/
theorem option_mapM_eq_ok_iff {o : Option α} {f : α → Except ε β} {r : Option β} :
    o.mapM f = .ok r ↔ Option.Rel (fun a b => f a = .ok b) o r := by
  rcases o with _ | a
  · rcases r with _ | b <;> simp [Option.mapM_none, pure, Except.pure]
  · rcases r with _ | b <;> cases h : f a <;> simp [Option.mapM_some, h, Functor.map, Except.map]

theorem option_mapM_eq_error_iff {o : Option α} {f : α → Except ε β} {e : ε} :
    o.mapM f = .error e ↔ ∃ a, o = some a ∧ f a = .error e := by
  rcases o with _ | a
  · simp [Option.mapM_none, pure, Except.pure]
  · cases h : f a <;> simp [Option.mapM_some, h, Functor.map, Except.map]

/-- The error for the elements of a list is that of the first one that fails. -/
theorem mapM_eq_error_iff {l : List α} {f : α → Except ε β} {e : ε} :
    l.mapM f = .error e ↔
      ∃ before a after, l = before ++ a :: after ∧ (∀ x ∈ before, ∃ b, f x = .ok b) ∧
        f a = .error e := by
  induction l with
  | nil => simp [pure, Except.pure]
  | cons x l ih =>
    rw [List.mapM_cons, bind_eq_error_iff]
    simp only [bind_eq_error_iff, ih, List.cons_eq_append_iff]
    constructor
    · rintro (hx | ⟨b, hx, ⟨before, a, after, rfl, hbefore, ha⟩ | ⟨_, _, hl⟩⟩)
      · exact ⟨[], x, l, .inl ⟨rfl, rfl⟩, by simp, hx⟩
      · exact ⟨x :: before, a, after, .inr ⟨before, rfl, rfl⟩,
          List.forall_mem_cons.2 ⟨⟨b, hx⟩, hbefore⟩, ha⟩
      · cases hl
    · rintro ⟨before, a, after, ⟨rfl, e⟩ | ⟨before, rfl, rfl⟩, hbefore, ha⟩
      · cases e
        exact .inl ha
      · obtain ⟨⟨b, hb⟩, hbefore⟩ := List.forall_mem_cons.1 hbefore
        exact .inr ⟨b, hb, .inl ⟨before, a, after, rfl, hbefore, ha⟩⟩

/-- The values for the elements of a list, where each has one. -/
theorem mapM_eq_some_iff {l : List α} {f : α → Option β} {bs : List β} :
    l.mapM f = some bs ↔ List.Forall₂ (fun a b => f a = some b) l bs := by
  induction l generalizing bs with
  | nil => simp [eq_comm]
  | cons a l ih =>
    simp only [List.mapM_cons, Option.bind_eq_bind, Option.bind_eq_some_iff, Option.pure_def,
      Option.some.injEq, ih]
    constructor
    · rintro ⟨b, hb, bs', hbs, rfl⟩
      exact .cons hb hbs
    · rintro (_ | ⟨hb, hbs⟩)
      exact ⟨_, hb, _, hbs, rfl⟩

/-- A computation with a state goes on from where its first step ends. -/
theorem run_bind {σ : Type} {m : EStateM ε σ α} {f : α → EStateM ε σ β} {s s' : σ} {a : α}
    (h : m s = .ok a s') : (m >>= f) s = f a s' := by
  simp only [bind, EStateM.bind, h]

theorem run_bind_error {σ : Type} {m : EStateM ε σ α} {f : α → EStateM ε σ β} {s s' : σ} {e : ε}
    (h : m s = .error e s') : (m >>= f) s = .error e s' := by
  simp only [bind, EStateM.bind, h]

theorem run_bind_eq_ok_iff {σ : Type} {m : EStateM ε σ α} {f : α → EStateM ε σ β} {s s' : σ} {b : β} :
    (m >>= f) s = .ok b s' ↔ ∃ a s₁, m s = .ok a s₁ ∧ f a s₁ = .ok b s' := by
  simp only [bind, EStateM.bind]
  rcases m s with ⟨a, s₁⟩ | ⟨e, s₁⟩ <;> simp

theorem run_bind_eq_error_iff {σ : Type} {m : EStateM ε σ α} {f : α → EStateM ε σ β} {s s' : σ}
    {e : ε} : (m >>= f) s = .error e s' ↔
      m s = .error e s' ∨ ∃ a s₁, m s = .ok a s₁ ∧ f a s₁ = .error e s' := by
  simp only [bind, EStateM.bind]
  rcases m s with ⟨a, s₁⟩ | ⟨e, s₁⟩ <;> simp

/-! ## Lists related element by element -/

section Related

variable {R : α → β → Prop} {as : List α} {bs : List β}

theorem forall₂_exists_left (H : List.Forall₂ R as bs) {a : α} (ha : a ∈ as) : ∃ b ∈ bs, R a b := by
  induction H with
  | nil => simp at ha
  | cons hR _ ih =>
    rcases List.mem_cons.1 ha with rfl | ha
    · exact ⟨_, List.mem_cons_self, hR⟩
    · obtain ⟨b, hb, hR'⟩ := ih ha
      exact ⟨b, List.mem_cons_of_mem _ hb, hR'⟩

theorem forall₂_exists_right (H : List.Forall₂ R as bs) {b : β} (hb : b ∈ bs) : ∃ a ∈ as, R a b :=
  forall₂_exists_left H.flip hb

/-- What two lists related by `R` have in common under a relation on either side. -/
theorem exists_mem_congr (H : List.Forall₂ R as bs) {P : α → Prop} {Q : β → Prop}
    (hPQ : ∀ a ∈ as, ∀ b, R a b → (P a ↔ Q b)) : (∃ b ∈ bs, Q b) ↔ ∃ a ∈ as, P a := by
  constructor
  · rintro ⟨b, hb, hq⟩
    obtain ⟨a, ha, hR⟩ := forall₂_exists_right H hb
    exact ⟨a, ha, (hPQ a ha b hR).2 hq⟩
  · rintro ⟨a, ha, hp⟩
    obtain ⟨b, hb, hR⟩ := forall₂_exists_left H ha
    exact ⟨b, hb, (hPQ a ha b hR).1 hp⟩

/-- What relates the pairs of a list relates those of a list related to it. -/
theorem forall₂_pairwise {S : α → α → Prop} {T : β → β → Prop} (H : List.Forall₂ R as bs)
    (hT : ∀ a ∈ as, ∀ a' ∈ as, S a a' → ∀ b b', R a b → R a' b' → T b b') (hS : as.Pairwise S) :
    bs.Pairwise T := by
  induction H with
  | nil => exact .nil
  | @cons a b as bs hR H ih =>
    obtain ⟨ha, has⟩ := List.pairwise_cons.1 hS
    refine List.pairwise_cons.2 ⟨fun b' hb' => ?_, ih (fun a ha a' ha' =>
      hT a (List.mem_cons_of_mem _ ha) a' (List.mem_cons_of_mem _ ha')) has⟩
    obtain ⟨a', ha', hR'⟩ := forall₂_exists_right H hb'
    exact hT a List.mem_cons_self a' (List.mem_cons_of_mem _ ha') (ha a' ha') b b' hR hR'

/-- Relations between lists element by element compose. -/
theorem forall₂_trans {γ : Type} {S : β → γ → Prop} {T : α → γ → Prop} {cs : List γ}
    (hT : ∀ a b c, R a b → S b c → T a c) (H : List.Forall₂ R as bs) (H' : List.Forall₂ S bs cs) :
    List.Forall₂ T as cs := by
  induction H generalizing cs with
  | nil =>
    cases H'
    exact .nil
  | cons hR _ ih =>
    cases H' with
    | cons hS H' => exact .cons (hT _ _ _ hR hS) (ih H')

end Related

/-- Where every element is related to something, a list is related to another. -/
theorem exists_forall₂ {R : α → β → Prop} {l : List α} (h : ∀ a ∈ l, ∃ b, R a b) :
    ∃ bs, List.Forall₂ R l bs := by
  induction l with
  | nil => exact ⟨[], .nil⟩
  | cons a as ih =>
    obtain ⟨ha, has⟩ := List.forall_mem_cons.1 h
    obtain ⟨b, hb⟩ := ha
    obtain ⟨bs, hbs⟩ := ih has
    exact ⟨b :: bs, .cons hb hbs⟩

theorem exists_forall₂_iff {R : α → β → Prop} {as : List α} :
    (∃ bs, List.Forall₂ R as bs) ↔ ∀ a ∈ as, ∃ b, R a b := by
  constructor
  · rintro ⟨bs, H⟩ a ha
    obtain ⟨b, -, hb⟩ := forall₂_exists_left H ha
    exact ⟨b, hb⟩
  · exact exists_forall₂

/-! ## Results, whatever the errors are -/

theorem toOption_ok (a : α) : (.ok a : Except ε α).toOption = some a := rfl

theorem toOption_error (e : ε) : (.error e : Except ε α).toOption = none := rfl

theorem eq_ok_iff_of_toOption_eq {x y : Except ε α} (h : x.toOption = y.toOption) (a : α) :
    x = .ok a ↔ y = .ok a := by
  rw [← toOption_eq_some_iff, h, toOption_eq_some_iff]

theorem toOption_bind (x : Except ε α) (f : α → Except ε β) :
    (x >>= f).toOption = x.toOption >>= fun a => (f a).toOption := by
  cases x <;> rfl

theorem toOption_mapM (l : List α) (f : α → Except ε β) :
    (l.mapM f).toOption = l.mapM fun a => (f a).toOption := by
  induction l with
  | nil => rfl
  | cons a l ih =>
    simp only [List.mapM_cons, toOption_bind, ih]
    rfl

theorem toOption_foldlM (l : List α) (f : β → α → Except ε β) (b : β) :
    (l.foldlM f b).toOption = l.foldlM (fun b a => (f b a).toOption) b := by
  induction l generalizing b with
  | nil => rfl
  | cons a l ih => simp only [List.foldlM_cons, toOption_bind, ih]

/-- An element may be replaced by one with the same result. -/
theorem toOption_mapM_replace {f : α → Except ε β} {x y : α} (before after : List α)
    (h : (f x).toOption = (f y).toOption) :
    ((before ++ x :: after).mapM f).toOption = ((before ++ y :: after).mapM f).toOption := by
  rw [toOption_mapM, toOption_mapM]
  simp only [List.mapM_append, List.mapM_cons, h]

/-- A step may be replaced by one with the same result. -/
theorem toOption_foldlM_replace {f : β → α → Except ε β} {x y : α} (before after : List α)
    (h : ∀ b, (f b x).toOption = (f b y).toOption) (b : β) :
    ((before ++ x :: after).foldlM f b).toOption = ((before ++ y :: after).foldlM f b).toOption := by
  rw [toOption_foldlM, toOption_foldlM]
  simp only [List.foldlM_append, List.foldlM_cons, h]

/-- Steps with the same results, one by one. -/
theorem toOption_foldlM_congr {R : α → α → Prop} {f : β → α → Except ε β} {as bs : List α}
    (h : List.Forall₂ R as bs) (hf : ∀ b x y, R x y → (f b x).toOption = (f b y).toOption) (b : β) :
    (as.foldlM f b).toOption = (bs.foldlM f b).toOption := by
  rw [toOption_foldlM, toOption_foldlM]
  induction h generalizing b with
  | nil => rfl
  | cons hxy _ ih =>
    rw [List.foldlM_cons, List.foldlM_cons, hf _ _ _ hxy]
    exact bind_congr fun b => ih b

/-- Elements with the same results, one by one. -/
theorem toOption_mapM_congr {R : α → α → Prop} {f : α → Except ε β} {as bs : List α}
    (h : List.Forall₂ R as bs) (hf : ∀ x y, R x y → (f x).toOption = (f y).toOption) :
    (as.mapM f).toOption = (bs.mapM f).toOption := by
  rw [toOption_mapM, toOption_mapM]
  induction h with
  | nil => rfl
  | cons hxy _ ih => rw [List.mapM_cons, List.mapM_cons, hf _ _ hxy, ih]

/-! ## Outcomes that are alike -/

/-- Two outcomes are alike: results that are related, or the same error. -/
inductive Alike (R : α → β → Prop) : Except ε α → Except ε β → Prop where
  | ok {a : α} {b : β} : R a b → Alike R (.ok a) (.ok b)
  | error (e : ε) : Alike R (.error e) (.error e)

variable {γ δ : Type} {R : α → β → Prop}

theorem Alike.bind_eq {x : Except ε α} {y : Except ε β} {f : α → Except ε γ} {g : β → Except ε γ}
    (h : Alike R x y) (hfg : ∀ a b, R a b → f a = g b) : x >>= f = y >>= g := by
  cases h with
  | ok hab => exact hfg _ _ hab
  | error => rfl

section Monad

variable {m : Type → Type} [Monad m] {as : List α} {bs : List β}

theorem foldlM_eq_of_forall₂ {f : γ → α → m γ} {g : γ → β → m γ} (h : List.Forall₂ R as bs)
    (hfg : ∀ c a b, R a b → f c a = g c b) (c : γ) : as.foldlM f c = bs.foldlM g c := by
  induction h generalizing c with
  | nil => rfl
  | cons hab _ ih =>
    rw [List.foldlM_cons, List.foldlM_cons, hfg _ _ _ hab]
    exact bind_congr fun c => ih c

theorem mapM_eq_of_forall₂ [LawfulMonad m] {f : α → m γ} {g : β → m γ} (h : List.Forall₂ R as bs)
    (hfg : ∀ a b, R a b → f a = g b) : as.mapM f = bs.mapM g := by
  induction h with
  | nil => rfl
  | cons hab _ ih => rw [List.mapM_cons, List.mapM_cons, hfg _ _ hab, ih]

end Monad

end Marshal.Outcome
