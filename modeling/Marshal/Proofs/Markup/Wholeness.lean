import Marshal.Proofs.Markup.Survival
import Marshal.Proofs.Markup.Walk
import Marshal.Proofs.Wire.Soundness
import Marshal.Proofs.Wire.Subtypes

/-!
# What is read of markup is whole

In markup only the value of an entry can be missing: whatever else is read stands in an element or an
attribute. So whatever the document, an object that is read of it holds no nulls, a list holds none,
and no flattened sequence is empty (`Document.whole_of_read_xml`): none of the losses of writing markup
can happen to it. The proof follows the cursor of the reader, which stands on a missing value only
after `nextEntry`, and on nothing once a value was read (`Reads`).
-/

namespace Marshal

open Catalogue Decode Outcome

/-! ## Whole values -/

namespace Catalogue

variable {c : Catalogue} {r : Reference} {v : Value} {m : Bool} {vs : List Value}
  {es fields : List (String × Value)} {h t : Handle}

/-- **Nothing in a value is lost in markup**, and every object in it is recognised in its slot. -/
structure Whole (c : Catalogue) (r : Reference) (v : Value) : Prop where
  objects : ∀ h t fields, c.Inside .xml (.named h) (.object t fields) r v →
    c.Selects h t ∧ c.Definite t fields
  lists : ∀ r' vs, c.Inside .xml r' (.list vs) r v → .null ∉ vs

namespace Whole

theorem null (c : Catalogue) (r : Reference) : c.Whole r .null where
  objects _ _ _ hin := by cases hin
  lists _ _ hin := by cases hin

theorem of_holds {kind : Primitive} (hv : kind.Holds v) (r : Reference) : c.Whole r v := by
  constructor
  · intro h t fields hin
    cases hin <;> first | exact absurd hv Primitive.not_holds_object | cases kind <;> cases hv
  · intro r' vs hin
    cases hin <;> first | exact absurd hv Primitive.not_holds_list | cases kind <;> cases hv

theorem enum (c : Catalogue) (r : Reference) (x : EnumValue) : c.Whole r (.enum x) where
  objects _ _ _ hin := by cases hin
  lists _ _ hin := by cases hin

theorem list (h : ∀ v ∈ vs, c.Whole r v ∧ v ≠ .null) :
    c.Whole (.collection .sequence r m) (.list vs) where
  objects _ _ _ hin := by
    cases hin with
    | item hv hin => exact (h _ hv).1.objects _ _ _ hin
  lists _ _ hin := by
    cases hin with
    | refl => exact fun hnull => (h _ hnull).2 rfl
    | item hv hin => exact (h _ hv).1.lists _ _ hin

theorem map (h : ∀ k v, (k, v) ∈ es → c.Whole r v) :
    c.Whole (.collection .mapping r m) (.map es) where
  objects _ _ _ hin := by
    cases hin with
    | entry hv hin => exact (h _ _ hv).objects _ _ _ hin
  lists _ _ hin := by
    cases hin with
    | entry hv hin => exact (h _ _ hv).lists _ _ hin

theorem object (hsel : c.Selects h t) (hdef : c.Definite t fields)
    (field : ∀ p ∈ c.plannedProperties t, p.carrier = false → ∀ v,
      Table.find? fields p.name = some v → c.Whole p.type v)
    (extra : ∀ p ∈ c.plannedProperties t, p.carrier = true → ∀ r m,
      p.type = .collection .mapping r m → ∀ es, Table.find? fields p.name = some (.map es) →
        ∀ k v, (k, v) ∈ es → c.Whole r v) : c.Whole (.named h) (.object t fields) where
  objects _ _ _ hin := by
    cases hin with
    | refl => exact ⟨hsel, hdef⟩
    | field hp hc _ hv hin => exact (field _ hp hc _ hv).objects _ _ _ hin
    | extra hp hc htype hes hv _ hin => exact (extra _ hp hc _ _ htype _ hes _ _ hv).objects _ _ _ hin
  lists _ _ hin := by
    cases hin with
    | field hp hc _ hv hin => exact (field _ hp hc _ hv).lists _ _ hin
    | extra hp hc htype hes hv _ hin => exact (extra _ hp hc _ _ htype _ hes _ _ hv).lists _ _ hin

/-- The items of a whole list. -/
theorem item (H : c.Whole (.collection .sequence r m) (.list vs)) (hv : v ∈ vs) :
    c.Whole r v ∧ v ≠ .null := by
  refine ⟨⟨fun _ _ _ hin => H.objects _ _ _ (.item hv hin), fun _ _ hin => H.lists _ _ (.item hv hin)⟩, ?_⟩
  rintro rfl
  exact H.lists _ _ .refl hv

/-- What a whole object captured. -/
theorem extra (H : c.Whole (.named h) (.object t fields)) {p : Property}
    (hp : p ∈ c.plannedProperties t) (hc : p.carrier = true) (htype : p.type = .collection .mapping r m)
    (hes : Table.find? fields p.name = some (.map es)) {k : String} (hv : (k, v) ∈ es)
    (hk : ∀ q ∈ c.plannedProperties t, q.carrier = false → wireName .xml q ≠ k) :
    c.Whole r v ∧ v ≠ .null := by
  refine ⟨⟨fun _ _ _ hin => H.objects _ _ _ (.extra hp hc htype hes hv hk hin),
    fun _ _ hin => H.lists _ _ (.extra hp hc htype hes hv hk hin)⟩, ?_⟩
  rintro rfl
  exact (H.objects _ _ _ .refl).2.captured p hp hc es hes k hv

theorem append {ws : List Value} (hv : c.Whole (.collection .sequence r m) (.list vs))
    (hw : c.Whole (.collection .sequence r m) (.list ws)) :
    c.Whole (.collection .sequence r m) (.list (vs ++ ws)) :=
  list fun _ h => (List.mem_append.1 h).elim hv.item hw.item

end Whole

end Catalogue

/-! ## The cursor -/

namespace Markup.Reader

variable {r r' : Reader}

theorem pull_cursor {α : Type} {f : Lexer → Lexed α} {a : α} (h : pull f r = .ok a r') :
    r'.cursor = r.cursor := by
  unfold pull at h
  split at h <;> cases h
  rfl

theorem discard_cursor {u : Unit} (h : discard r = .ok u r') : r'.cursor = .vacant := by
  obtain ⟨lx, cursor, stack⟩ := r
  cases cursor with
  | element head => exact pull_cursor (r := ⟨lx, .vacant, stack⟩) h
  | _ =>
    cases h
    rfl

theorem discard_ne_null {u : Unit} (h : discard r = .ok u r') : r'.cursor ≠ .null := by
  rw [discard_cursor h]
  exact fun he => by cases he

theorem takeElement_ne_null {what : String} {head : Head} (h : takeElement what r = .ok head r') :
    r'.cursor ≠ .null := by
  obtain ⟨lx, cursor, stack⟩ := r
  cases cursor with
  | element head =>
    cases h
    exact fun he => by cases he
  | _ => cases h

theorem advance_ne_null {x : Option Head} (h : advance r = .ok x r') (hr : r.cursor ≠ .null) :
    r'.cursor ≠ .null := by
  obtain ⟨child, r₁, hpull, h⟩ := run_bind_eq_ok_iff.1 h
  cases child with
  | some head =>
    cases h
    exact fun he => by cases he
  | none =>
    cases h
    show r₁.cursor ≠ .null
    rwa [pull_cursor hpull]

/-- A field stands in an attribute or an element. -/
theorem nextKey_ne_null {x : Option (String × Placement)} (h : nextKey r = .ok x r') :
    r'.cursor ≠ .null := by
  obtain ⟨_, r₁, hdiscard, h⟩ := run_bind_eq_ok_iff.1 h
  have hr := discard_ne_null hdiscard
  obtain ⟨lx, cursor, _ | ⟨part, rest⟩⟩ := r₁
  · cases h
  cases part with
  | object attributes isEmpty =>
    rcases attributes with _ | ⟨⟨name, value⟩, attributes⟩
    · cases isEmpty with
      | true =>
        cases h
        exact hr
      | false =>
        obtain ⟨_, _, hget, h⟩ := run_bind_eq_ok_iff.1 h
        cases hget
        obtain ⟨child, r₂, hadvance, h⟩ := run_bind_eq_ok_iff.1 h
        cases h
        exact advance_ne_null hadvance hr
    · cases h
      exact fun he => by cases he
  | _ => cases h

/-- An item stands in an element. -/
theorem nextElement_ne_null {b : Bool} (h : nextElement r = .ok b r') (hr : r.cursor ≠ .null) :
    r'.cursor ≠ .null := by
  have hdone : ∀ {r : Reader}, (discard >>= fun _ => leave >>= fun _ => pure false :
      Reading Reader Bool) r = .ok b r' → r'.cursor ≠ .null := by
    intro r h
    obtain ⟨_, r₁, hdiscard, h⟩ := run_bind_eq_ok_iff.1 h
    have hr := discard_ne_null hdiscard
    cases h
    exact hr
  obtain ⟨lx, cursor, _ | ⟨part, rest⟩⟩ := r
  · cases h
  cases part with
  | flattened yielded =>
    cases yielded with
    | false =>
      cases h
      exact hr
    | true => exact hdone h
  | wrapped isEmpty =>
    cases isEmpty with
    | true => exact hdone h
    | false =>
      obtain ⟨_, _, hget, h⟩ := run_bind_eq_ok_iff.1 h
      cases hget
      obtain ⟨_, r₁, hdiscard, h⟩ := run_bind_eq_ok_iff.1 h
      obtain ⟨child, r₂, hadvance, h⟩ := run_bind_eq_ok_iff.1 h
      cases h
      exact advance_ne_null hadvance (discard_ne_null hdiscard)
  | _ => cases h

/-- A flattened sequence that has been entered has an item. -/
theorem nextElement_flattened {b : Bool} {rest : List OpenPart}
    (h : nextElement r = .ok b r') (hr : r.stack = .flattened false :: rest) : b = true := by
  obtain ⟨lx, cursor, stack⟩ := r
  obtain rfl : stack = .flattened false :: rest := hr
  cases h
  rfl

theorem closeEntry_cursor {u : Unit} (h : closeEntry r = .ok u r') : r'.cursor = r.cursor := by
  obtain ⟨lx, cursor, _ | ⟨part, rest⟩⟩ := r
  · cases h
    rfl
  cases part with
  | entryTail => exact pull_cursor (r := ⟨lx, cursor, rest⟩) h
  | _ =>
    cases h
    rfl

/-- Behind a mapping the cursor stands on nothing. -/
theorem nextEntry_none_ne_null (h : nextEntry r = .ok none r') : r'.cursor ≠ .null := by
  obtain ⟨_, r₁, hdiscard, h⟩ := run_bind_eq_ok_iff.1 h
  obtain ⟨_, r₂, hclose, h⟩ := run_bind_eq_ok_iff.1 h
  have hr : r₂.cursor ≠ .null := by
    rw [closeEntry_cursor hclose]
    exact discard_ne_null hdiscard
  obtain ⟨lx, cursor, _ | ⟨part, rest⟩⟩ := r₂
  · cases h
  cases part with
  | mapping isEmpty =>
    cases isEmpty with
    | true =>
      cases h
      exact hr
    | false =>
      obtain ⟨_, _, hget, h⟩ := run_bind_eq_ok_iff.1 h
      cases hget
      obtain ⟨child, r₃, hpull, h⟩ := run_bind_eq_ok_iff.1 h
      cases child with
      | none =>
        cases h
        show r₃.cursor ≠ .null
        rwa [pull_cursor hpull]
      | some head =>
        dsimp only at h
        split at h
        · cases h
        · obtain ⟨⟨key, value⟩, r₄, _, h⟩ := run_bind_eq_ok_iff.1 h
          cases value <;> cases h
  | _ => cases h

theorem scalar_ne_null {t : Token} (h : scalar r = .ok t r') : r'.cursor ≠ .null := by
  obtain ⟨lx, cursor, stack⟩ := r
  cases cursor with
  | «attribute» value =>
    cases h
    exact fun he => by cases he
  | element head =>
    obtain ⟨_, _, htake, h⟩ := run_bind_eq_ok_iff.1 h
    cases htake
    obtain ⟨text, r₁, hpull, h⟩ := run_bind_eq_ok_iff.1 h
    cases h
    rw [pull_cursor hpull]
    exact fun he => by cases he
  | _ => cases h

theorem beginContainer_ne_null {k : Container} {u : Unit} (h : beginContainer k r = .ok u r') :
    r'.cursor ≠ .null := by
  have htake : ∀ {what : String} {part : Head → OpenPart}, (takeElement what >>= fun head =>
      push (part head) : Reading Reader Unit) r = .ok u r' → r'.cursor ≠ .null := by
    intro what part h
    obtain ⟨head, r₁, htake, h⟩ := run_bind_eq_ok_iff.1 h
    have hr := takeElement_ne_null htake
    cases h
    exact hr
  cases k with
  | sequence name isFlattened =>
    cases isFlattened with
    | false => exact htake h
    | true =>
      obtain ⟨lx, cursor, stack⟩ := r
      cases cursor with
      | element head =>
        cases h
        exact fun he => by cases he
      | _ => cases h
  | mapping => exact htake h

theorem beginContainer_flattened {name : String} {u : Unit}
    (h : beginContainer (.sequence name true) r = .ok u r') :
    ∃ rest, r'.stack = .flattened false :: rest := by
  obtain ⟨lx, cursor, stack⟩ := r
  cases cursor with
  | element head =>
    cases h
    exact ⟨_, rfl⟩
  | _ => cases h

/-- Nothing is null unless the cursor stands on a missing value. -/
theorem isNull_eq_ok {b : Bool} (h : (Source.isNull : Reading Reader Bool) r = .ok b r') :
    b = true ∧ r.cursor = .null ∧ r'.cursor ≠ .null ∨ b = false ∧ r.cursor ≠ .null ∧ r' = r := by
  obtain ⟨lx, cursor, stack⟩ := r
  cases cursor with
  | null =>
    cases h
    exact .inl ⟨rfl, rfl, fun he => by cases he⟩
  | _ =>
    cases h
    exact .inr ⟨rfl, (fun he => by cases he), rfl⟩

end Markup.Reader

/-! ## Decoding -/

namespace Decode

open Markup Markup.Reader

variable {c : Catalogue} {f : Format} {s : PlanSet} {t : Handle} {o : ObjectType} {plan : TypePlan}
  {scan scan' : Scan} {i : Instance} {p : Property}

/-- **What is read between two states of a reader**: a whole value, and none that is null unless the
cursor stood on a missing value; behind it the cursor stands on nothing. -/
structure Reads (c : Catalogue) (l : Layout) (r : Reference) (st st' : Reader) (v : Value) : Prop where
  whole : c.Whole r v
  present : st.cursor ≠ .null → v ≠ .null
  filled : l = .flattened → v ≠ .list []
  behind : st'.cursor ≠ .null

/-- A reader of values that reads whole ones. -/
def InnerReads (c : Catalogue) (inner : Inner Reader) : Prop :=
  ∀ {l : Layout} {r : Reference} {shape : Shape} {allowed : Bool} {name : String} {st st' : Reader}
    {v : Value}, c.Forms l r shape → inner shape allowed name st = .ok v st' → Reads c l r st st' v

section Loops

variable {st st' : Reader} {l : Layout} {r : Reference}

theorem items_reads {inner : Reading Reader Value}
    (hi : ∀ {st st' v}, inner st = .ok v st' → Reads c l r st st' v) {fuel : Nat} {vs : List Value}
    (h : items inner fuel st = .ok vs st') (hst : st.cursor ≠ .null) :
    (∀ v ∈ vs, c.Whole r v ∧ v ≠ .null) ∧ st'.cursor ≠ .null := by
  induction fuel generalizing st vs with
  | zero => cases h
  | succ fuel ih =>
    obtain ⟨more, st₁, hnext, h⟩ := run_bind_eq_ok_iff.1 h
    have hst₁ := nextElement_ne_null hnext hst
    cases more with
    | false =>
      cases h
      exact ⟨by simp, hst₁⟩
    | true =>
      obtain ⟨v, st₂, hv, h⟩ := run_bind_eq_ok_iff.1 h
      obtain ⟨vs, st₃, hvs, h⟩ := run_bind_eq_ok_iff.1 h
      cases h
      have hread := hi hv
      obtain ⟨hall, hst'⟩ := ih hvs hread.behind
      exact ⟨List.forall_mem_cons.2 ⟨⟨hread.whole, hread.present hst₁⟩, hall⟩, hst'⟩

/-- A flattened sequence is not empty. -/
theorem items_ne_nil {inner : Reading Reader Value} {fuel : Nat} {vs : List Value}
    {rest : List OpenPart} (h : items inner fuel st = .ok vs st')
    (hst : st.stack = .flattened false :: rest) : vs ≠ [] := by
  cases fuel with
  | zero => cases h
  | succ fuel =>
    obtain ⟨more, st₁, hnext, h⟩ := run_bind_eq_ok_iff.1 h
    obtain rfl := nextElement_flattened hnext hst
    obtain ⟨v, st₂, -, h⟩ := run_bind_eq_ok_iff.1 h
    obtain ⟨vs, st₃, -, h⟩ := run_bind_eq_ok_iff.1 h
    cases h
    exact List.cons_ne_nil _ _

theorem entries_reads {inner : String → Reading Reader Value}
    (hi : ∀ {key st st' v}, inner key st = .ok v st' → Reads c l r st st' v) {fuel : Nat}
    {table es : List (String × Value)} (h : entries inner fuel table st = .ok es st')
    (ht : ∀ k v, (k, v) ∈ table → c.Whole r v) :
    (∀ k v, (k, v) ∈ es → c.Whole r v) ∧ st'.cursor ≠ .null := by
  induction fuel generalizing st table with
  | zero => cases h
  | succ fuel ih =>
    obtain ⟨next, st₁, hnext, h⟩ := run_bind_eq_ok_iff.1 h
    cases next with
    | none =>
      cases h
      exact ⟨ht, nextEntry_none_ne_null hnext⟩
    | some key =>
      obtain ⟨v, st₂, hv, h⟩ := run_bind_eq_ok_iff.1 h
      refine ih h fun k w hw => ?_
      rcases Table.mem_insert hw with he | hw
      · cases he
        exact (hi hv).whole
      · exact ht k w hw

end Loops

/-! ### Objects -/

/-- **The invariant of a scan**: nothing that it holds is lost in markup. -/
structure Scan.Whole (c : Catalogue) (t : Handle) (scan : Scan) : Prop where
  fields : ∀ k v, Table.find? scan.fields k = some v →
    ∃ p ∈ c.plannedProperties t, p.carrier = false ∧ p.name = k ∧ c.Whole p.type v ∧ v ≠ .null ∧
      (layoutIn .xml p = .flattened → v ≠ .list [])
  extra : ∀ p ∈ c.plannedProperties t, p.carrier = true → ∀ r m,
    p.type = .collection .mapping r m → ∀ k v, (k, v) ∈ scan.extra → c.Whole r v ∧ v ≠ .null

theorem Scan.whole_empty : Scan.Whole c t ⟨[], []⟩ where
  fields := by simp [Table.find?_nil]
  extra := by simp

theorem Scan.Whole.assign (hs : scan.Whole c t) (W : c.WellFormed) (ho : c.object? t = some o)
    (hp : p ∈ c.plannedProperties t) (hc : p.carrier = false) {a : Action} (ha : a.property = p.name)
    (hshape : c.Forms (layoutIn .xml p) p.type a.shape) {v : Value} (hv : c.Whole p.type v)
    (hne : v ≠ .null) (hfilled : layoutIn .xml p = .flattened → v ≠ .list []) :
    (scan.assign a v).Whole c t := by
  have hstore : ∀ w, c.Whole p.type w → w ≠ .null → (layoutIn .xml p = .flattened → w ≠ .list []) →
      Scan.Whole c t { scan with fields := Table.insert scan.fields p.name w } := by
    intro w hw hne hfilled
    refine ⟨fun k u hu => ?_, hs.extra⟩
    rw [Table.find?_insert] at hu
    split at hu
    · rename_i hk
      cases hu
      exact ⟨p, hp, hc, hk.symm, hw, hne, hfilled⟩
    · exact hs.fields k u hu
  unfold Scan.assign
  rw [ha]
  dsimp only
  split
  · rename_i earlier more hfound
    by_cases hflat : a.shape.isFlattened = true
    · -- siblings are joined to the list of those before them
      obtain ⟨r, m, element, -, htype, -, -⟩ := hshape.exists_flattened hflat
      obtain ⟨q, hq, -, hqn, hearlier, -, hsome⟩ := hs.fields _ _ hfound
      obtain rfl := W.eq_of_name ho hq hp hqn
      rw [htype] at hearlier hv
      rw [if_pos hflat]
      refine hstore _ (htype ▸ hearlier.append hv) (fun he => by cases he) fun hl he => hsome hl ?_
      rw [(List.append_eq_nil_iff.1 (Value.list.inj he)).1]
    · rw [if_neg hflat]
      exact hstore _ hv hne hfilled
  · exact hstore _ hv hne hfilled

/-- **A step of the scan.** -/
theorem field_reads (W : c.WellFormed) (ho : c.object? t = some o) (hplan : c.Plans .xml t o plan)
    {inner : Inner Reader} (hi : InnerReads c inner) (hs : scan.Whole c t) {key : String}
    {placement : Placement} {st st' : Reader}
    (h : field inner plan scan key placement st = .ok scan' st') (hst : st.cursor ≠ .null) :
    scan'.Whole c t := by
  obtain ⟨a, v, ha, hv, rfl⟩ | ⟨-, target, v, htarget, hv, rfl⟩ | ⟨-, -, rfl⟩ := field_eq_ok h
  · obtain ⟨hfind, -⟩ := Option.filter_eq_some_iff.1 ha
    obtain ⟨p, hp, hc, -, shape, hshape, -, rfl⟩ := (hplan.actions key a).1 hfind
    have hread := hi hshape hv
    exact hs.assign W ho hp hc rfl hshape hread.whole (hread.present hst) hread.filled
  · obtain ⟨p, hp, hc, r, shape, m, htype, hshape, rfl⟩ := (hplan.carrier target).1 htarget
    have hread := hi hshape hv
    refine ⟨hs.fields, fun q hq hqc r' m' htype' k u hu => ?_⟩
    obtain rfl := W.eq_of_carrier ho hp hc hq hqc
    obtain ⟨-, rfl, rfl⟩ := Reference.collection.inj (htype.symm.trans htype')
    rcases Table.mem_insert hu with he | hu
    · cases he
      exact ⟨hread.whole, hread.present hst⟩
    · exact hs.extra p hp hc r m htype k u hu
  · exact hs

theorem fields_reads (W : c.WellFormed) (ho : c.object? t = some o) (hplan : c.Plans .xml t o plan)
    {inner : Inner Reader} (hi : InnerReads c inner) {fuel : Nat} (hs : scan.Whole c t)
    {st st' : Reader} (h : fields inner plan fuel scan st = .ok scan' st') :
    scan'.Whole c t ∧ st'.cursor ≠ .null := by
  induction fuel generalizing scan st with
  | zero => cases h
  | succ fuel ih =>
    obtain ⟨next, st₁, hnext, h⟩ := run_bind_eq_ok_iff.1 h
    have hst₁ := nextKey_ne_null hnext
    rcases next with _ | ⟨key, placement⟩
    · cases h
      exact ⟨hs, hst₁⟩
    · obtain ⟨scan₁, st₂, hfield, h⟩ := run_bind_eq_ok_iff.1 h
      exact ih (field_reads W ho hplan hi hs hfield hst₁) h

/-- **An object made of a whole scan** is whole. -/
theorem Scan.Whole.make (hs : scan.Whole c t) (W : c.WellFormed) (ho : c.object? t = some o)
    (hplan : c.Plans f t o plan) {h : Handle} (hsel : c.Selects h t) (hm : scan.make plan = .ok i) :
    c.Whole (.named h) i.toValue := by
  have hfield : ∀ {p v}, p ∈ c.plannedProperties t → p.carrier = false →
      Table.find? i.fields p.name = some v →
        c.Whole p.type v ∧ v ≠ .null ∧ (layoutIn .xml p = .flattened → v ≠ .list []) := by
    intro p v hp hc hv
    rw [find?_of_make hplan hm hp, find?_gathered W ho hplan hp hc] at hv
    obtain ⟨q, hq, -, hqn, hwhole⟩ := hs.fields _ _ hv
    obtain rfl := W.eq_of_name ho hq hp hqn
    exact hwhole
  have hextra : ∀ {p v}, p ∈ c.plannedProperties t → p.carrier = true →
      Table.find? i.fields p.name = some v → v = .map scan.extra := by
    intro p v hp hc hv
    rw [eq_map_of_make hplan hm hp hc] at hv
    · split at hv
      · cases hv
      · exact (Option.some.inj hv).symm
    · refine Option.eq_none_iff_forall_ne_some.2 fun u hu => ?_
      obtain ⟨q, hq, hqc, hqn, -⟩ := hs.fields _ _ hu
      obtain rfl := W.eq_of_name ho hq hp hqn
      simp [hc] at hqc
  have htype : i.type = t := (type_of_make hm).trans hplan.type
  rw [Instance.toValue, htype]
  refine .object hsel ⟨fun k hk => ?_, fun p hp hl hv => ?_, fun p hp hc es hes k hk => ?_⟩
    (fun p hp hc v hv => (hfield hp hc hv).1) fun p hp hc r m hr es hes k v hkv => ?_
  · obtain ⟨p, hp, rfl, hfound⟩ := exists_of_mem_make hplan hm hk
    cases hc : p.carrier with
    | false => exact (hfield hp hc hfound).2.1 rfl
    | true => cases hextra hp hc hfound
  · cases hc : p.carrier with
    | false => exact (hfield hp hc hv).2.2 hl rfl
    | true => cases hextra hp hc hv
  · obtain rfl := Value.map.inj (hextra hp hc hes)
    obtain ⟨r, m, hr⟩ := W.exists_mapping_of_carrier hp hc
    exact (hs.extra p hp hc r m hr k _ hk).2 rfl
  · obtain rfl := Value.map.inj (hextra hp hc hes)
    exact (hs.extra p hp hc r m hr k v hkv).1

theorem object_reads (P : c.PlannedBy .xml s) {inner : Inner Reader} (hi : InnerReads c inner)
    {h : Handle} {st st' : Reader} (hr : Decode.object s inner h st = .ok i st') :
    c.Whole (.named h) i.toValue ∧ st'.cursor ≠ .null := by
  obtain ⟨declared, _, hdeclared, hr⟩ := run_bind_eq_ok_iff.1 hr
  obtain ⟨_, st₁, -, hr⟩ := run_bind_eq_ok_iff.1 hr
  obtain ⟨plan, st₂, hconcrete, hr⟩ := run_bind_eq_ok_iff.1 hr
  obtain ⟨_, _, hget, hr⟩ := run_bind_eq_ok_iff.1 hr
  cases hget
  obtain ⟨scan, st₃, hfields, hr⟩ := run_bind_eq_ok_iff.1 hr
  have htype := typePlan_eq_ok_iff.1 (Reading.lift_eq_ok_iff.1 hdeclared).1
  obtain ⟨t, ht, hsel⟩ := concretePlan_yields P htype _ _ _ hconcrete
  obtain ⟨o, ho, hplan⟩ := P.plans ht
  obtain ⟨hscan, hst⟩ := fields_reads P.wellFormed ho hplan hi Scan.whole_empty hfields
  obtain ⟨hmake, rfl⟩ := Reading.lift_eq_ok_iff.1 hr
  exact ⟨hscan.make P.wellFormed ho hplan hsel hmake, hst⟩

/-! ### Values -/

theorem shaped_reads (P : c.PlannedBy .xml s) {inner : Option (Inner Reader)}
    (hi : ∀ i, inner = some i → InnerReads c i) {l : Layout} {r : Reference} {shape : Shape}
    (hshape : c.Forms l r shape) {name : String} {st st' : Reader} {v : Value}
    (h : shaped s inner shape name st = .ok v st') :
    Reads c l r st st' v := by
  cases hshape with
  | primitive hk =>
    obtain ⟨token, st₁, hscalar, h⟩ := run_bind_eq_ok_iff.1 h
    obtain ⟨hv, rfl⟩ := Reading.lift_eq_ok_iff.1 h
    have hholds := toValue_holds hv
    refine ⟨.of_holds hholds _, fun _ => ?_, fun _ => ?_, scalar_ne_null hscalar⟩
    · rintro rfl
      exact absurd hholds Primitive.not_holds_null
    · rintro rfl
      exact absurd hholds Primitive.not_holds_list
  | enumeration hk =>
    obtain ⟨x, rfl, -⟩ := enumeration_yields P hk name _ _ _ h
    rw [shaped, enumeration, P.enum?_eq_some_iff.2 ⟨_, hk, rfl⟩] at h
    obtain ⟨token, st₁, hscalar, h⟩ := run_bind_eq_ok_iff.1 h
    obtain ⟨-, rfl⟩ := Reading.lift_eq_ok_iff.1 h
    exact ⟨.enum c _ x, (fun _ he => by cases he), (fun _ he => by cases he), scalar_ne_null hscalar⟩
  | object ho =>
    cases inner with
    | none => cases h
    | some inner =>
      obtain ⟨i, st₁, hobject, h⟩ := run_bind_eq_ok_iff.1 h
      cases h
      obtain ⟨hwhole, hst'⟩ := object_reads P (hi _ rfl) hobject
      exact ⟨hwhole, (fun _ he => by cases he), (fun _ he => by cases he), hst'⟩
  | sequence hs =>
    cases inner with
    | none => cases h
    | some inner =>
      obtain ⟨_, st₁, hbegin, h⟩ := run_bind_eq_ok_iff.1 h
      obtain ⟨_, _, hget, h⟩ := run_bind_eq_ok_iff.1 h
      cases hget
      obtain ⟨vs, st₂, hitems, h⟩ := run_bind_eq_ok_iff.1 h
      cases h
      obtain ⟨hall, hst'⟩ := items_reads (fun hv => hi _ rfl hs hv) hitems (beginContainer_ne_null hbegin)
      refine ⟨.list hall, (fun _ he => by cases he), fun hl he => ?_, hst'⟩
      subst hl
      obtain ⟨rest, hrest⟩ := beginContainer_flattened hbegin
      exact items_ne_nil hitems hrest (Value.list.inj he)
  | mapping hs =>
    cases inner with
    | none => cases h
    | some inner =>
      obtain ⟨_, st₁, -, h⟩ := run_bind_eq_ok_iff.1 h
      obtain ⟨_, _, hget, h⟩ := run_bind_eq_ok_iff.1 h
      cases hget
      obtain ⟨es, st₂, hentries, h⟩ := run_bind_eq_ok_iff.1 h
      cases h
      obtain ⟨hall, hst'⟩ := entries_reads (fun hv => hi _ rfl hs hv) hentries (by simp)
      exact ⟨.map hall, (fun _ he => by cases he), (fun _ he => by cases he), hst'⟩

theorem value_reads (P : c.PlannedBy .xml s) (room : Nat) :
    InnerReads c (value s room : Inner Reader) := by
  have hnullable : ∀ {inner : Option (Inner Reader)}, (∀ i, inner = some i → InnerReads c i) →
      InnerReads c (nullable s inner) := by
    intro inner hi l r shape allowed name st st' v hshape hrun
    obtain ⟨isNull, st₁, hnull, h⟩ := run_bind_eq_ok_iff.1 hrun
    rcases isNull_eq_ok hnull with ⟨rfl, hst, hst₁⟩ | ⟨rfl, hst, rfl⟩
    · cases allowed with
      | true =>
        cases h
        exact ⟨.null c r, fun hne => absurd hst hne, (fun _ he => by cases he), hst₁⟩
      | false => cases h
    · exact shaped_reads P hi hshape h
  induction room with
  | zero => exact hnullable (by simp)
  | succ room ih =>
    exact @hnullable _ fun i hi => by
      obtain rfl := Option.some.inj hi
      exact ih

end Decode

namespace Document

/-- **What is read of markup is whole**: whatever the document, nothing in an object that is read of it
is lost when it is written. -/
theorem whole_of_read_xml {c : Catalogue} (hc : c.Reachable) {cancelled : Bool} {plans : PlanSet}
    (hp : c.planAll .xml cancelled = .ok plans) {declared : Handle} {bytes : List UInt8} {i : Instance}
    (h : read .xml plans declared bytes = .ok i) : c.Whole (.named declared) i.toValue := by
  have P := planAll_spec hc hp
  unfold read at h
  rw [if_pos P.format] at h
  obtain ⟨source, -, h⟩ := bind_eq_ok_iff.1 h
  unfold decode at h
  split at h
  · rename_i hr
    cases h
    exact (object_reads P (value_reads P _) hr).1
  · cases h

end Document

end Marshal
