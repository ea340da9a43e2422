import Marshal.Proofs.Markup.Balance
import Marshal.Proofs.Plan.Sets
import Marshal.Proofs.Wire.Reading

/-!
# Values take their elements

Whatever the document, a value of any shape that is read takes the element or the attribute that it
stands in and nothing else (`Decode.value_consumes`). So the scan of an object comes to all attributes
and all children of its element, in order (`Decode.scanned_of_object`), and whatever structures are
entered for a value have been left when it is there (`Markup.Reader.value_balanced`).
-/

namespace Marshal

namespace Decode

open Markup Markup.Reader Markup.Lexer Outcome

variable {s : PlanSet} {inner : Inner Reader} {plan : TypePlan} {scan scan' : Scan} {r r' : Reader}
  {lx lx' : Lexer} {stack : List OpenPart} {isEmpty : Bool} {as : List (String × String)}

/-! ## Collections -/

/-- A reader of values that takes what dropping takes. -/
def InnerConsumes (inner : Inner Reader) : Prop :=
  ∀ shape allowed name, Consumes (inner shape allowed name)

/-- **The items of a sequence** that stands in an element of its own take that element. -/
theorem items_wrapped {item : Reading Reader Value} (hi : Consumes item) {fuel : Nat}
    {vs : List Value} (h : items item fuel ⟨lx, .vacant, .wrapped isEmpty :: stack⟩ = .ok vs r') :
    ∃ lx', Passes isEmpty lx lx' ∧ r' = ⟨lx', .vacant, stack⟩ := by
  induction fuel generalizing lx isEmpty vs with
  | zero => cases h
  | succ fuel ih =>
    obtain ⟨more, r₁, hnext, h⟩ := run_bind_eq_ok_iff.1 h
    rcases nextElement_wrapped hnext with ⟨head, lx₁, rfl, rfl, hchild, rfl⟩ | ⟨lx₁, rfl, hp, rfl⟩
    · obtain ⟨v, r₂, hv, h⟩ := run_bind_eq_ok_iff.1 h
      obtain ⟨lx₂, hskip, rfl⟩ := hi.element hv
      obtain ⟨vs, r₃, hvs, h⟩ := run_bind_eq_ok_iff.1 h
      cases h
      obtain ⟨lx', hp, rfl⟩ := ih hvs
      exact ⟨lx', hp.of_child_some hchild hskip, rfl⟩
    · cases h
      exact ⟨lx₁, hp, rfl⟩

/-- A flattened sequence takes the one item that it has. -/
theorem items_flattened {item : Reading Reader Value} (hi : Consumes item) {fuel : Nat}
    {vs : List Value} {head : Head}
    (h : items item fuel ⟨lx, .element head, .flattened false :: stack⟩ = .ok vs r') :
    ∃ lx', skipHead head lx = .ok () lx' ∧ r' = ⟨lx', .vacant, stack⟩ := by
  rcases fuel with _ | fuel
  · cases h
  obtain ⟨_, _, hnext, h⟩ := run_bind_eq_ok_iff.1 h
  cases hnext
  obtain ⟨v, r₁, hv, h⟩ := run_bind_eq_ok_iff.1 h
  obtain ⟨lx', hskip, rfl⟩ := hi.element hv
  obtain ⟨vs, r₂, hvs, h⟩ := run_bind_eq_ok_iff.1 h
  cases h
  rcases fuel with _ | fuel
  · cases hvs
  obtain ⟨_, _, hnext, hvs⟩ := run_bind_eq_ok_iff.1 hvs
  cases hnext
  cases hvs
  exact ⟨lx', hskip, rfl⟩

/-- **The entries of a mapping** take the element that it stands in. -/
theorem entries_passes {value : String → Reading Reader Value} (hi : ∀ key, Consumes (value key))
    {fuel : Nat} {table es : List (String × Value)} (hr : AtEntries isEmpty stack r)
    (h : entries value fuel table r = .ok es r') :
    ∃ lx lx', closeEntry r = .ok () ⟨lx, .vacant, .mapping isEmpty :: stack⟩ ∧
      Passes isEmpty lx lx' ∧ r' = ⟨lx', .vacant, stack⟩ := by
  induction fuel generalizing r isEmpty table with
  | zero => cases h
  | succ fuel ih =>
    obtain ⟨next, r₁, hnext, h⟩ := run_bind_eq_ok_iff.1 h
    obtain ⟨lx, hclose, ⟨k, head, lx₁, value, lx₂, rfl, rfl, hchild, hempty, hentry, rfl⟩ |
      ⟨lx₁, rfl, hp, rfl⟩⟩ := nextEntry_eq_ok hr hnext
    · obtain ⟨v, r₂, hv, h⟩ := run_bind_eq_ok_iff.1 h
      -- the children that are left in the entry are passed as the next one is looked for
      obtain ⟨lx₃, lx', hskip, hp, rfl⟩ : ∃ lx₃ lx', skipChildren lx₁ = .ok () lx₃ ∧
          Passes false lx₃ lx' ∧ r' = ⟨lx', .vacant, stack⟩ := by
        rcases value with _ | value
        · obtain rfl := (hi k).null hv
          obtain ⟨lx₃, lx', hclose', hp, rfl⟩ := ih ⟨rfl, .inl rfl⟩ h
          cases hclose'
          exact ⟨lx₂, lx', skipChildren_of_entry_none hentry, hp, rfl⟩
        · obtain ⟨lx₄, hvalue, rfl⟩ := (hi k).element hv
          obtain ⟨lx₃, lx', hclose', hp, rfl⟩ := ih ⟨rfl, .inr rfl⟩ h
          obtain ⟨lx₅, hskip, he⟩ := closeEntry_entryTail hclose'
          cases he
          exact ⟨lx₃, lx', (skipChildren_of_entry_some hentry hvalue).trans hskip, hp, rfl⟩
      have hhead : skipHead head lx₁ = .ok () lx₃ := by
        rw [skipHead, hempty, if_neg Bool.false_ne_true]
        exact skip_of_skipChildren hskip
      exact ⟨lx, lx', hclose, hp.of_child_some hchild hhead, rfl⟩
    · cases h
      exact ⟨lx, lx₁, hclose, hp, rfl⟩

/-! ## Objects -/

/-- **The run of a scan** over the attributes of an element and its children: from the lexer and the
scan that it begins with to those that it ends with. -/
inductive Scanned (inner : Inner Reader) (plan : TypePlan) (stack : List OpenPart) :
    List (String × String) → Bool → Lexer → Scan → Lexer → Scan → Prop where
  | empty {lx : Lexer} {scan : Scan} : Scanned inner plan stack [] true lx scan lx scan
  | closed {lx lx₁ : Lexer} {scan : Scan} : child lx = .ok none lx₁ →
    Scanned inner plan stack [] false lx scan lx₁ scan
  | plain {a : String × String} {as : List (String × String)} {isEmpty : Bool} {lx lx' : Lexer}
      {scan scan₁ scan' : Scan} :
    field inner plan scan a.1 .attribute ⟨lx, .attribute a.2, .object as isEmpty :: stack⟩ =
      .ok scan₁ ⟨lx, .vacant, .object as isEmpty :: stack⟩ →
    Scanned inner plan stack as isEmpty lx scan₁ lx' scan' →
    Scanned inner plan stack (a :: as) isEmpty lx scan lx' scan'
  | child {head : Head} {lx lx₁ lx₂ lx' : Lexer} {scan scan₁ scan' : Scan} :
    child lx = .ok (some head) lx₁ → skipHead head lx₁ = .ok () lx₂ →
    field inner plan scan head.name .element ⟨lx₁, .element head, .object [] false :: stack⟩ =
      .ok scan₁ ⟨lx₂, .vacant, .object [] false :: stack⟩ →
    Scanned inner plan stack [] false lx₂ scan₁ lx' scan' →
    Scanned inner plan stack [] false lx scan lx' scan'

theorem field_consumes (hi : InnerConsumes inner) (scan : Scan) (key : String)
    (placement : Placement) : Consumes (field inner plan scan key placement) := by
  rw [field]
  split
  · exact (hi _ _ _).lift fun v => .ok _
  · split
    · exact (hi _ _ _).lift fun v => .ok _
    · exact Consumes.lift (m := discard) (fun _ _ _ h => h) fun _ => .ok _

theorem scanned_of_fields (hi : InnerConsumes inner) {fuel : Nat}
    (h : fields inner plan fuel scan ⟨lx, .vacant, .object as isEmpty :: stack⟩ = .ok scan' r') :
    ∃ lx', Scanned inner plan stack as isEmpty lx scan lx' scan' ∧ r' = ⟨lx', .vacant, stack⟩ := by
  induction fuel generalizing lx scan as isEmpty with
  | zero => cases h
  | succ fuel ih =>
    obtain ⟨next, r₁, hnext, h⟩ := run_bind_eq_ok_iff.1 h
    obtain ⟨a, rest, rfl, rfl, rfl⟩ | ⟨head, lx₁, rfl, rfl, hchild, rfl, rfl⟩ |
      ⟨lx₁, rfl, rfl, rfl, hend⟩ := nextKey_object hnext
    · obtain ⟨scan₁, r₂, hfield, h⟩ := run_bind_eq_ok_iff.1 h
      obtain rfl := (field_consumes hi _ _ _).attribute hfield
      obtain ⟨lx', hs, rfl⟩ := ih h
      exact ⟨lx', .plain hfield hs, rfl⟩
    · obtain ⟨scan₁, r₂, hfield, h⟩ := run_bind_eq_ok_iff.1 h
      obtain ⟨lx₂, hskip, rfl⟩ := (field_consumes hi _ _ _).element hfield
      obtain ⟨lx', hs, rfl⟩ := ih h
      exact ⟨lx', .child hchild hskip hfield hs, rfl⟩
    · cases h
      obtain ⟨rfl, rfl⟩ | ⟨rfl, hchild⟩ := hend
      · exact ⟨_, .empty, rfl⟩
      · exact ⟨_, .closed hchild, rfl⟩

/-- A scan takes the element that the object stands in. -/
theorem Scanned.passes (h : Scanned inner plan stack as isEmpty lx scan lx' scan') :
    Passes isEmpty lx lx' := by
  induction h with
  | empty => rfl
  | closed hchild => exact passes_of_child_none hchild
  | plain _ _ ih => exact ih
  | child hchild hskip _ _ ih => exact ih.of_child_some hchild hskip

/-- The choice of the concrete type takes nothing. -/
theorem concretePlan_eq_ok {p : TypePlan} (h : concretePlan s p r = .ok plan r') : r' = r := by
  rw [concretePlan] at h
  rcases hd : p.read.discriminator with _ | d <;> rw [hd] at h
  · cases h
    rfl
  · obtain ⟨word, r₁, hpeek, h⟩ := run_bind_eq_ok_iff.1 h
    obtain rfl := peekField_eq_ok hpeek
    rcases word with _ | word
    · cases h
      rfl
    · dsimp only at h
      rcases hv : Table.find? d.variants word with _ | k <;> rw [hv] at h
      · cases h
      · exact (Reading.lift_eq_ok_iff.1 h).2

/-- **The run of reading an object.** -/
theorem scanned_of_object (hi : InnerConsumes inner) {declared : Handle} {i : Instance}
    (h : object s inner declared r = .ok i r') :
    ∃ head p plan scan lx', r.cursor = .element head ∧ s.type? declared = some p ∧
      (concretePlan s p : Reading Reader TypePlan)
          ⟨r.lexer, .vacant, .object head.attributes head.isEmpty :: r.stack⟩ =
        .ok plan ⟨r.lexer, .vacant, .object head.attributes head.isEmpty :: r.stack⟩ ∧
      Scanned inner plan r.stack head.attributes head.isEmpty r.lexer ⟨[], []⟩ lx' scan ∧
      scan.make plan = .ok i ∧ r' = ⟨lx', .vacant, r.stack⟩ := by
  obtain ⟨p, r₀, hdeclared, hrun⟩ := run_bind_eq_ok_iff.1 h
  obtain ⟨htype, rfl⟩ := Reading.lift_eq_ok_iff.1 hdeclared
  obtain ⟨_, r₁, hbegin, hrun⟩ := run_bind_eq_ok_iff.1 hrun
  obtain ⟨head, r₂, htake, hbegin⟩ := run_bind_eq_ok_iff.1 hbegin
  obtain ⟨hcursor, rfl⟩ := takeElement_eq_ok htake
  cases hbegin
  obtain ⟨plan, r₃, hplan, hrun⟩ := run_bind_eq_ok_iff.1 hrun
  have hr₃ := concretePlan_eq_ok hplan
  subst hr₃
  obtain ⟨_, _, hget, hrun⟩ := run_bind_eq_ok_iff.1 hrun
  cases hget
  obtain ⟨scan, r₄, hfields, hrun⟩ := run_bind_eq_ok_iff.1 hrun
  obtain ⟨lx', hscan, rfl⟩ := scanned_of_fields hi hfields
  obtain ⟨hmake, rfl⟩ := Reading.lift_eq_ok_iff.1 hrun
  exact ⟨head, p, plan, scan, lx', hcursor, typePlan_eq_ok_iff.1 htype, hplan, hscan, hmake, rfl⟩

theorem object_consumes (hi : InnerConsumes inner) (declared : Handle) :
    Consumes (object s inner declared) := by
  intro r i r' h
  obtain ⟨head, _, _, _, lx', hcursor, -, -, hscan, -, rfl⟩ := scanned_of_object hi h
  obtain ⟨lx, cursor, stack⟩ := r
  obtain rfl : cursor = .element head := hcursor
  exact discard_element (skipHead_eq_ok_iff.2 hscan.passes)

/-! ## Values of any shape -/

theorem shaped_consumes {inner : Option (Inner Reader)} (hi : ∀ i, inner = some i → InnerConsumes i)
    (shape : Shape) (name : String) : Consumes (shaped s inner shape name) := by
  cases shape with
  | primitive kind => exact scalar_consumes.lift _
  | enumeration h =>
    rw [shaped, enumeration]
    split
    · exact consumes_throw _
    · exact scalar_consumes.lift _
  | object h =>
    rcases inner with _ | inner
    · exact consumes_throw _
    · exact (object_consumes (hi _ rfl) h).lift fun i => .ok i.toValue
  | sequence element n layout =>
    rcases inner with _ | inner
    · exact consumes_throw _
    rintro ⟨lx, cursor, stack⟩ v r' h
    obtain ⟨_, r₁, hbegin, h⟩ := run_bind_eq_ok_iff.1 h
    obtain ⟨_, _, hget, h⟩ := run_bind_eq_ok_iff.1 h
    cases hget
    obtain ⟨vs, r₂, hitems, h⟩ := run_bind_eq_ok_iff.1 h
    cases h
    obtain ⟨head, hcursor, rfl⟩ := beginContainer_eq_ok hbegin
    obtain rfl : cursor = .element head := hcursor
    cases layout with
    | wrapped item =>
      obtain ⟨lx', hp, rfl⟩ := items_wrapped (hi _ rfl _ _ _) hitems
      exact discard_element (skipHead_eq_ok_iff.2 hp)
    | flattened =>
      obtain ⟨lx', hskip, rfl⟩ := items_flattened (hi _ rfl _ _ _) hitems
      exact discard_element hskip
  | mapping element n =>
    rcases inner with _ | inner
    · exact consumes_throw _
    rintro ⟨lx, cursor, stack⟩ v r' h
    obtain ⟨_, r₁, hbegin, h⟩ := run_bind_eq_ok_iff.1 h
    obtain ⟨_, _, hget, h⟩ := run_bind_eq_ok_iff.1 h
    cases hget
    obtain ⟨es, r₂, hentries, h⟩ := run_bind_eq_ok_iff.1 h
    cases h
    obtain ⟨head, hcursor, rfl⟩ := beginContainer_eq_ok hbegin
    obtain rfl : cursor = .element head := hcursor
    obtain ⟨lx₁, lx', hclose, hp, rfl⟩ := entries_passes (fun key => hi _ rfl _ _ key)
      ⟨rfl, .inl rfl⟩ hentries
    cases hclose
    exact discard_element (skipHead_eq_ok_iff.2 hp)

theorem nullable_consumes {inner : Option (Inner Reader)}
    (hi : ∀ i, inner = some i → InnerConsumes i) : InnerConsumes (nullable s inner) := by
  rintro shape allowed name ⟨lx, cursor, stack⟩ v r' h
  cases cursor with
  | null =>
    obtain ⟨_, _, hnull, h⟩ := run_bind_eq_ok_iff.1 h
    cases hnull
    cases allowed <;> cases h
    rfl
  | _ =>
    obtain ⟨_, _, hnull, h⟩ := run_bind_eq_ok_iff.1 h
    cases hnull
    exact shaped_consumes hi shape name _ _ _ h

/-- **Reading a value takes what dropping it takes**, by induction on how deep values may stand in
it. -/
theorem value_consumes (s : PlanSet) (room : Nat) : InnerConsumes (value s room : Inner Reader) := by
  induction room with
  | zero => exact nullable_consumes nofun
  | succ room ih => exact nullable_consumes fun i hi => Option.some.inj hi ▸ ih

end Decode

/-! ## Where a value leaves the reader -/

namespace Markup.Reader

open Text

/-- Dropping what stands at the cursor leaves the structures around it as they are. -/
theorem discard_eq_ok {r r' : Reader} (h : discard r = .ok () r') :
    r'.stack = r.stack ∧ r'.cursor = .vacant := by
  obtain ⟨lx, cursor, stack⟩ := r
  cases cursor with
  | element head =>
    obtain ⟨lx', -, rfl⟩ := discard_element_eq_ok h
    exact ⟨rfl, rfl⟩
  | _ =>
    cases h
    exact ⟨rfl, rfl⟩

/-- **Reading a value is balanced.** Whatever stands at the cursor, in whatever document and along
whatever shape it is read, a value that is read leaves the structures that had been entered, nothing at
the cursor, and the document where dropping the value would have left it. -/
theorem value_balanced {s : PlanSet} {room : Nat} {shape : Shape} {allowed : Bool} {name : String}
    {r r' : Reader} {v : Value} (h : Decode.value s room shape allowed name r = .ok v r') :
    r'.stack = r.stack ∧ r'.cursor = .vacant ∧ (Source.skip : Reading Reader Unit) r = .ok () r' := by
  have hdrop : discard r = .ok () r' := Decode.value_consumes s room shape allowed name r v r' h
  obtain ⟨hstack, hcursor⟩ := discard_eq_ok hdrop
  exact ⟨hstack, hcursor, hdrop⟩

/-- The reader at the end of a run, if the run ends well. -/
def after? {α : Type} (m : Reading Reader α) (r : Reader) : Option Reader :=
  match m r with
  | .ok _ r' => some r'
  | .error _ _ => none

theorem exists_of_after? {α : Type} {m : Reading Reader α} {r r' : Reader}
    (h : after? m r = some r') : ∃ a, m r = .ok a r' := by
  unfold after? at h
  split at h
  · rename_i a _ hm
    cases h
    exact ⟨a, hm⟩
  · cases h

/-- What stands in a tray behind its shapes. -/
def trayEnd : List Symbol := Symbol.ofText "<lid/></Tray>"

/-- The shapes in a tray. The first entry goes on behind its circle, and the second has no value. -/
def trayShapes : List Symbol :=
  ["<entry><key>a</key><value r=\"3\">", "<kind>circle</kind>",
    "<labels><member>x</member><member/></labels>", "<dim>true</dim></value><note/></entry>",
    "<entry><key>b</key></entry></shapes>"].flatMap Symbol.ofText ++ trayEnd

/-- A reader in a tray, at its shapes. -/
def trayReader : Reader where
  lexer := ⟨trayShapes, [Symbol.ofText "shapes", Symbol.ofText "Tray"]⟩
  cursor := .element ⟨"shapes", [], false⟩
  stack := [.object [] false]

/-- The reader comes to the shapes by moving to the next key, and they are read as a mapping up to their
end tag. -/
theorem value_balanced_tray :
    (∃ key, nextKey ⟨⟨Symbol.ofText "<shapes>" ++ trayShapes, [Symbol.ofText "Tray"]⟩, .vacant,
      [.object [] false]⟩ = .ok key trayReader) ∧
    ∃ v r', Decode.value (Catalogue.shapePlans .xml) 126 (.mapping (.object ⟨8⟩) true) false "shapes"
        trayReader = .ok v r' ∧ r'.lexer.rest = trayEnd ∧ r'.stack = [.object [] false] ∧
      r'.cursor = .vacant ∧ (Source.skip : Reading Reader Unit) trayReader = .ok () r' := by
  refine ⟨exists_of_after? (by decide +kernel), ?_⟩
  obtain ⟨v, hv⟩ : ∃ v, Decode.value (Catalogue.shapePlans .xml) 126 (.mapping (.object ⟨8⟩) true) false
      "shapes" trayReader = .ok v ⟨⟨trayEnd, [Symbol.ofText "Tray"]⟩, .vacant, [.object [] false]⟩ :=
    exists_of_after? (by decide +kernel)
  exact ⟨v, _, hv, rfl, value_balanced hv⟩

end Markup.Reader

end Marshal
