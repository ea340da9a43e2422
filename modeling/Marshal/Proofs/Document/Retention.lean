import Marshal.Proofs.Document.Capture
import Marshal.Proofs.Markup.Wholeness

/-!
# What was captured is kept

What an object captured from a document is written as elements and captured again. An entry under the
name of a property is not written, wherever the property stands. Where it is an element, the entry was
captured from an attribute, and would be read back as the property. Where it is an attribute, the entry
was captured from an element, and nothing would come in its way: it is lost for its name alone. All
other entries are kept as they are (`Document.captured_of_read_xml`), as long as no name has a prefix,
which is cut off, and the objects in them keep what they captured and have the type that their
discriminators say. None of these conditions can be left out (`Document.not_captured_of_read_xml`).
-/

namespace Marshal

open Catalogue Draft

/-! ## Unbound parts -/

namespace Tree

variable {τ : Type} {inner : Inner τ} {plan : TypePlan} {scan scan' : Decode.Scan}

/-- The parts that are bound to no property. -/
def unbound (plan : TypePlan) (ts : List (String × Placement × τ)) :
    List (String × Placement × τ) :=
  ts.filter fun x => (Decode.boundAction plan x.1 x.2.1).isNone

/-- **What a scan captures comes from the parts that are not bound**, whatever the properties hold. -/
theorem extra_of_unbound {ts : List (String × Placement × τ)}
    (h : ts.foldlM (field inner plan) scan = .ok scan') (fields : Table String Value) :
    (unbound plan ts).foldlM (field inner plan) ⟨fields, scan.extra⟩ = .ok ⟨fields, scan'.extra⟩ := by
  induction ts generalizing scan with
  | nil =>
    obtain rfl := Outcome.pure_eq_ok_iff.1 h
    rfl
  | cons x ts ih =>
    obtain ⟨key, placement, node⟩ := x
    obtain ⟨scan₁, hx, h⟩ := Outcome.bind_eq_ok_iff.1 h
    rcases ha : Decode.boundAction plan key placement with _ | a
    · rw [unbound, List.filter_cons_of_pos (by simp [ha]), List.foldlM_cons]
      rcases htarget : plan.read.carrier with _ | target
      · rw [field_skipped ha htarget] at hx ⊢
        obtain rfl := Except.ok.inj hx
        exact ih h
      · rw [field_captured ha htarget] at hx ⊢
        obtain ⟨v, hv, hx⟩ := Outcome.bind_eq_ok_iff.1 hx
        obtain rfl := Outcome.pure_eq_ok_iff.1 hx
        exact Outcome.bind_eq_ok_iff.2 ⟨_, Outcome.bind_eq_ok_iff.2 ⟨v, hv, rfl⟩, ih h⟩
    · rw [field_bound ha] at hx
      obtain ⟨v, hv, hx⟩ := Outcome.bind_eq_ok_iff.1 hx
      obtain rfl := Outcome.pure_eq_ok_iff.1 hx
      rw [unbound, List.filter_cons_of_neg (by simp [ha])]
      have hrest := ih h
      exact hrest

end Tree

namespace Draft

variable {c : Catalogue} {s : PlanSet} {t : Handle} {o : ObjectType} {plan : TypePlan}
  {fields : List (String × Value)} {p : Property} {ps : List (String × Placement × Draft)}
  {pss : List (List (String × Placement × Draft))}

/-- What is written of a property is bound to it when it is read. -/
theorem Part.unbound_of_property (h : Part c .xml s t plan fields p ps)
    (hplan : c.Plans .xml t o plan) (hp : p ∈ c.plannedProperties t) (hc : p.carrier = false)
    (hk : ∀ x ∈ ps, ':' ∉ x.1.toList) : Tree.unbound plan (ps.flatMap Markup.Node.ofPart) = [] := by
  obtain ⟨shape, -, hbound⟩ := Decode.boundAction_of_mem hplan hp hc
  rw [Tree.unbound, List.filter_eq_nil_iff]
  intro y hy
  obtain ⟨x, hx, hy⟩ := List.mem_flatMap.1 hy
  have hat : x.1 = wireName .xml p ∧ x.2.1 = placementIn .xml p := by
    cases h with
    | word | value =>
      obtain rfl := List.mem_singleton.1 hx
      exact ⟨rfl, rfl⟩
    | absent => cases hx
    | uncaptured carrier | captured carrier => simp [hc] at carrier
  rw [Markup.Node.name_of_ofPart (hk x hx) y hy, Markup.Node.placement_of_ofPart y hy, hat.1, hat.2,
    hbound]
  exact Bool.false_ne_true

/-- What is written of a carrier is bound to nothing when it is read. -/
theorem Part.unbound_of_carrier (h : Part c .xml s t plan fields p ps) (hc : p.carrier = true)
    (hk : ∀ x ∈ ps, ':' ∉ x.1.toList) :
    Tree.unbound plan (ps.flatMap Markup.Node.ofPart) = ps.flatMap Markup.Node.ofPart := by
  have hbound := h.bound_of_carrier hc hk
  rw [Tree.bound, List.filter_eq_nil_iff] at hbound
  refine List.filter_eq_self.2 fun y hy => ?_
  simpa using hbound y hy

theorem unbound_parts_of_properties {qs : List Property} (hplan : c.Plans .xml t o plan)
    (H : List.Forall₂ (Part c .xml s t plan fields) qs pss) (hk : ∀ x ∈ pss.flatten, ':' ∉ x.1.toList)
    (hqs : ∀ q ∈ qs, q ∈ c.plannedProperties t ∧ q.carrier = false) :
    Tree.unbound plan (pss.flatten.flatMap Markup.Node.ofPart) = [] := by
  induction H with
  | nil => rfl
  | @cons q ps qs pss hq _ ih =>
    rw [List.flatten_cons, List.forall_mem_append] at hk
    obtain ⟨⟨hmem, hc⟩, hqs⟩ := List.forall_mem_cons.1 hqs
    have hrest := ih hk.2 hqs
    have hone := hq.unbound_of_property hplan hmem hc hk.1
    rw [Tree.unbound] at hrest hone ⊢
    rw [List.flatten_cons, List.flatMap_append, List.filter_append, hone, hrest]
    rfl

/-- **What is written of the carrier** is all that is bound to nothing when an object is read. -/
theorem exists_unbound_parts {qs : List Property} (hplan : c.Plans .xml t o plan)
    (H : List.Forall₂ (Part c .xml s t plan fields) qs pss)
    (hk : ∀ x ∈ pss.flatten, ':' ∉ x.1.toList) (hn : qs.Nodup)
    (hqs : ∀ q ∈ qs, q ∈ c.plannedProperties t) (hone : ∀ q ∈ qs, q.carrier = true → q = p)
    (hp : p ∈ qs) (hc : p.carrier = true) : ∃ ps, Part c .xml s t plan fields p ps ∧
      Tree.unbound plan (pss.flatten.flatMap Markup.Node.ofPart) = ps.flatMap Markup.Node.ofPart := by
  induction H with
  | nil => cases hp
  | @cons q ps qs pss hq H ih =>
    rw [List.flatten_cons, List.forall_mem_append] at hk
    obtain ⟨hmem, hqs⟩ := List.forall_mem_cons.1 hqs
    obtain ⟨heq, hone⟩ := List.forall_mem_cons.1 hone
    obtain ⟨hnot, hn⟩ := List.nodup_cons.1 hn
    rw [List.flatten_cons, List.flatMap_append, Tree.unbound, List.filter_append]
    cases hqc : q.carrier with
    | true =>
      obtain rfl := heq hqc
      have hothers : ∀ q' ∈ qs, q' ∈ c.plannedProperties t ∧ q'.carrier = false := fun q' hq' =>
        ⟨hqs q' hq', Bool.eq_false_iff.2 fun hc' => hnot (hone q' hq' hc' ▸ hq')⟩
      have hnil := unbound_parts_of_properties hplan H hk.2 hothers
      have hself := hq.unbound_of_carrier hc hk.1
      rw [Tree.unbound] at hnil hself
      exact ⟨ps, hq, by rw [hnil, hself, List.append_nil]⟩
    | false =>
      have hp' : p ∈ qs := (List.mem_cons.1 hp).resolve_left fun he => by simp [← he, hc] at hqc
      obtain ⟨ps', hpart, hrest⟩ := ih hk.2 hn hqs hone hp'
      have hnil := hq.unbound_of_property hplan hmem hqc hk.1
      rw [Tree.unbound] at hnil hrest
      exact ⟨ps', hpart, by rw [hnil, hrest, List.nil_append]⟩

end Draft

/-! ## Entries that are kept -/

namespace Catalogue

variable {c : Catalogue} {f : Format} {t : Handle} {fields : List (String × Value)}

/-- **The entries that are written** of what an object of a type captured: those under the names of no
property. -/
def unshadowed (c : Catalogue) (f : Format) (t : Handle) (es : List (String × Value)) :
    List (String × Value) :=
  es.filter fun e => (c.plannedProperties t).all fun q => q.carrier || wireName f q != e.1

theorem mem_unshadowed {es : List (String × Value)} {e : String × Value} :
    e ∈ c.unshadowed f t es ↔
      e ∈ es ∧ ∀ q ∈ c.plannedProperties t, q.carrier = false → wireName f q ≠ e.1 := by
  rw [unshadowed, List.mem_filter, List.all_eq_true]
  refine and_congr_right fun _ => forall₂_congr fun q _ => ?_
  cases q.carrier <;> simp

/-- The entries that are written are those that the plan keeps. -/
theorem kept_eq_unshadowed {o : ObjectType} {plan : TypePlan} (hplan : c.Plans f t o plan)
    (es : List (String × Value)) : kept plan es = c.unshadowed f t es := by
  refine List.filter_congr fun e _ => ?_
  rw [Bool.eq_iff_iff, Bool.not_eq_true', contains_actions_eq_false_iff hplan, List.all_eq_true]
  refine forall₂_congr fun q _ => ?_
  cases q.carrier <;> simp

/-- **An object can be restored from markup**, as long as the values in it can: nothing is cut off its
names, its discriminator says its type, and it captured nothing under the name of a property. -/
structure Restorable (c : Catalogue) (t : Handle) (fields : List (String × Value)) : Prop where
  unprefixed : c.Unprefixed t fields
  agrees : c.Agrees t fields
  keys : ∀ p ∈ c.plannedProperties t, p.carrier = true → ∀ es,
    Table.find? fields p.name = some (.map es) →
      ∀ q ∈ c.plannedProperties t, q.carrier = false → wireName .xml q ∉ Table.keys es

/-- **What was read of markup and can be written is legible** where the objects in it can be
restored. -/
theorem Whole.legible (W : c.WellFormed) {n : Bool} {r : Reference} {v : Value} (H : c.Whole r v)
    (h : c.Admits n r v) (ha : c.Accepted .xml n r v)
    (hin : ∀ h t fields, c.Inside .xml (.named h) (.object t fields) r v → c.Restorable t fields) :
    c.Legible n r v where
  conforms := canonical_of_inside W h ha fun h t fields ho =>
    ⟨(H.objects h t fields ho).1, (hin h t fields ho).agrees, (hin h t fields ho).keys⟩
  objects h t fields ho := ⟨(hin h t fields ho).unprefixed, (H.objects h t fields ho).2⟩
  lists := H.lists

end Catalogue

/-! ## Documents -/

namespace Document

variable {c : Catalogue} {cancelled : Bool} {plans : PlanSet} {declared : Handle}
  {bytes : List UInt8} {i w : Instance} {doc : String} {p : Property} {es : List (String × Value)}

/-- **What was captured from a document is legible** as far as it can be written, and there is room for
it, where the objects in it can be restored. -/
theorem legible_of_captured (hc : c.Reachable) (hp : c.planAll .xml cancelled = .ok plans)
    (hr : read .xml plans declared bytes = .ok i) (hpm : p ∈ c.plannedProperties i.type)
    (hpc : p.carrier = true) {r : Reference} {m : Bool} (htype : p.type = .collection .mapping r m)
    (hfound : Table.find? i.fields p.name = some (.map es))
    (hin : ∀ h t fields, c.Inside .xml (.named h) (.object t fields) p.type
      (.map (c.unshadowed .xml i.type es)) → c.Restorable t fields) :
    Table.Ascending es ∧ ∀ e ∈ c.unshadowed .xml i.type es, c.Accepted .xml m r e.2 →
      c.Legible m r e.2 ∧ e.2 ≠ .null ∧ c.nesting false e.2 ≤ Decode.depthLimit - 1 := by
  have P := planAll_spec hc hp
  have W := P.wellFormed
  obtain ⟨hsound, hn⟩ := admits_of_read P hr
  have hwhole := whole_of_read_xml hc hp hr
  rw [Instance.toValue] at hsound hwhole hn
  rw [htype] at hin
  cases hsound with
  | primitive _ hh => exact absurd hh Primitive.not_holds_object
  | object type _ _ _ _ _ typed =>
    have htyped := typed p hpm _ hfound
    rw [htype, hpc, Bool.not_true, Bool.and_false] at htyped
    rw [nesting] at hn
    have hroom := W.nesting_le_nestingFields type hpm hfound
    rw [hpc, nesting, if_pos rfl, Nat.add_zero] at hroom
    cases htyped with
    | map hasc hes =>
      refine ⟨hasc, fun e he ha => ?_⟩
      obtain ⟨hmem, hkey⟩ := mem_unshadowed.1 he
      obtain ⟨hself, hne⟩ := hwhole.extra hpm hpc htype hfound hmem hkey
      refine ⟨hself.legible W (hes _ _ hmem) ha fun h t fields ho => hin h t fields (.entry he ho), hne, ?_⟩
      exact nestingEntries_le_iff.1 (hroom.trans (Nat.le_sub_of_add_le hn)) e.1 e.2 hmem

/-- **What was captured is kept.** An object that was read from any XML document and is written and read
again holds in its carrier just the entries that stand under the names of no property, as they were,
provided that its names have no prefixes and the objects in these entries can be restored. -/
theorem captured_of_read_xml (hc : c.Reachable) (hp : c.planAll .xml cancelled = .ok plans)
    (hr : read .xml plans declared bytes = .ok i) (hpm : p ∈ c.plannedProperties i.type)
    (hpc : p.carrier = true) (hfound : Table.find? i.fields p.name = some (.map es))
    (hun : c.Unprefixed i.type i.fields)
    (hin : ∀ h t fields, c.Inside .xml (.named h) (.object t fields) p.type
      (.map (c.unshadowed .xml i.type es)) → c.Restorable t fields)
    (hw : write .xml plans i = .ok doc) (hr' : read .xml plans i.type (Text.toBytes doc) = .ok w) :
    w.type = i.type ∧ Table.find? w.fields p.name =
      if c.unshadowed .xml i.type es = [] then none
      else some (.map (c.unshadowed .xml i.type es)) := by
  have P := planAll_spec hc hp
  have W := P.wellFormed
  obtain ⟨o, plan, pss, scan, hwritten, hnames, hscan, hmake⟩ := exists_scan_of_read_xml P hw hun hr'
  have hplans := hwritten.plans
  refine ⟨(Decode.type_of_make hmake).trans hplans.type, ?_⟩
  -- all that is captured is what was written of the carrier
  obtain ⟨ps, hpart, hunbound⟩ := exists_unbound_parts hplans hwritten.parts
    (fun x hx => (hnames x hx).1) (List.Nodup.of_map _ (hwritten.nodup W))
    (fun q hq => mem_emissionOrder.1 hq)
    (fun q hq hqc => W.eq_of_carrier hwritten.type (mem_emissionOrder.1 hq) hqc hpm hpc)
    (mem_emissionOrder.2 hpm) hpc
  have hextra := Tree.extra_of_unbound hscan []
  rw [hunbound] at hextra
  cases hpart with
  | word plain | absent plain | value plain => simp [hpc] at plain
  | uncaptured _ found => simp [hfound] at found
  | @captured r m shape es' _ _ htype forms found drafts =>
    obtain rfl := Value.map.inj (Option.some.inj (hfound.symm.trans found))
    obtain ⟨hasc, hlegible⟩ := legible_of_captured hc hp hr hpm hpc htype hfound hin
    rw [← kept_eq_unshadowed hplans] at hlegible ⊢
    have hcarrier : plan.read.carrier = some ⟨p.name, shape, m⟩ :=
      (hplans.carrier _).2 ⟨p, hpm, hpc, r, shape, m, htype, forms, rfl⟩
    have hkept : ∀ e ∈ kept plan es, c.Legible m r e.2 ∧ e.2 ≠ .null ∧
        c.nesting false e.2 ≤ Decode.depthLimit - 1 := fun e he => by
      obtain ⟨x, -, -, -, hdraft⟩ := Outcome.forall₂_exists_left drafts he
      exact hlegible e he ((exists_draft_iff P e.2 forms).1 ⟨_, hdraft⟩)
    obtain ⟨back, hrun, hself⟩ := exists_captured hcarrier forms drafts
      (fun e he => Decode.boundAction_of_not_contains (by simpa using (List.mem_filter.1 he).2) _)
      (fun e he => hun.keys p hpm hpc es hfound e.1 e.2 (List.mem_filter.1 he).1)
      (fun e _ => returns P e.2) (fun e he => (hkept e he).2.2) fun e he => (hkept e he).1.readable
    obtain rfl := hself fun e he => ⟨(hkept e he).1, (hkept e he).2.1⟩
    have hscanned : scan.extra = kept plan es := by
      have hasc' : Table.Ascending (kept plan es) := hasc.filter _
      rw [hrun] at hextra
      rw [← (Decode.Scan.mk.inj (Except.ok.inj hextra)).2]
      exact Table.ofList_eq_self hasc'
    rw [Decode.eq_map_of_make hplans hmake hpm hpc, hscanned]
    refine (Tree.find?_of_fields (fun x _ a ha => ?_) hscan).trans rfl
    exact Decode.property_ne_of_carrier W hwritten.type hplans hpm hpc ha

end Document

/-! ## Folders -/

/-- Notes are memos or letters, which their kind tells. A memo has an identifier, which is an attribute
in markup, and whatever else it says. A folder is what notes it has, by name. -/
def Catalogue.folders : Catalogue :=
  .ofEntities [
    ⟨"Note", .object
      { properties := [{ name := "kind", wire := "kind", type := .named ⟨0⟩, required := true }]
        discriminator := some "kind"
        isAbstract := true }⟩,
    ⟨"Memo", .object
      { base := some ⟨8⟩
        discriminatorValue := some "memo"
        properties := [
          { name := "id", wire := "id", type := .named ⟨0⟩, placement := .attribute },
          { name := "extra", wire := "extra", carrier := true
            type := .collection .mapping (.named ⟨0⟩) false }] }⟩,
    ⟨"Letter", .object
      { base := some ⟨8⟩
        discriminatorValue := some "letter"
        properties := [
          { name := "scheme", wire := "scheme", type := .named ⟨0⟩, placement := .attribute
            xmlName := some "xmlns" }] }⟩,
    ⟨"Folder", .object
      { properties := [
          { name := "notes", wire := "notes", carrier := true
            type := .collection .mapping (.named ⟨8⟩) false }] }⟩]

/-- The folders, sealed. -/
def Catalogue.sealedFolders : Catalogue :=
  folders.withForest ⟨[⟨⟨8⟩, "kind", [("letter", ⟨10⟩), ("memo", ⟨9⟩)]⟩],
    [(⟨8⟩, ⟨8⟩), (⟨9⟩, ⟨8⟩), (⟨10⟩, ⟨8⟩)]⟩

theorem Catalogue.reachable_sealedFolders : sealedFolders.Reachable := by
  have hopen : folders.Reachable := .ofEntities (by decide)
  exact .trySeal hopen rfl

/-- The plans of the folders for markup. -/
def Catalogue.folderPlans : PlanSet := (sealedFolders.planAll .xml).toOption.getD ⟨.xml, [], []⟩

theorem Catalogue.planAll_sealedFolders : sealedFolders.planAll .xml = .ok folderPlans := rfl

theorem Catalogue.plannedProperties_memo : sealedFolders.plannedProperties ⟨9⟩ =
    [{ name := "kind", wire := "kind", type := .named ⟨0⟩, required := true },
      { name := "id", wire := "id", type := .named ⟨0⟩, placement := .attribute },
      { name := "extra", wire := "extra", carrier := true
        type := .collection .mapping (.named ⟨0⟩) false }] :=
  rfl

theorem Catalogue.plannedProperties_folder : sealedFolders.plannedProperties ⟨11⟩ =
    [{ name := "notes", wire := "notes", carrier := true
       type := .collection .mapping (.named ⟨8⟩) false }] :=
  rfl

/-- Memos are told apart by their kind. -/
theorem Catalogue.governs_memo : sealedFolders.Governs ⟨8⟩ ⟨9⟩ := by
  have hbase : sealedFolders.base? ⟨9⟩ = some ⟨8⟩ := rfl
  exact governs_of_base?_eq_none rfl ⟨_, rfl, rfl⟩ (.of_base hbase (.refl _))

namespace Draft

/-- The steps in which a memo is written. -/
def memoSteps : List Step :=
  [⟨"id", "id", .value (.primitive .string), .attribute, false, false⟩,
    ⟨"kind", "kind", .discriminator (some "memo"), .element, true, false⟩,
    ⟨"extra", "extra", .entries (.primitive .string) false, .element, false, false⟩]

theorem exists_plan_memo (declared : Option Handle) (h : declared ∈ [none, some ⟨8⟩]) :
    ∃ plan, plan? folderPlans declared ⟨9⟩ = some plan ∧ plan.write.steps = memoSteps ∧
      (["id", "a:b", "b"].map fun key => Table.contains plan.read.actions key) =
        [true, false, false] := by
  have hplans : ∀ declared ∈ ([none, some ⟨8⟩] : List (Option Handle)),
      (plan? folderPlans declared ⟨9⟩).map (fun plan => (plan.write.steps,
        ["id", "a:b", "b"].map fun key => Table.contains plan.read.actions key)) =
          some (memoSteps, [true, false, false]) := by
    simp only [List.forall_mem_cons]
    exact ⟨rfl, rfl, by simp⟩
  obtain ⟨plan, hplan, h⟩ := Option.map_eq_some_iff.1 (hplans declared h)
  exact ⟨plan, hplan, Prod.mk.inj h⟩

/-- What is written of a folder that holds one note. -/
theorem ofInstance?_folder {note : Value} {d : Draft}
    (h : ofValue? folderPlans (.object ⟨8⟩) false note = some d) :
    ofInstance? folderPlans ⟨⟨11⟩, [("notes", .map [("a", note)])]⟩ =
      some (.object [("a", .element, d)]) := by
  have hplans : (plan? folderPlans none ⟨11⟩).map (fun plan =>
      (Table.contains plan.read.actions "a", plan.write.steps)) =
        some (false, [⟨"notes", "notes", .entries (.object ⟨8⟩) false, .element, false, false⟩]) :=
    rfl
  obtain ⟨plan, hplan, hsteps⟩ := Option.map_eq_some_iff.1 hplans
  obtain ⟨hkey, hsteps⟩ := Prod.mk.inj hsteps
  simp [ofInstance?, ofObject?, ofStep?, ofExtras?, Table.find?, hplan, hsteps, hkey, h]

end Draft

namespace Document

/-- A memo that says something else under a key. -/
def memo (key : String) : Value :=
  .object ⟨9⟩ [("extra", .map [(key, .text "y")]), ("id", .text "x"), ("kind", .text "memo")]

/-- A folder with a memo. -/
def folder : Instance := ⟨⟨11⟩, [("notes", .map [("a", memo "b")])]⟩

/-- A document of the folder in which an attribute is captured. -/
def captureText : String := "<Folder><a b=\"y\" id=\"x\"><kind>memo</kind></a></Folder>"

/-- The document that is written of the folder. -/
def folderText : String :=
  Markup.Writer.declaration ++ "<Folder><a id=\"x\"><kind>memo</kind><b>y</b></a></Folder>"

theorem read_folder : ∀ doc ∈ [captureText, folderText],
    read .xml folderPlans ⟨11⟩ (Text.toBytes doc) = .ok folder := by
  have hr : ∀ doc ∈ [captureText, folderText],
      (read .xml folderPlans ⟨11⟩ (Text.toBytes doc)).toOption.map folder.same = some true := by
    simp only [List.forall_mem_cons]
    refine ⟨?_, ?_, by simp⟩
    · rw [captureText, read_xml_ofList]
      decide +kernel
    · rw [folderText, read_xml_declaration, Text.Symbol.ofText_ofList]
      decide +kernel
  exact fun doc hdoc => read_eq_of_same rfl (hr doc hdoc)

theorem write_folder : write .xml folderPlans folder = .ok folderText := by
  obtain ⟨plan, hplan, hsteps, hkeys⟩ := exists_plan_memo (some ⟨8⟩) (by simp)
  simp only [List.map_cons, List.map_nil, List.cons.injEq, and_true] at hkeys
  refine write_xml_eq_ok (d := .object [("a", .element, .object [("id", .attribute, text "x"),
    ("kind", .element, text "memo"), ("b", .element, text "y")])]) rfl
    (ofInstance?_folder ?_) (by decide)
  simp [memo, ofObject?, ofStep?, ofValue?, ofExtras?, Table.find?, hplan, hsteps, memoSteps, hkeys]
  rfl

/-- The values inside of the folder, where they are expected. -/
def folderValues : List (Reference × Value) :=
  [(.collection .mapping (.named ⟨8⟩) false, .map [("a", memo "b")]), (.named ⟨8⟩, memo "b"),
    (.collection .mapping (.named ⟨0⟩) false, .map [("b", .text "y")]), (.named ⟨0⟩, .text "y"),
    (.named ⟨0⟩, .text "x"), (.named ⟨0⟩, .text "memo")]

theorem inside_folder {r : Reference} {v : Value}
    (h : sealedFolders.Inside .xml r v (.collection .mapping (.named ⟨8⟩) false)
      (.map [("a", memo "b")])) : (r, v) ∈ folderValues := by
  refine h.of_closed (Q := fun r v => (r, v) ∈ folderValues) (fun r m vs hvs v hv => ?_)
    (fun r m es hes k v hv => ?_) (fun h t fields ho p hp v hv => ?_) List.mem_cons_self
  · simp [folderValues, memo] at hvs
  · have hcases : (r = .named ⟨8⟩ ∧ m = false ∧ es = [("a", memo "b")]) ∨
        (r = .named ⟨0⟩ ∧ m = false ∧ es = [("b", .text "y")]) := by
      simpa [folderValues, memo, and_assoc] using hes
    obtain ⟨rfl, -, rfl⟩ | ⟨rfl, -, rfl⟩ := hcases <;>
      simp [folderValues, (Prod.mk.inj (List.mem_singleton.1 hv)).2]
  · obtain ⟨-, rfl, rfl⟩ : h = ⟨8⟩ ∧ t = ⟨9⟩ ∧
        fields = [("extra", .map [("b", .text "y")]), ("id", .text "x"), ("kind", .text "memo")] := by
      simpa [folderValues, memo] using ho
    rw [plannedProperties_memo] at hp
    simp only [List.mem_cons, List.not_mem_nil, or_false] at hp
    rcases hp with rfl | rfl | rfl <;> obtain rfl := Option.some.inj hv <;> simp [folderValues]

theorem restorable_memo : sealedFolders.Restorable ⟨9⟩
    [("extra", .map [("b", .text "y")]), ("id", .text "x"), ("kind", .text "memo")] := by
  have hplain : ∀ p ∈ sealedFolders.plannedProperties ⟨9⟩, ':' ∉ (wireName .xml p).toList ∧
      wireName .xml p ≠ "xmlns" ∧ wireName .xml p ≠ "b" ∧ (p.carrier = true → p.name = "extra") ∧
        (p.name = "kind" → p.type = .named ⟨0⟩) := by
    simp [plannedProperties_memo, wireName, Property.xmlWire]
  have hextra : ∀ p ∈ sealedFolders.plannedProperties ⟨9⟩, p.carrier = true → ∀ es,
      Table.find? [("extra", Value.map [("b", .text "y")]), ("id", .text "x"), ("kind", .text "memo")]
        p.name = some (.map es) → es = [("b", .text "y")] := by
    intro p hp hc es hes
    rw [(hplain p hp).2.2.2.1 hc] at hes
    exact (Value.map.inj (Option.some.inj hes)).symm
  refine ⟨⟨fun p hp _ _ => (hplain p hp).1, fun p hp _ _ _ => (hplain p hp).2.1,
    fun p hp hc es hes k v hkv => ?_⟩, fun r d w g hd hw p hp hpd => ?_, fun p hp hc es hes q hq _ => ?_⟩
  · obtain rfl := hextra p hp hc es hes
    obtain ⟨rfl, -⟩ := Prod.mk.inj (List.mem_singleton.1 hkv)
    decide
  · obtain rfl := g.unique governs_memo
    obtain rfl := Option.some.inj hw
    obtain rfl : d = "kind" := hd.unique ⟨_, rfl, rfl⟩
    exact ⟨.text "memo", rfl, ⟨0⟩, (hplain p hp).2.2.2.2 hpd, .inl ⟨rfl, rfl⟩⟩
  · obtain rfl := hextra p hp hc es hes
    simpa [Table.keys] using (hplain q hq).2.2.1

theorem unprefixed_folder : sealedFolders.Unprefixed folder.type folder.fields := by
  have hcarrier : ∀ p ∈ sealedFolders.plannedProperties folder.type,
      p.carrier = true ∧ p.name = "notes" := by
    simp [folder, plannedProperties_folder]
  refine ⟨fun p hp hc => ?_, fun p hp hc => ?_, fun p hp _ es hes k v hkv => ?_⟩
  · simp [(hcarrier p hp).1] at hc
  · simp [(hcarrier p hp).1] at hc
  · rw [(hcarrier p hp).2] at hes
    obtain rfl := Value.map.inj (Option.some.inj hes)
    obtain ⟨rfl, -⟩ := Prod.mk.inj (List.mem_singleton.1 hkv)
    decide

/-- What a folder captured from an attribute is kept as an element. -/
theorem captured_of_read_xml_folder : ∃ i doc w,
    read .xml folderPlans ⟨11⟩ (Text.toBytes captureText) = .ok i ∧
      Table.find? i.fields "notes" = some (.map [("a", memo "b")]) ∧
      write .xml folderPlans i = .ok doc ∧ read .xml folderPlans i.type (Text.toBytes doc) = .ok w ∧
        w.type = i.type ∧ Table.find? w.fields "notes" = some (.map [("a", memo "b")]) := by
  have hkept : sealedFolders.unshadowed .xml folder.type [("a", memo "b")] = [("a", memo "b")] := by
    rw [unshadowed, folder, plannedProperties_folder]
    rfl
  have hp : ({ name := "notes", wire := "notes", carrier := true
               type := .collection .mapping (.named ⟨8⟩) false } : Property) ∈
      sealedFolders.plannedProperties folder.type :=
    plannedProperties_folder ▸ List.mem_singleton_self _
  have hr := read_folder captureText (by simp)
  have hr' := read_folder folderText (by simp)
  have hback := captured_of_read_xml reachable_sealedFolders planAll_sealedFolders hr hp rfl rfl
    unprefixed_folder (fun h t fields ho => ?_) write_folder hr'
  · rw [hkept, if_neg (List.cons_ne_nil _ _)] at hback
    exact ⟨folder, folderText, folder, hr, rfl, write_folder, hr', hback⟩
  · rw [hkept] at ho
    obtain ⟨-, rfl, rfl⟩ : h = ⟨8⟩ ∧ t = ⟨9⟩ ∧
        fields = [("extra", .map [("b", .text "y")]), ("id", .text "x"), ("kind", .text "memo")] := by
      simpa [folderValues, memo] using inside_folder ho
    exact restorable_memo

/-- A document is read, and what is written of it, behind the declaration, is read again. -/
structure Passage where
  document : String
  before : Instance
  written : String
  after : Instance

/-- A memo captures an element under the name of an attribute, or one with two prefixes; a folder holds
such a memo, a memo of two kinds, or a letter with an attribute that is taken for the declaration of a
namespace once it is written. -/
def altered : List Passage :=
  [⟨"<Memo id=\"x\"><kind>memo</kind><id>y</id></Memo>",
      ⟨⟨9⟩, [("extra", .map [("id", .text "y")]), ("id", .text "x"), ("kind", .text "memo")]⟩,
      "<Memo id=\"x\"><kind>memo</kind></Memo>",
      ⟨⟨9⟩, [("id", .text "x"), ("kind", .text "memo")]⟩⟩,
    ⟨"<Memo id=\"x\"><kind>memo</kind><z:a:b>y</z:a:b></Memo>",
      ⟨⟨9⟩, [("extra", .map [("a:b", .text "y")]), ("id", .text "x"), ("kind", .text "memo")]⟩,
      "<Memo id=\"x\"><kind>memo</kind><a:b>y</a:b></Memo>",
      ⟨⟨9⟩, [("extra", .map [("b", .text "y")]), ("id", .text "x"), ("kind", .text "memo")]⟩⟩,
    ⟨"<Folder><a id=\"x\"><kind>memo</kind><id>y</id></a></Folder>",
      ⟨⟨11⟩, [("notes", .map [("a", memo "id")])]⟩,
      "<Folder><a id=\"x\"><kind>memo</kind></a></Folder>",
      ⟨⟨11⟩, [("notes", .map [("a", .object ⟨9⟩ [("id", .text "x"), ("kind", .text "memo")])])]⟩⟩,
    ⟨"<Folder><a><kind>memo</kind><kind>letter</kind></a></Folder>",
      ⟨⟨11⟩, [("notes", .map [("a", .object ⟨9⟩ [("kind", .text "letter")])])]⟩,
      "<Folder><a><kind>memo</kind></a></Folder>",
      ⟨⟨11⟩, [("notes", .map [("a", .object ⟨9⟩ [("kind", .text "memo")])])]⟩⟩,
    ⟨"<Folder><a z:xmlns=\"x\"><kind>letter</kind></a></Folder>",
      ⟨⟨11⟩, [("notes", .map [("a", .object ⟨10⟩ [("kind", .text "letter"), ("scheme", .text "x")])])]⟩,
      "<Folder><a xmlns=\"x\"><kind>letter</kind></a></Folder>",
      ⟨⟨11⟩, [("notes", .map [("a", .object ⟨10⟩ [("kind", .text "letter")])])]⟩⟩]

theorem read_altered : ∀ x ∈ altered,
    read .xml folderPlans x.before.type (Text.toBytes x.document) = .ok x.before ∧
      read .xml folderPlans x.before.type (Text.toBytes (Markup.Writer.declaration ++ x.written)) =
        .ok x.after := by
  have hexact : ∀ x ∈ altered, x.before.toValue.isExact = true ∧ x.after.toValue.isExact = true := by
    decide
  have hr : ∀ x ∈ altered,
      (read .xml folderPlans x.before.type (Text.toBytes x.document)).toOption.map x.before.same =
          some true ∧
        (read .xml folderPlans x.before.type
          (Text.toBytes (Markup.Writer.declaration ++ x.written))).toOption.map x.after.same =
            some true := by
    simp only [altered, List.forall_mem_cons]
    refine ⟨⟨?_, ?_⟩, ⟨?_, ?_⟩, ⟨?_, ?_⟩, ⟨?_, ?_⟩, ⟨?_, ?_⟩, by simp⟩
    all_goals first
      | rw [read_xml_declaration, Text.Symbol.ofText_ofList]
      | rw [read_xml_ofList]
    all_goals decide +kernel
  exact fun x hx => ⟨read_eq_of_same (hexact x hx).1 (hr x hx).1,
    read_eq_of_same (hexact x hx).2 (hr x hx).2⟩

theorem write_altered : ∀ x ∈ altered,
    write .xml folderPlans x.before = .ok (Markup.Writer.declaration ++ x.written) := by
  have hletter : (plan? folderPlans (some ⟨8⟩) ⟨10⟩).map (fun plan => plan.write.steps) =
      some [⟨"scheme", "xmlns", .value (.primitive .string), .attribute, false, false⟩,
        ⟨"kind", "kind", .discriminator (some "letter"), .element, true, false⟩] :=
    rfl
  obtain ⟨plan, hplan, hsteps, hkeys⟩ := exists_plan_memo none (by simp)
  obtain ⟨note, hnote, hnotes, hkeys'⟩ := exists_plan_memo (some ⟨8⟩) (by simp)
  obtain ⟨letter, hletter, hletters⟩ := Option.map_eq_some_iff.1 hletter
  simp only [List.map_cons, List.map_nil, List.cons.injEq, and_true] at hkeys hkeys'
  simp only [altered, List.forall_mem_cons]
  refine ⟨?shadowed, ?cut, ?shadowedInside, ?kinds, ?declaration, by simp⟩
  case shadowed =>
    refine write_xml_eq_ok (d := .object [("id", .attribute, text "x"),
      ("kind", .element, text "memo")]) rfl ?_ (by decide)
    simp [ofInstance?, ofObject?, ofStep?, ofValue?, ofExtras?, Table.find?, hplan, hsteps, memoSteps,
      hkeys]
    rfl
  case cut =>
    refine write_xml_eq_ok (d := .object [("id", .attribute, text "x"),
      ("kind", .element, text "memo"), ("a:b", .element, text "y")]) rfl ?_ (by decide)
    simp [ofInstance?, ofObject?, ofStep?, ofValue?, ofExtras?, Table.find?, hplan, hsteps, memoSteps,
      hkeys]
    rfl
  case shadowedInside =>
    refine write_xml_eq_ok (d := .object [("a", .element, .object [("id", .attribute, text "x"),
      ("kind", .element, text "memo")])]) rfl (ofInstance?_folder ?_) (by decide)
    simp [memo, ofObject?, ofStep?, ofValue?, ofExtras?, Table.find?, hnote, hnotes, memoSteps, hkeys']
    rfl
  case kinds =>
    refine write_xml_eq_ok (d := .object [("a", .element, .object [("kind", .element, text "memo")])])
      rfl (ofInstance?_folder ?_) (by decide)
    simp [ofObject?, ofStep?, ofValue?, Table.find?, hnote, hnotes, memoSteps]
  case declaration =>
    refine write_xml_eq_ok (d := .object [("a", .element, .object [("xmlns", .attribute, text "x"),
      ("kind", .element, text "letter")])]) rfl (ofInstance?_folder ?_) (by decide)
    simp [ofObject?, ofStep?, ofValue?, Table.find?, hletter, hletters]
    rfl

theorem find?_altered : ∀ x ∈ altered, ∃ p ∈ sealedFolders.plannedProperties x.before.type,
    p.carrier = true ∧ ∃ es, Table.find? x.before.fields p.name = some (.map es) ∧
      Table.find? x.after.fields p.name ≠ some (.map es) := by
  have hmemo : ∃ p ∈ sealedFolders.plannedProperties ⟨9⟩, p.carrier = true ∧ p.name = "extra" := by
    simp [plannedProperties_memo]
  have hfolder : ∃ p ∈ sealedFolders.plannedProperties ⟨11⟩, p.carrier = true ∧ p.name = "notes" := by
    simp [plannedProperties_folder]
  obtain ⟨p, hp, hpc, hpn⟩ := hmemo
  obtain ⟨q, hq, hqc, hqn⟩ := hfolder
  simp only [altered, List.forall_mem_cons]
  refine ⟨⟨p, hp, hpc, ?_⟩, ⟨p, hp, hpc, ?_⟩, ⟨q, hq, hqc, ?_⟩, ⟨q, hq, hqc, ?_⟩, ⟨q, hq, hqc, ?_⟩,
    by simp⟩ <;> simp [hpn, hqn, Table.find?, memo]

/-- **Not all that was captured is kept**: these documents are read, and what is written of them is read
again, but the carrier holds something else. -/
theorem not_captured_of_read_xml :
    sealedFolders.Reachable ∧ sealedFolders.planAll .xml = .ok folderPlans ∧ altered ≠ [] ∧
      ∀ x ∈ altered, read .xml folderPlans x.before.type (Text.toBytes x.document) = .ok x.before ∧
        ∃ doc, write .xml folderPlans x.before = .ok doc ∧
          read .xml folderPlans x.before.type (Text.toBytes doc) = .ok x.after ∧
            ∃ p ∈ sealedFolders.plannedProperties x.before.type, p.carrier = true ∧
              ∃ es, Table.find? x.before.fields p.name = some (.map es) ∧
                Table.find? x.after.fields p.name ≠ some (.map es) := by
  refine ⟨reachable_sealedFolders, planAll_sealedFolders, List.cons_ne_nil _ _, fun x hx => ?_⟩
  obtain ⟨hr, hr'⟩ := read_altered x hx
  exact ⟨hr, _, write_altered x hx, hr', find?_altered x hx⟩

end Document

end Marshal
