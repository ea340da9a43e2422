import Marshal.Proofs.Markup.Objects
import Marshal.Proofs.Wire.Unbound

/-!
# What is captured stays apart

What an object captures does not reach its properties: two objects that differ only there are read
back from markup with the same type and the same properties (`Document.declared_of_read_xml`), as long
as no name has a prefix. The entries are written apart from the properties by their whole keys, but
read by what is left without the prefix, so a key with a prefix can pass for a property
(`Document.not_declared_of_read_xml`).
-/

namespace Marshal

open Catalogue Draft

namespace Draft

variable {c : Catalogue} {f : Format} {s : PlanSet} {t : Handle} {o : ObjectType} {plan : TypePlan}
  {fields fields' : List (String × Value)} {p : Property}
  {ps ps' : List (String × Placement × Draft)} {pss pss' : List (List (String × Placement × Draft))}

/-- What is written of a property depends on what the property holds. -/
theorem Part.eq_of_find?_eq (h : Part c f s t plan fields p ps) (h' : Part c f s t plan fields' p ps')
    (hc : p.carrier = false) (he : Table.find? fields p.name = Table.find? fields' p.name) :
    ps = ps' := by
  cases h with
  | word _ distinguishes word =>
    cases h' with
    | word _ _ word' => rw [Option.some.inj (word.symm.trans word')]
    | absent _ ordinary | value _ ordinary => exact absurd distinguishes ordinary
    | uncaptured carrier | captured carrier => simp [hc] at carrier
  | absent _ ordinary absent =>
    cases h' with
    | word _ distinguishes => exact absurd distinguishes ordinary
    | absent => rfl
    | value _ _ found => simp [← he, absent] at found
    | uncaptured carrier | captured carrier => simp [hc] at carrier
  | value _ ordinary found forms _ draft =>
    cases h' with
    | word _ distinguishes => exact absurd distinguishes ordinary
    | absent _ _ absent => simp [← he, found] at absent
    | value _ _ found' forms' _ draft' =>
      obtain rfl := Option.some.inj (found.symm.trans (he.trans found'))
      obtain rfl := forms.unique forms'
      rw [Option.some.inj (draft.symm.trans draft')]
    | uncaptured carrier | captured carrier => simp [hc] at carrier
  | uncaptured carrier | captured carrier => simp [hc] at carrier

/-- What is written of a carrier is bound to no property when it is read. -/
theorem Part.bound_of_carrier (h : Part c .xml s t plan fields p ps) (hc : p.carrier = true)
    (hk : ∀ x ∈ ps, ':' ∉ x.1.toList) : Tree.bound plan (ps.flatMap Markup.Node.ofPart) = [] := by
  rw [Tree.bound, List.filter_eq_nil_iff]
  intro y hy
  obtain ⟨x, hx, hy⟩ := List.mem_flatMap.1 hy
  have hfree := h.name x hx
  rw [if_pos hc] at hfree
  rw [Markup.Node.name_of_ofPart (hk x hx) y hy, Decode.boundAction_of_not_contains hfree]
  exact Bool.false_ne_true

/-- **Objects that agree on their properties** have the same parts bound to them. -/
theorem bound_parts_eq {qs : List Property} (H : List.Forall₂ (Part c .xml s t plan fields) qs pss)
    (H' : List.Forall₂ (Part c .xml s t plan fields') qs pss')
    (hk : ∀ x ∈ pss.flatten, ':' ∉ x.1.toList) (hk' : ∀ x ∈ pss'.flatten, ':' ∉ x.1.toList)
    (he : ∀ q ∈ qs, q.carrier = false → Table.find? fields q.name = Table.find? fields' q.name) :
    Tree.bound plan (pss.flatten.flatMap Markup.Node.ofPart) =
      Tree.bound plan (pss'.flatten.flatMap Markup.Node.ofPart) := by
  induction H generalizing pss' with
  | nil =>
    cases H'
    rfl
  | @cons q ps qs pss hq _ ih =>
    obtain _ | ⟨hq', H'⟩ := H'
    rw [List.flatten_cons, List.forall_mem_append] at hk hk'
    obtain ⟨heq, he⟩ := List.forall_mem_cons.1 he
    have hrest := ih H' hk.2 hk'.2 he
    simp only [List.flatten_cons, List.flatMap_append, Tree.bound, List.filter_append] at hrest ⊢
    rw [hrest]
    refine congrArg (· ++ _) ?_
    cases hc : q.carrier with
    | true => exact (hq.bound_of_carrier hc hk.1).trans (hq'.bound_of_carrier hc hk'.1).symm
    | false => rw [hq.eq_of_find?_eq hq' hc (heq hc)]

end Draft

namespace Document

variable {c : Catalogue} {cancelled : Bool} {plans : PlanSet} {i i' w w' : Instance}
  {doc doc' : String}

/-- An object without prefixes that is read as what it was written is a scan of its parts. -/
theorem exists_scan_of_read_xml (P : c.PlannedBy .xml plans) (hw : write .xml plans i = .ok doc)
    (hun : c.Unprefixed i.type i.fields) (hr : read .xml plans i.type (Text.toBytes doc) = .ok w) :
    ∃ o plan pss scan, Written c .xml plans i.type i.fields o plan pss ∧
      Markup.Unprefixed pss.flatten ∧
      (pss.flatten.flatMap Markup.Node.ofPart).foldlM
        (Tree.field (Tree.value plans (Decode.depthLimit - 1)) plan) ⟨[], []⟩ = .ok scan ∧
      scan.make plan = .ok w := by
  obtain ⟨o, plan, pss, hwritten, hread⟩ := exists_written_of_write_xml P hw hun
  rw [hread, Tree.root] at hr
  have hnames := hwritten.unprefixed hun
  obtain ⟨u, hu⟩ := c.exists_recognised i.type i.type
  obtain rfl : u = i.type := by cases hu <;> rfl
  obtain ⟨dplan, uo, uplan, hd, -, hutype, -, hconcrete⟩ :=
    Tree.exists_concretePlan P hwritten (.refl _) (Markup.Node.showsTexts hnames) hu
  obtain rfl := Option.some.inj (hutype.symm.trans hwritten.planned)
  rw [Tree.object_eq_bind hd (hwritten.parts_ofDraft hun _) rfl hconcrete] at hr
  obtain ⟨scan, hscan, hmake⟩ := Outcome.bind_eq_ok_iff.1 hr
  exact ⟨o, uplan, pss, scan, hwritten, hnames, hscan, hmake⟩

/-- **What is captured does not reach the properties.** Objects of one type that differ in what they
capture only, and whose names have no prefixes, come back from their XML documents with one type and
the same values of its properties. -/
theorem declared_of_read_xml (hc : c.Reachable) (hp : c.planAll .xml cancelled = .ok plans)
    (htype : i.type = i'.type)
    (hsame : ∀ p ∈ c.plannedProperties i.type, p.carrier = false →
      Table.find? i.fields p.name = Table.find? i'.fields p.name)
    (hun : c.Unprefixed i.type i.fields) (hun' : c.Unprefixed i'.type i'.fields)
    (hw : write .xml plans i = .ok doc) (hw' : write .xml plans i' = .ok doc')
    (hr : read .xml plans i.type (Text.toBytes doc) = .ok w)
    (hr' : read .xml plans i'.type (Text.toBytes doc') = .ok w') :
    w.type = w'.type ∧ ∀ p ∈ c.plannedProperties w.type, p.carrier = false →
      Table.find? w.fields p.name = Table.find? w'.fields p.name := by
  have P := planAll_spec hc hp
  have W := P.wellFormed
  obtain ⟨o, plan, pss, scan, hwritten, hnames, hscan, hmake⟩ :=
    exists_scan_of_read_xml P hw hun hr
  obtain ⟨o', plan', pss', scan', hwritten', hnames', hscan', hmake'⟩ :=
    exists_scan_of_read_xml P hw' hun' hr'
  have hplan : plan = plan' :=
    Option.some.inj (hwritten.planned.symm.trans (htype ▸ hwritten'.planned))
  subst hplan
  have hplans := hwritten.plans
  have hplans' : c.Plans .xml i.type o' plan := htype ▸ hwritten'.plans
  -- the scans have the same parts bound to properties, so the same fields
  have hparts := hwritten'.parts
  rw [← htype] at hparts
  have hbound := bound_parts_eq hwritten.parts hparts (fun x hx => (hnames x hx).1)
    (fun x hx => (hnames' x hx).1) fun q hq hqc => hsame q (mem_emissionOrder.1 hq) hqc
  have hfields := Tree.fields_of_bound hscan []
  rw [hbound, Tree.fields_of_bound hscan' []] at hfields
  obtain ⟨hfields, -⟩ := Decode.Scan.mk.inj (Except.ok.inj hfields)
  have hwtype : w.type = i.type := (Decode.type_of_make hmake).trans hplans.type
  have hwtype' : w'.type = i.type := (Decode.type_of_make hmake').trans hplans.type
  refine ⟨hwtype.trans hwtype'.symm, fun p hp hpc => ?_⟩
  rw [hwtype] at hp
  rw [Decode.find?_of_make hplans hmake hp, Decode.find?_of_make hplans hmake' hp,
    Decode.find?_gathered W hwritten.type hplans hp hpc,
    Decode.find?_gathered W hwritten.type hplans hp hpc, hfields]

end Document

/-! ## Profiles -/

/-- Profiles have a name each, which is an attribute in markup, perhaps a nickname, and whatever else
is said. -/
def Catalogue.profiles : Catalogue :=
  .ofEntities [
    ⟨"Profile", .object
      { properties := [
          { name := "id", wire := "id", type := .named ⟨0⟩, required := true, placement := .attribute },
          { name := "nick", wire := "nick", type := .named ⟨0⟩ },
          { name := "extra", wire := "extra", carrier := true
            type := .collection .mapping (.named ⟨0⟩) false }] }⟩]

/-- The profiles, sealed. -/
def Catalogue.sealedProfiles : Catalogue := profiles.withForest ⟨[], []⟩

theorem Catalogue.reachable_sealedProfiles : sealedProfiles.Reachable := by
  have hopen : profiles.Reachable := .ofEntities (by decide)
  exact .trySeal hopen rfl

/-- The plans of the profiles for markup. -/
def Catalogue.profilePlans : PlanSet := (sealedProfiles.planAll .xml).toOption.getD ⟨.xml, [], []⟩

theorem Catalogue.planAll_sealedProfiles : sealedProfiles.planAll .xml = .ok profilePlans := by
  decide

namespace Document

/-- A profile of which something else is said. -/
def profile (key value : String) : Instance :=
  ⟨⟨8⟩, [("extra", .map [(key, .text value)]), ("id", .text "p"), ("nick", .text "zed")]⟩

/-- The document of a profile, behind the declaration. -/
def profileText (key value : String) : String :=
  Markup.Writer.declaration ++ "<Profile id=\"p\"><nick>zed</nick><" ++ key ++ ">" ++ value ++ "</" ++
    key ++ "></Profile>"

/-- Keys of what else is said, and what is said. -/
def sayings : List (String × String) := [("hobby", "chess"), ("motto", "so what"), ("x:nick", "spoofed")]

theorem write_profile : ∀ e ∈ sayings,
    write .xml profilePlans (profile e.1 e.2) = .ok (profileText e.1 e.2) := by
  have hplans : (plan? profilePlans none ⟨8⟩).map
      (fun plan => (sayings.map fun e => Table.contains plan.read.actions e.1, plan.write.steps)) =
        some ([false, false, false],
          [⟨"id", "id", .value (.primitive .string), .attribute, true, false⟩,
            ⟨"nick", "nick", .value (.primitive .string), .element, false, false⟩,
            ⟨"extra", "extra", .entries (.primitive .string) false, .element, false, false⟩]) := by
    decide
  obtain ⟨plan, hplan, h⟩ := Option.map_eq_some_iff.1 hplans
  obtain ⟨hkeys, hsteps⟩ := Prod.mk.inj h
  have hdraft : ∀ e ∈ sayings, ofInstance? profilePlans (profile e.1 e.2) =
      some (.object [("id", .attribute, text "p"), ("nick", .element, text "zed"),
        (e.1, .element, text e.2)]) := by
    intro e he
    have hkey : Table.contains plan.read.actions e.1 = false := by
      simp only [sayings, List.map_cons, List.map_nil, List.cons.injEq] at hkeys
      simp only [sayings, List.mem_cons, List.not_mem_nil, or_false] at he
      rcases he with rfl | rfl | rfl
      · exact hkeys.1
      · exact hkeys.2.1
      · exact hkeys.2.2.1
    simp [ofInstance?, profile, ofObject?, ofStep?, ofValue?, ofExtras?, Table.find?, hplan, hsteps,
      hkey]
    rfl
  have hrun : ∀ e ∈ sayings, (profilePlans.type? ⟨8⟩).map (fun plan =>
      draftDocument plan.write.rootName plan.write.rootNamespace
        (.object [("id", .attribute, text "p"), ("nick", .element, text "zed"),
          (e.1, .element, text e.2)])) = some (.ok (profileText e.1 e.2)) := by
    decide
  exact fun e he => write_xml_eq_ok rfl (hdraft e he) (hrun e he)

/-- The text that a property holds. -/
def textAt (i : Instance) (name : String) : Option String :=
  (Table.find? i.fields name).bind Value.text?

/-- What is said under a key with a prefix replaces the nickname. -/
theorem read_profile : ∀ e ∈ sayings, ∃ w,
    read .xml profilePlans ⟨8⟩ (Text.toBytes (profileText e.1 e.2)) = .ok w ∧
      textAt w "nick" = some (if e.1 = "x:nick" then e.2 else "zed") := by
  have hr : ∀ e ∈ sayings,
      (read .xml profilePlans ⟨8⟩ (Text.toBytes (profileText e.1 e.2))).toOption.map
        (fun w => textAt w "nick") = some (some (if e.1 = "x:nick" then e.2 else "zed")) := by
    simp only [profileText, String.append_assoc, read_xml_declaration, Markup.ofText_append]
    decide +kernel
  intro e he
  obtain ⟨w, hw, hnick⟩ := Option.map_eq_some_iff.1 (hr e he)
  exact ⟨w, Outcome.toOption_eq_some_iff.1 hw, hnick⟩

/-- Profiles agree on their properties, whatever else is said. -/
theorem find?_profile (key value key' value' : String) :
    ∀ p ∈ sealedProfiles.plannedProperties ⟨8⟩, p.carrier = false →
      Table.find? (profile key value).fields p.name = Table.find? (profile key' value').fields p.name := by
  have hnames : ∀ p ∈ sealedProfiles.plannedProperties ⟨8⟩, p.carrier = false → p.name ≠ "extra" := by
    decide
  intro p hp hc
  simp [profile, Table.find?, hnames p hp hc]

/-- **What is captured can pass for a property** if its key has a prefix: two profiles that differ in
what else is said come back with different nicknames. -/
theorem not_declared_of_read_xml :
    sealedProfiles.Reachable ∧ sealedProfiles.planAll .xml = .ok profilePlans ∧
      (∀ p ∈ sealedProfiles.plannedProperties ⟨8⟩, p.carrier = false →
        Table.find? (profile "hobby" "chess").fields p.name =
          Table.find? (profile "x:nick" "spoofed").fields p.name) ∧
      ∃ doc doc' w w', write .xml profilePlans (profile "hobby" "chess") = .ok doc ∧
        write .xml profilePlans (profile "x:nick" "spoofed") = .ok doc' ∧
        read .xml profilePlans ⟨8⟩ (Text.toBytes doc) = .ok w ∧
        read .xml profilePlans ⟨8⟩ (Text.toBytes doc') = .ok w' ∧
          Table.find? w.fields "nick" ≠ Table.find? w'.fields "nick" := by
  obtain ⟨w, hw, hnick⟩ := read_profile ("hobby", "chess") (by decide)
  obtain ⟨w', hw', hnick'⟩ := read_profile ("x:nick", "spoofed") (by decide)
  refine ⟨reachable_sealedProfiles, planAll_sealedProfiles, find?_profile _ _ _ _, _, _, w, w',
    write_profile ("hobby", "chess") (by decide), write_profile ("x:nick", "spoofed") (by decide),
    hw, hw', fun he => ?_⟩
  rw [textAt, he] at hnick
  exact absurd (hnick.symm.trans hnick') (by decide)

theorem unprefixed_profile {key value : String} (hk : ':' ∉ key.toList) :
    sealedProfiles.Unprefixed ⟨8⟩ (profile key value).fields := by
  have hplain : ∀ p ∈ sealedProfiles.plannedProperties ⟨8⟩,
      ':' ∉ (wireName .xml p).toList ∧ wireName .xml p ≠ "xmlns" ∧ (p.carrier = true → p.name = "extra") := by
    decide
  refine ⟨fun p hp _ _ => (hplain p hp).1, fun p hp _ _ _ => (hplain p hp).2.1,
    fun p hp hc es hes k v hv => ?_⟩
  rw [(hplain p hp).2.2 hc] at hes
  obtain rfl := Value.map.inj (Option.some.inj hes)
  obtain ⟨rfl, -⟩ := Prod.mk.inj (List.mem_singleton.1 hv)
  exact hk

/-- Profiles of which different things are said come back with the same nickname. -/
theorem declared_of_read_xml_profile : ∃ w w',
    read .xml profilePlans ⟨8⟩ (Text.toBytes (profileText "hobby" "chess")) = .ok w ∧
    read .xml profilePlans ⟨8⟩ (Text.toBytes (profileText "motto" "so what")) = .ok w' ∧
      w.type = w'.type ∧ ∀ p ∈ sealedProfiles.plannedProperties w.type, p.carrier = false →
        Table.find? w.fields p.name = Table.find? w'.fields p.name := by
  obtain ⟨w, hw, -⟩ := read_profile ("hobby", "chess") (by decide)
  obtain ⟨w', hw', -⟩ := read_profile ("motto", "so what") (by decide)
  have htype : (profile "hobby" "chess").type = (profile "motto" "so what").type := rfl
  exact ⟨w, w', hw, hw', declared_of_read_xml reachable_sealedProfiles planAll_sealedProfiles htype
    (find?_profile _ _ _ _) (unprefixed_profile (by decide)) (unprefixed_profile (by decide))
    (write_profile ("hobby", "chess") (by decide)) (write_profile ("motto", "so what") (by decide))
    hw hw'⟩

end Document

end Marshal
