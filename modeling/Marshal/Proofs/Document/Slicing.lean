import Marshal.Proofs.Json.Outline
import Marshal.Proofs.Markup.Parts

/-!
# Subtypes held by properties

A property may hold an object of a subtype of what it declares. When a document is read back, the
property holds an object again (`exists_object_of_read`): of the type that was written where the
declared type is in a hierarchy told apart by a discriminator, and of the declared type where it is
not, since nothing in the document tells the subtype then (`not_held_picture`). In markup this takes
names without prefixes, because reading cuts them off.
-/

namespace Marshal

open Catalogue

variable {c : Catalogue} {f : Format} {s : PlanSet} {t u h : Handle} {o ou : ObjectType}
  {plan uplan : TypePlan} {fields us : List (String × Value)} {p : Property}
  {pss qss : List (List (String × Placement × Draft))}

/-! ## Writing -/

/-- A property that declares an object type and holds an object of a subtype is written as one part,
the object along the plan of its own type. -/
theorem Draft.Written.exists_filter_object (P : c.PlannedBy f s)
    (hw : Draft.Written c f s t fields o plan pss) (hp : p ∈ c.plannedProperties t)
    (htype : p.type = .named h) (hfield : Table.find? fields p.name = some (.object u us))
    (hu : c.object? u = some ou) (hi : c.Inherits u h) :
    p.carrier = false ∧ c.Forms (layoutIn f p) p.type (.object h) ∧ placementIn f p = .element ∧
      ∃ uplan qss, Draft.Written c f s u us ou uplan qss ∧
        pss.flatten.filter (fun x => x.1 = wireName f p) =
          [(wireName f p, .element, .object qss.flatten)] := by
  have W := P.wellFormed
  obtain ⟨oh, hoh⟩ := object?_of_inherits W.base hu hi
  have hc : p.carrier = false := by
    rw [← Bool.not_eq_true]
    intro hcar
    obtain ⟨r, n, hr⟩ := W.exists_mapping_of_carrier hp hcar
    rw [htype] at hr
    cases hr
  obtain ⟨ps, hpart, hfilter⟩ := hw.exists_filter_eq W hp hc
  have hshape : c.Forms (layoutIn f p) p.type (.object h) := htype ▸ .object hoh
  cases hpart with
  | word _ distinguishes =>
    -- a discriminator is a text or a word, and no object
    obtain ⟨r, g, hd⟩ := distinguishes
    obtain ⟨q, hq, hqn, -, -, -, k, hk, hkind⟩ := P.exists_discriminator g hd
    obtain rfl := W.eq_of_name hw.type hq hp hqn
    obtain rfl := Reference.named.inj (htype.symm.trans hk)
    rcases hkind with hkind | ⟨e, hkind⟩ <;> simp [object?, hkind, Kind.object?] at hoh
  | absent _ _ absent => simp [hfield] at absent
  | uncaptured carrier | captured carrier => simp [hc] at carrier
  | @value shape v d _ _ found forms fault draft =>
    obtain rfl := Option.some.inj (hfield.symm.trans found)
    obtain rfl := hshape.unique forms
    rw [ofValue?.eq_4] at draft
    obtain ⟨ou', uplan, qss, hqw, rfl, -⟩ := Draft.written_of_ofObject? P draft
    obtain rfl := Option.some.inj (hu.symm.trans hqw.type)
    have hplace : placementIn f p = .element := by
      cases f with
      | json => rfl
      | xml =>
        rcases ha : p.placement with _ | _
        · exact ha
        · simp [layoutFault?, ha, Shape.isScalar] at fault
    rw [hplace] at hfilter
    exact ⟨hc, hshape, hplace, uplan, qss, hqw, hfilter⟩

/-! ## Reading -/

namespace Tree

open Draft

variable {τ : Type} [Tree τ] {node node' : τ} {ts : List (String × Placement × τ)} {room : Nat}
  {i : Instance}

/-- **The property of the object that is read** holds one of the type that is recognised. -/
theorem exists_object_of_object (P : c.PlannedBy f s) (hw : Written c f s t fields o plan pss)
    (htext : ShowsTexts node pss.flatten) (hp : p ∈ c.plannedProperties t)
    (hc : p.carrier = false) (hshape : c.Forms (layoutIn f p) p.type (.object h))
    (hparts : Tree.parts node = .ok ts)
    (hone : under (wireName f p) (placementIn f p) ts = [(wireName f p, placementIn f p, node')])
    (hn : Tree.isNull node' = false) (hu : Written c f s u us ou uplan qss) (hi : c.Inherits u h)
    (htext' : ShowsTexts node' qss.flatten) (hread : object s (value s room) t node = .ok i) :
    ∃ k ks, Table.find? i.fields p.name = some (.object k ks) ∧ c.Recognised h u k := by
  obtain ⟨v, hv, hfound⟩ :=
    exists_field_of_object P hw htext hp hc hshape rfl hparts hone hread
  obtain ⟨inner, j, hj, rfl⟩ := exists_object_of_value hn hv
  obtain ⟨k, hk⟩ := c.exists_recognised h u
  refine ⟨j.type, j.fields, hfound, ?_⟩
  rw [type_of_object P hu hi htext' hk hj]
  exact hk

end Tree

namespace Document

open Draft

variable {i w : Instance} {doc : String} {cancelled : Bool}

/-- **What a property holds after a round trip** is an object of the type recognised for the one it
held: of the same type where the declared type is in a hierarchy, and else of the declared type. -/
theorem exists_object_of_read (hc : c.Reachable) (hp : c.planAll f cancelled = .ok s)
    (hw : write f s i = .ok doc) (hr : read f s i.type (Text.toBytes doc) = .ok w)
    (hmem : p ∈ c.plannedProperties i.type) (htype : p.type = .named h)
    (hfield : Table.find? i.fields p.name = some (.object u us)) (hu : c.object? u = some ou)
    (hi : c.Inherits u h)
    (hnames : f = .xml → c.Unprefixed i.type i.fields ∧ c.Unprefixed u us) :
    ∃ k ks, Table.find? w.fields p.name = some (.object k ks) ∧ c.Recognised h u k := by
  have P := planAll_spec hc hp
  cases f with
  | json =>
    obtain ⟨d, hd, rfl⟩ := (write_json_eq_ok_iff P).1 hw
    obtain ⟨o, plan, pss, hwritten, rfl, -⟩ := written_of_ofObject? P hd
    obtain ⟨hcar, hshape, hplace, uplan, qss, huw, hone⟩ :=
      hwritten.exists_filter_object P hmem htype hfield hu hi
    obtain ⟨j, hj, hroot⟩ := root_of_read_json P.format hr
    have hout := Json.outline_of_ofBytes? (Json.regular_ofDraft _) hj
    obtain ⟨ts, j', hparts, hunder, hn, hout'⟩ := Json.exists_under_of_outline hout hone
    exact Tree.exists_object_of_object P hwritten (Json.showsTexts_of_outline hout) hmem hcar hshape
      hparts hunder hn huw hi (Json.showsTexts_of_outline hout') hroot
  | xml =>
    obtain ⟨hni, hnu⟩ := hnames rfl
    obtain ⟨o, plan, pss, hwritten, hread⟩ := exists_written_of_write_xml P hw hni
    obtain ⟨hcar, hshape, hplace, uplan, qss, huw, hone⟩ :=
      hwritten.exists_filter_object P hmem htype hfield hu hi
    have hun := hwritten.unprefixed hni
    rw [hread] at hr
    have hunder := Markup.Node.under_ofPart hun hone rfl rfl
    rw [← hplace] at hunder
    exact Tree.exists_object_of_object P hwritten (Markup.Node.showsTexts hun) hmem hcar hshape
      (hwritten.parts_ofDraft hni _) hunder rfl huw hi
      (Markup.Node.showsTexts (huw.unprefixed hnu)) hr

end Document

/-! ## Pictures -/

/-- Pictures hold a figure, which nothing tells apart from a disc, and a shape, which its kind tells
apart. Stamps hold a figure under a name that has a prefix in markup. -/
def Catalogue.pictures : Catalogue :=
  .ofEntities [
    ⟨"Figure", .object {}⟩,
    ⟨"Disc", .object
      { base := some ⟨8⟩, properties := [{ name := "radius", wire := "radius", type := .named ⟨2⟩ }] }⟩,
    ⟨"Shape", .object
      { properties := [{ name := "kind", wire := "kind", type := .named ⟨0⟩, required := true }]
        discriminator := some "kind"
        isAbstract := true }⟩,
    ⟨"Round", .object { base := some ⟨10⟩, discriminatorValue := some "round" }⟩,
    ⟨"Picture", .object
      { properties := [
          { name := "figure", wire := "figure", type := .named ⟨8⟩ },
          { name := "shape", wire := "shape", type := .named ⟨10⟩ }] }⟩,
    ⟨"Stamp", .object
      { properties := [
          { name := "mark", wire := "mark", type := .named ⟨8⟩, xmlName := some "a:mark" }] }⟩]

/-- The pictures, sealed. -/
def Catalogue.sealedPictures : Catalogue :=
  pictures.withForest ⟨[⟨⟨10⟩, "kind", [("round", ⟨11⟩)]⟩], [(⟨10⟩, ⟨10⟩), (⟨11⟩, ⟨10⟩)]⟩

theorem Catalogue.reachable_sealedPictures : sealedPictures.Reachable := by
  have hopen : pictures.Reachable := .ofEntities (by decide)
  exact .trySeal hopen rfl

/-- The plans of the pictures for a format. -/
def Catalogue.picturePlans (f : Format) : PlanSet :=
  (sealedPictures.planAll f).toOption.getD ⟨f, [], []⟩

theorem Catalogue.planAll_sealedPictures (f : Format) :
    sealedPictures.planAll f = .ok (picturePlans f) := by
  cases f <;> rfl

theorem Catalogue.inherits_disc : sealedPictures.Inherits ⟨9⟩ ⟨8⟩ :=
  .of_base rfl (.refl _)

theorem Catalogue.inherits_round : sealedPictures.Inherits ⟨11⟩ ⟨10⟩ :=
  .of_base rfl (.refl _)

namespace Document

open Draft

/-- A picture of a disc and a round shape. -/
def picture : Instance :=
  ⟨⟨12⟩, [("figure", .object ⟨9⟩ [("radius", .integer 5)]),
    ("shape", .object ⟨11⟩ [("kind", .text "round")])]⟩

/-- A stamp with a figure. -/
def stamp : Instance := ⟨⟨13⟩, [("mark", .object ⟨8⟩ [])]⟩

theorem ofInstance?_picture (f : Format) : ofInstance? (picturePlans f) picture = some
    (.object [("figure", .element, .object [("radius", .element, .scalar (.integer 5) rfl)]),
      ("shape", .element, .object [("kind", .element, text "round")])]) := by
  have hpicture : (plan? (picturePlans f) none ⟨12⟩).map (fun plan => plan.write.steps) = some
      [⟨"figure", "figure", .value (.object ⟨8⟩), .element, false, false⟩,
        ⟨"shape", "shape", .value (.object ⟨10⟩), .element, false, false⟩] := by
    cases f <;> rfl
  have hdisc : (plan? (picturePlans f) (some ⟨8⟩) ⟨9⟩).map (fun plan => plan.write.steps) = some
      [⟨"radius", "radius", .value (.primitive .integer), .element, false, false⟩] := by
    cases f <;> rfl
  have hround : (plan? (picturePlans f) (some ⟨10⟩) ⟨11⟩).map (fun plan => plan.write.steps) = some
      [⟨"kind", "kind", .discriminator (some "round"), .element, true, false⟩] := by
    cases f <;> rfl
  obtain ⟨plan, hplan, hsteps⟩ := Option.map_eq_some_iff.1 hpicture
  obtain ⟨dplan, hdplan, hdsteps⟩ := Option.map_eq_some_iff.1 hdisc
  obtain ⟨rplan, hrplan, hrsteps⟩ := Option.map_eq_some_iff.1 hround
  simp [ofInstance?, picture, ofObject?, ofStep?, ofValue?, Table.find?, hplan, hsteps, hdplan,
    hdsteps, hrplan, hrsteps]
  rfl

theorem ofInstance?_stamp : ofInstance? (picturePlans .xml) stamp = some
    (.object [("a:mark", .element, .object [])]) := by
  have hstamp : (plan? (picturePlans .xml) none ⟨13⟩).map (fun plan => plan.write.steps) = some
      [⟨"mark", "a:mark", .value (.object ⟨8⟩), .element, false, false⟩] :=
    rfl
  have hfigure : (plan? (picturePlans .xml) (some ⟨8⟩) ⟨8⟩).map (fun plan => plan.write.steps) =
      some [] :=
    rfl
  obtain ⟨plan, hplan, hsteps⟩ := Option.map_eq_some_iff.1 hstamp
  obtain ⟨fplan, hfplan, hfsteps⟩ := Option.map_eq_some_iff.1 hfigure
  simp [ofInstance?, stamp, ofObject?, ofStep?, ofValue?, Table.find?, hplan, hsteps, hfplan,
    hfsteps]

/-- The document of the picture. -/
def pictureText : Format → String
  | .json => "\x7b\"figure\":\x7b\"radius\":5\x7d,\"shape\":\x7b\"kind\":\"round\"\x7d\x7d"
  | .xml => "<?xml version=\"1.0\" encoding=\"UTF-8\"?><Picture><figure><radius>5</radius></figure>" ++
      "<shape><kind>round</kind></shape></Picture>"

/-- The document of the stamp. -/
def stampText : String :=
  "<?xml version=\"1.0\" encoding=\"UTF-8\"?><Stamp><a:mark/></Stamp>"

theorem write_picture (f : Format) : write f (picturePlans f) picture = .ok (pictureText f) := by
  have hd := ofInstance?_picture f
  cases f with
  | json =>
    rw [write_json_eq_ok_iff (planAll_spec reachable_sealedPictures (planAll_sealedPictures .json))]
    exact ⟨_, hd, by decide⟩
  | xml => exact write_xml_eq_ok rfl hd (by decide)

theorem write_stamp : write .xml (picturePlans .xml) stamp = .ok stampText :=
  write_xml_eq_ok rfl ofInstance?_stamp (by decide)

/-- The type of the object that a property holds. -/
def typeAt (i : Instance) (name : String) : Option Handle :=
  match Table.find? i.fields name with
  | some (.object t _) => some t
  | _ => none

/-- The picture is read with a figure in place of the disc. -/
theorem read_picture (f : Format) : ∃ w,
    read f (picturePlans f) ⟨12⟩ (Text.toBytes (pictureText f)) = .ok w ∧
      typeAt w "figure" = some ⟨8⟩ := by
  have hr : (read f (picturePlans f) ⟨12⟩ (Text.toBytes (pictureText f))).toOption.map
      (fun w => typeAt w "figure") = some (some ⟨8⟩) := by
    cases f <;> decide +kernel
  obtain ⟨w, hw, ht⟩ := Option.map_eq_some_iff.1 hr
  exact ⟨w, Outcome.toOption_eq_some_iff.1 hw, ht⟩

/-- The stamp is read without its figure. -/
theorem read_stamp : ∃ w, read .xml (picturePlans .xml) ⟨13⟩ (Text.toBytes stampText) = .ok w ∧
    typeAt w "mark" = none := by
  have hr : (read .xml (picturePlans .xml) ⟨13⟩ (Text.toBytes stampText)).toOption.map
      (fun w => typeAt w "mark") = some none := by
    rw [stampText, read_xml_ofList]
    decide +kernel
  obtain ⟨w, hw, ht⟩ := Option.map_eq_some_iff.1 hr
  exact ⟨w, Outcome.toOption_eq_some_iff.1 hw, ht⟩

/-- **A disc held as a figure comes back as a figure**, and a figure held under a name with a prefix
does not come back from markup. -/
theorem not_held_picture :
    sealedPictures.Reachable ∧ sealedPictures.planAll .json = .ok (picturePlans .json) ∧
      sealedPictures.planAll .xml = .ok (picturePlans .xml) ∧
      sealedPictures.Inherits ⟨9⟩ ⟨8⟩ ∧
      (∃ w, write .json (picturePlans .json) picture = .ok (pictureText .json) ∧
        read .json (picturePlans .json) picture.type (Text.toBytes (pictureText .json)) = .ok w ∧
          typeAt picture "figure" = some ⟨9⟩ ∧ typeAt w "figure" = some ⟨8⟩) ∧
      ∃ w, write .xml (picturePlans .xml) stamp = .ok stampText ∧
        read .xml (picturePlans .xml) stamp.type (Text.toBytes stampText) = .ok w ∧
          typeAt stamp "mark" = some ⟨8⟩ ∧ typeAt w "mark" = none := by
  obtain ⟨w, hw, hfigure⟩ := read_picture .json
  obtain ⟨v, hv, hmark⟩ := read_stamp
  exact ⟨reachable_sealedPictures, planAll_sealedPictures .json, planAll_sealedPictures .xml,
    inherits_disc, ⟨w, write_picture .json, hw, rfl, hfigure⟩, v, write_stamp, hv, rfl, hmark⟩

theorem unprefixed_picture : sealedPictures.Unprefixed picture.type picture.fields ∧
    sealedPictures.Unprefixed ⟨11⟩ [("kind", .text "round")] := by
  have hplain : ∀ t ∈ [⟨11⟩, ⟨12⟩], ∀ p ∈ sealedPictures.plannedProperties t, p.carrier = false ∧
      ':' ∉ (wireName .xml p).toList ∧ wireName .xml p ≠ "xmlns" := by
    decide
  have hun : ∀ t ∈ ([⟨11⟩, ⟨12⟩] : List Handle), ∀ fields, sealedPictures.Unprefixed t fields :=
    fun t ht fields =>
      { names := fun p hp _ _ => (hplain t ht p hp).2.1
        attributes := fun p hp _ _ _ => (hplain t ht p hp).2.2
        keys := fun p hp hc => by simp [(hplain t ht p hp).1] at hc }
  exact ⟨hun _ (by simp [picture]) _, hun _ (by simp) _⟩

/-- The round shape comes back from both formats as what it is recognised for. -/
theorem held_picture :
    (∃ w k ks, read .json (picturePlans .json) ⟨12⟩ (Text.toBytes (pictureText .json)) = .ok w ∧
      Table.find? w.fields "shape" = some (.object k ks) ∧ sealedPictures.Recognised ⟨10⟩ ⟨11⟩ k) ∧
    ∃ w k ks, read .xml (picturePlans .xml) ⟨12⟩ (Text.toBytes (pictureText .xml)) = .ok w ∧
      Table.find? w.fields "shape" = some (.object k ks) ∧ sealedPictures.Recognised ⟨10⟩ ⟨11⟩ k := by
  have hshape : { name := "shape", wire := "shape", type := .named ⟨10⟩ : Property } ∈
      sealedPictures.plannedProperties picture.type := by
    decide
  constructor
  · obtain ⟨w, hw, -⟩ := read_picture .json
    obtain ⟨k, ks, hk⟩ := exists_object_of_read reachable_sealedPictures
      (planAll_sealedPictures .json) (write_picture .json) hw hshape rfl rfl rfl inherits_round
      fun _ => unprefixed_picture
    exact ⟨w, k, ks, hw, hk⟩
  · obtain ⟨w, hw, -⟩ := read_picture .xml
    obtain ⟨k, ks, hk⟩ := exists_object_of_read reachable_sealedPictures
      (planAll_sealedPictures .xml) (write_picture .xml) hw hshape rfl rfl rfl inherits_round
      fun _ => unprefixed_picture
    exact ⟨w, k, ks, hw, hk⟩

end Document

end Marshal
