import Marshal.Proofs.Document.Repetition
import Marshal.Proofs.Json.Order
import Marshal.Proofs.Markup.Order
import Marshal.Proofs.Markup.Roots

/-!
# The order of fields

Fields may stand in any order in a document: members of an object in JSON, and elements with different
local names in markup, at any depth (`Document.read_of_reordered`). So a discriminator may stand
anywhere, and other elements may stand between the items of a flattened sequence.

Documents are compared by their trees. That of a JSON document is what is parsed of it, and a markup
document opens with the element that is its tree (`Document.exists_opens_of_read`).
-/

namespace Marshal

namespace Document

open Markup Outcome

variable {c : Catalogue} {f : Format} {cancelled : Bool} {plans : PlanSet} {declared : Handle}
  {bytes bytes' : List UInt8} {i : Instance}

/-- **A markup document that is read** opens with an element, whose tree it is. -/
theorem exists_opens_of_read (h : read .xml plans declared bytes = .ok i) :
    ∃ el, Lexer.Opens el (Lexer.ofSymbols (Text.Symbol.decode bytes)) := by
  by_cases hf : plans.format = .xml
  · obtain ⟨head, lx, _, _, _, lx', hroot, -, -, hscan, -⟩ := scanned_of_read_xml hf h
    exact Lexer.exists_opens (Lexer.opened_ofSymbols _) hroot (Lexer.skipHead_eq_ok_iff.2 hscan.passes)
  · rw [read_of_ne hf] at h
    cases h

/-- Members in another order, at any depth, make the same object. -/
theorem read_json_of_shuffled (P : c.PlannedBy f plans) {j k : Json}
    (hj : Json.ofBytes? bytes = some j) (hk : Json.ofBytes? bytes' = some k)
    (h : Json.Shuffled j k) (declared : Handle) (i : Instance) :
    read .json plans declared bytes = .ok i ↔ read .json plans declared bytes' = .ok i := by
  by_cases hf : plans.format = .json
  · have hread : ∀ {bytes j}, Json.ofBytes? bytes = some j →
        read .json plans declared bytes = Tree.root plans declared j := by
      intro bytes j hj
      rw [read, if_pos hf, ← Json.Reader.decode_ofTree, Json.Reader.ofBytes, hj]
      rfl
    rw [hread hj, hread hk]
    exact eq_ok_iff_of_toOption_eq
      (Json.root_of_shuffled P h (Json.bounded_of_ofBytes? hj) declared) i
  · rw [read_of_ne hf, read_of_ne hf]

/-- Elements in another order, in what is decoded as an object, make the same object. -/
theorem read_xml_of_rearranged (P : c.PlannedBy f plans) {a b : Element}
    (ha : Lexer.Opens a (Lexer.ofSymbols (Text.Symbol.decode bytes)))
    (hb : Lexer.Opens b (Lexer.ofSymbols (Text.Symbol.decode bytes')))
    (h : Rearranged plans (.object declared) a b) (i : Instance) :
    read .xml plans declared bytes = .ok i ↔ read .xml plans declared bytes' = .ok i := by
  by_cases hf : plans.format = .xml
  · rw [read, read, if_pos hf, if_pos hf]
    rw [Reader.decode_of_opens ha, Reader.decode_of_opens hb]
    exact eq_ok_iff_of_toOption_eq (root_of_rearranged P h) i
  · rw [read_of_ne hf, read_of_ne hf]

/-- **The order of fields never matters.** A document is read as an object just when a document is
that differs from it only in the order of members of objects, at any depth, in JSON, and in markup only
in the order of elements with different local names, in elements that are decoded as objects. In
particular the elements of one name, such as a discriminator or the items of a flattened sequence, may
stand in front of all others. -/
theorem read_of_reordered (hc : c.Reachable) (hp : c.planAll f cancelled = .ok plans)
    (declared : Handle) :
    (∀ bytes bytes' j k, Json.ofBytes? bytes = some j → Json.ofBytes? bytes' = some k →
      Json.Shuffled j k → ∀ i,
        read .json plans declared bytes = .ok i ↔ read .json plans declared bytes' = .ok i) ∧
    (∀ bytes bytes' a b, Lexer.Opens a (Lexer.ofSymbols (Text.Symbol.decode bytes)) →
      Lexer.Opens b (Lexer.ofSymbols (Text.Symbol.decode bytes')) →
      Rearranged plans (.object declared) a b → ∀ i,
        read .xml plans declared bytes = .ok i ↔ read .xml plans declared bytes' = .ok i) ∧
    ∀ bytes bytes' tag isEmpty (items : List (Item Element)) (name : Piece),
      Lexer.Opens ⟨tag, isEmpty, items⟩ (Lexer.ofSymbols (Text.Symbol.decode bytes)) →
      Lexer.Opens ⟨tag, isEmpty, items.filter (fun x => x.name? = some name) ++
          items.filter fun x => x.name? ≠ some name⟩
        (Lexer.ofSymbols (Text.Symbol.decode bytes')) → ∀ i,
        read .xml plans declared bytes = .ok i ↔ read .xml plans declared bytes' = .ok i := by
  have P := Catalogue.planAll_spec hc hp
  exact ⟨fun _ _ _ _ hj hk h i => read_json_of_shuffled P hj hk h declared i,
    fun _ _ _ _ ha hb h i => read_xml_of_rearranged P ha hb h i,
    fun _ _ _ _ items name ha hb i =>
      read_xml_of_rearranged P ha hb (.children (sameOrder_gather (some name) items)) i⟩

end Document

/-! ## Sketches -/

/-- Shapes are told apart by their kind, and round ones have a radius. A sketch is a shape with labels,
which stand beside it in markup. -/
def Catalogue.sketches : Catalogue :=
  .ofEntities [
    ⟨"Shape", .object
      { properties := [{ name := "kind", wire := "kind", type := .named ⟨0⟩, required := true }]
        discriminator := some "kind"
        isAbstract := true }⟩,
    ⟨"Round", .object
      { base := some ⟨8⟩
        discriminatorValue := some "round"
        properties := [{ name := "radius", wire := "radius", type := .named ⟨2⟩ }] }⟩,
    ⟨"Sketch", .object
      { properties := [
          { name := "labels", wire := "label", type := .collection .sequence (.named ⟨0⟩) false
            layout := .flattened },
          { name := "shape", wire := "shape", type := .named ⟨8⟩ }] }⟩]

/-- The sketches, sealed. -/
def Catalogue.sealedSketches : Catalogue :=
  sketches.withForest ⟨[⟨⟨8⟩, "kind", [("round", ⟨9⟩)]⟩], [(⟨8⟩, ⟨8⟩), (⟨9⟩, ⟨8⟩)]⟩

theorem Catalogue.reachable_sealedSketches : sealedSketches.Reachable := by
  have hopen : sketches.Reachable := .ofEntities (by decide)
  exact .trySeal hopen rfl

/-- The plans of the sketches for a format. -/
def Catalogue.sketchPlans (f : Format) : PlanSet :=
  (sealedSketches.planAll f).toOption.getD ⟨f, [], []⟩

theorem Catalogue.planAll_sealedSketches (f : Format) :
    sealedSketches.planAll f = .ok (sketchPlans f) := by
  cases f <;> rfl

namespace Document

open Markup Outcome

/-- An element that is not one tag. -/
def elementOf (tag : String) (items : List (Item Element)) : Element :=
  ⟨Text.Symbol.ofText tag, false, items⟩

/-- An element with a text, as an item. -/
def textElement (tag text : String) : Item Element :=
  .element (elementOf tag [.event (.text (Text.Symbol.ofText text))])

/-- The element of a tag is opened with the name and the attributes of the tag. -/
theorem open_elementOf_inside {t : Tag} (ht : isName t.name = true)
    (ha : ∀ a ∈ t.attributes, isName a.1 = true) (hn : (t.attributes.map Prod.fst).Nodup)
    (items : List (Item Element)) : (elementOf t.inside items).open =
      .ok ⟨⟨localName t.name, t.attributes.filterMap readAttribute?, false⟩, items⟩ :=
  Element.open_eq_ok_iff.2
    ⟨Head.ofTag_inside ht (attributesOf_flatMap ha hn fun _ _ => List.not_mem_nil) false, rfl⟩

/-- An element with no attributes is opened under its name. -/
theorem open_elementOf {tag : String} (ht : isName tag = true) (items : List (Item Element)) :
    (elementOf tag items).open = .ok ⟨⟨localName tag, [], false⟩, items⟩ := by
  have hopen := open_elementOf_inside (t := ⟨tag, []⟩) ht (by simp) List.nodup_nil items
  rwa [show Tag.inside ⟨tag, []⟩ = tag from String.append_empty] at hopen

/-- A round shape as an element, with its kind in front. -/
def roundElement : Element := elementOf "shape" [textElement "kind" "round", textElement "radius" "5"]

/-- A round shape as an element, with its kind behind. -/
def roundElement' : Element := elementOf "shape" [textElement "radius" "5", textElement "kind" "round"]

/-- A sketch in markup, with its shape between two labels. -/
def sketchText : String :=
  "<Sketch><label>a</label><shape><kind>round</kind><radius>5</radius></shape><label>b</label></Sketch>"

/-- The sketch with its labels in front. -/
def gatheredText : String :=
  "<Sketch><label>a</label><label>b</label><shape><kind>round</kind><radius>5</radius></shape></Sketch>"

/-- The sketch with its labels in front and the kind of the shape behind. -/
def reorderedText : String :=
  "<Sketch><label>a</label><label>b</label><shape><radius>5</radius><kind>round</kind></shape></Sketch>"

theorem opens_sketch : Lexer.Opens
    (elementOf "Sketch" [textElement "label" "a", .element roundElement, textElement "label" "b"])
    (Lexer.ofSymbols (Text.Symbol.decode (Text.toBytes sketchText))) := by
  rw [sketchText, Text.Symbol.decode_ofList]
  exact .start rfl (.start rfl (.event rfl trivial (.close rfl))
    (.start rfl (.start rfl (.event rfl trivial (.close rfl))
        (.start rfl (.event rfl trivial (.close rfl)) (.close rfl)))
      (.start rfl (.event rfl trivial (.close rfl)) (.close rfl))))

theorem opens_gathered : Lexer.Opens
    (elementOf "Sketch" [textElement "label" "a", textElement "label" "b", .element roundElement])
    (Lexer.ofSymbols (Text.Symbol.decode (Text.toBytes gatheredText))) := by
  rw [gatheredText, Text.Symbol.decode_ofList]
  exact .start rfl (.start rfl (.event rfl trivial (.close rfl))
    (.start rfl (.event rfl trivial (.close rfl))
      (.start rfl (.start rfl (.event rfl trivial (.close rfl))
          (.start rfl (.event rfl trivial (.close rfl)) (.close rfl)))
        (.close rfl))))

theorem opens_reordered : Lexer.Opens
    (elementOf "Sketch" [textElement "label" "a", textElement "label" "b", .element roundElement'])
    (Lexer.ofSymbols (Text.Symbol.decode (Text.toBytes reorderedText))) := by
  rw [reorderedText, Text.Symbol.decode_ofList]
  exact .start rfl (.start rfl (.event rfl trivial (.close rfl))
    (.start rfl (.event rfl trivial (.close rfl))
      (.start rfl (.start rfl (.event rfl trivial (.close rfl))
          (.start rfl (.event rfl trivial (.close rfl)) (.close rfl)))
        (.close rfl))))

/-- The shape of a sketch is decoded as an object. -/
theorem exists_sketch_plan : ∃ p, (Catalogue.sketchPlans .xml).type? ⟨10⟩ = some p ∧
    p.read.discriminator = none ∧ Tree.partShape p "shape" .element = some (.object ⟨8⟩) := by
  have h : (((Catalogue.sketchPlans .xml).type? ⟨10⟩).map fun p =>
      (p.read.discriminator, Tree.partShape p "shape" .element)) =
        some (none, some (.object ⟨8⟩)) := by
    rfl
  obtain ⟨p, hp, h⟩ := Option.map_eq_some_iff.1 h
  exact ⟨p, hp, Prod.mk.inj h⟩

/-- A label of the sketch changes places with its shape, and the kind of the shape with its radius. -/
theorem rearranged_sketch : Rearranged (Catalogue.sketchPlans .xml) (.object ⟨10⟩)
    (elementOf "Sketch" [textElement "label" "a", .element roundElement, textElement "label" "b"])
    (elementOf "Sketch"
      [textElement "label" "a", textElement "label" "b", .element roundElement']) := by
  obtain ⟨p, hp, hnone, hshape⟩ := exists_sketch_plan
  have hsketch : (elementOf "Sketch"
      ([textElement "label" "a"] ++ .element roundElement :: [textElement "label" "b"])).open =
        .ok ⟨⟨"Sketch", [], false⟩, _⟩ := open_elementOf (by decide) _
  have hround : roundElement.open = .ok ⟨⟨"shape", [], false⟩, roundElement.items⟩ :=
    open_elementOf (by decide) _
  refine .trans (.part hsketch hp ?_ hround hshape
    (.children (sameOrder_swap [] [] [] (by decide) nofun nofun)))
    (.children (sameOrder_swap [_] [] [] (by decide) nofun nofun))
  rw [Tree.concretePlan, hnone]

/-- The labels of a sketch in JSON. -/
def labelsTree : Json := .array [.text "a", .text "b"]

/-- A sketch in JSON. -/
def sketchTree : Json :=
  .object [("label", labelsTree), ("shape", .object [("kind", .text "round"), ("radius", .integer 5)])]

/-- The sketch in JSON, in another order. -/
def reorderedTree : Json :=
  .object [("shape", .object [("radius", .integer 5), ("kind", .text "round")]), ("label", labelsTree)]

theorem shuffled_sketch : Json.Shuffled sketchTree reorderedTree :=
  .trans (.member [_] [] (.members (.swap ..))) (.members (.swap ..))

theorem plain_pair {d : Nat} {k l : String} {a b : Json} (hne : k ≠ l) (ha : Json.Plain d a)
    (hb : Json.Plain d b) : Json.Plain (d + 1) (.object [(k, a), (l, b)]) := by
  refine .object (by simpa [Table.keys] using hne) fun key j hj => ?_
  rcases List.mem_cons.1 hj with hj | hj
  · cases hj
    exact ha
  · cases List.mem_singleton.1 hj
    exact hb

theorem plain_labels : Json.Plain 1 labelsTree := by
  refine .array fun j hj => ?_
  obtain rfl | rfl : j = .text "a" ∨ j = .text "b" := by simpa using hj
  all_goals exact .text

/-- The sketch in both orders can be written. -/
theorem plain_sketch :
    Json.Plain Json.depthLimit sketchTree ∧ Json.Plain Json.depthLimit reorderedTree := by
  have hshape := plain_pair (k := "kind") (l := "radius") (by decide) (.text (s := "round"))
    (.integer (d := 0) (n := 5) rfl)
  have hshape' := plain_pair (k := "radius") (l := "kind") (by decide)
    (.integer (d := 0) (n := 5) rfl) (.text (s := "round"))
  exact ⟨(plain_pair (by decide) plain_labels hshape).mono (by decide),
    (plain_pair (by decide) hshape' plain_labels).mono (by decide)⟩

/-- A sketch is read as the same object from each of its documents. -/
theorem read_of_reordered_sketch :
    (∃ i, read .json (Catalogue.sketchPlans .json) ⟨10⟩ (Text.toBytes (Json.compact sketchTree)) =
        .ok i ∧
      read .json (Catalogue.sketchPlans .json) ⟨10⟩ (Text.toBytes (Json.compact reorderedTree)) =
        .ok i) ∧
    ∃ i, read .xml (Catalogue.sketchPlans .xml) ⟨10⟩ (Text.toBytes sketchText) = .ok i ∧
      read .xml (Catalogue.sketchPlans .xml) ⟨10⟩ (Text.toBytes gatheredText) = .ok i ∧
      read .xml (Catalogue.sketchPlans .xml) ⟨10⟩ (Text.toBytes reorderedText) = .ok i := by
  obtain ⟨hjson, -, -⟩ := read_of_reordered Catalogue.reachable_sealedSketches
    (Catalogue.planAll_sealedSketches .json) ⟨10⟩
  obtain ⟨-, hxml, hgather⟩ := read_of_reordered Catalogue.reachable_sealedSketches
    (Catalogue.planAll_sealedSketches .xml) ⟨10⟩
  constructor
  · have hr : (read .json (Catalogue.sketchPlans .json) ⟨10⟩
        (Text.toBytes (Json.compact sketchTree))).toOption.map Instance.type = some ⟨10⟩ := by
      decide +kernel
    obtain ⟨i, hi, -⟩ := Option.map_eq_some_iff.1 hr
    have hread := toOption_eq_some_iff.1 hi
    exact ⟨i, hread, (hjson _ _ _ _ (Json.ofBytes?_toBytes_compact plain_sketch.1)
      (Json.ofBytes?_toBytes_compact plain_sketch.2) shuffled_sketch i).1 hread⟩
  · have hr : (read .xml (Catalogue.sketchPlans .xml) ⟨10⟩ (Text.toBytes sketchText)).toOption.map
        Instance.type = some ⟨10⟩ := by decide +kernel
    obtain ⟨i, hi, -⟩ := Option.map_eq_some_iff.1 hr
    have hread := toOption_eq_some_iff.1 hi
    exact ⟨i, hread,
      (hgather _ _ _ _ _ (Text.Symbol.ofText "label") opens_sketch opens_gathered i).1 hread,
      (hxml _ _ _ _ opens_sketch opens_reordered rearranged_sketch i).1 hread⟩

end Document

end Marshal
