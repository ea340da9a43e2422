import Marshal.Proofs.Markup.Events

/-!
# Written elements

A written document is a tree of elements, each with a name and a `Content`: a text, or attributes and
children. `Content.tag` and `Content.inside` are how an element is written, and `document` is the whole
document. What is read of an element as a text, as a field or as an entry is told by its content.
-/

namespace Marshal.Markup

open Text

/-- What an element holds. -/
inductive Content where
  | text (s : String)
  | parts (attributes : List (String × String)) (children : List (String × Content))

namespace Content

/-- Whether an element is written as one tag. A text, even an empty one, has an end tag. -/
def isAlone : Content → Bool
  | .text _ => false
  | .parts _ children => children.isEmpty

/-- The attributes of an element. -/
def attributes : Content → List (String × String)
  | .text _ => []
  | .parts as _ => as

/-- The start tag of an element of this name. -/
def tag (name : String) (c : Content) : Tag := ⟨name, c.attributes⟩

/-- The start tag as it is written. -/
def opening (name : String) (c : Content) : String :=
  if c.isAlone then (c.tag name).alone else (c.tag name).opening

mutual

/-- What follows the start tag of an element of this name, its end tag included. -/
def inside (name : String) : Content → String
  | .text s => escape s ++ closing name
  | .parts _ children => if children.isEmpty then "" else renderAll children ++ closing name

/-- Elements as they are written. -/
def renderAll : List (String × Content) → String
  | [] => ""
  | (n, c) :: es => c.opening n ++ c.inside n ++ renderAll es

end

theorem renderAll_append (es fs : List (String × Content)) :
    renderAll (es ++ fs) = renderAll es ++ renderAll fs := by
  induction es with
  | nil => rw [renderAll, String.empty_append, List.nil_append]
  | cons e es ih =>
    rw [List.cons_append, renderAll, renderAll, ih]
    simp only [String.append_assoc]

theorem inside_of_isAlone {c : Content} (h : c.isAlone = true) {name : String} :
    c.inside name = "" := by
  cases c with
  | text => cases h
  | parts as es =>
    rw [isAlone] at h
    rw [inside, if_pos h]

/-- The attributes that are read. -/
def readAttributes (c : Content) : List (String × String) := c.attributes.filterMap readAttribute?

/-- **Content whose markup is sound**: names are names, and the attributes have different ones. -/
inductive Legible : Content → Prop where
  | text {s : String} : Legible (.text s)
  | parts {as : List (String × String)} {es : List (String × Content)} :
    (∀ a ∈ as, isName a.1 = true) → (as.map Prod.fst).Nodup →
    (∀ n c, (n, c) ∈ es → isName n = true) → (∀ n c, (n, c) ∈ es → Legible c) →
    Legible (.parts as es)

theorem Legible.attributes {c : Content} (h : c.Legible) :
    (∀ a ∈ c.attributes, isName a.1 = true) ∧ (c.attributes.map Prod.fst).Nodup := by
  cases h with
  | text => exact ⟨by simp [Content.attributes], List.nodup_nil⟩
  | parts has hn => exact ⟨has, hn⟩

theorem Legible.named {c : Content} (h : c.Legible) {name : String} (hn : isName name = true) :
    (c.tag name).Named := ⟨hn, h.attributes.1⟩

theorem Legible.attributesOf_tag {c : Content} (h : c.Legible) :
    attributesOf [] (c.attributes.flatMap attributePiece) = .ok c.readAttributes :=
  attributesOf_flatMap h.attributes.1 h.attributes.2 (by simp)

/-! ## What is read of contents -/

/-- The elements in an element. -/
def children : Content → List (String × Content)
  | .text _ => []
  | .parts _ children => children

/-- What is read for an element that should be a text. -/
def scalarText : Content → Except DecodeError String
  | .text s => .ok s
  | .parts _ [] => .ok ""
  | .parts _ ((name, _) :: _) => .error (.malformed (.nestedElement (localName name)))

/-- The text of the first of some elements that is read under a name. -/
def firstText (name : String) : List (String × Content) → Except DecodeError (Option String)
  | [] => .ok none
  | (n, c) :: es => if localName n = name then c.scalarText.map some else firstText name es

/-- The key in an entry, and the element of the value if there is one. The last key before the value
counts. -/
def entryOf (key : Option String) :
    List (String × Content) → Except DecodeError (String × Option (String × Content))
  | [] => key.elim (.error (.malformed .entryWithoutKey)) fun k => .ok (k, none)
  | (n, c) :: es =>
    if localName n = "key" then do entryOf (some (← c.scalarText)) es
    else if localName n = "value" then
      key.elim (.error (.malformed .valueBeforeKey)) fun k => .ok (k, some (n, c))
    else entryOf key es

end Content

/-- The head of the element of a name. -/
def headOf (name : String) (c : Content) : Head := ⟨localName name, c.readAttributes, c.isAlone⟩

/-- The start tag of a root, with its namespace. -/
def rootTag (name : String) (ns : Option String) (c : Content) : Tag :=
  ⟨name, ns.toList.map (fun n => ("xmlns", n)) ++ c.attributes⟩

/-- The document of a root. -/
def document (name : String) (ns : Option String) (c : Content) : String :=
  let t := rootTag name ns c
  Writer.declaration ++ (if c.isAlone then t.alone else t.opening) ++ c.inside name

end Marshal.Markup
