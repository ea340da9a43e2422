import Marshal.Document
import Marshal.Proofs.Markup.Content
import Marshal.Proofs.Markup.Walk
import Marshal.Proofs.Text.Symbol
import Marshal.Proofs.Wire.Likeness

/-!
# Written documents

A document that was written is read as the tree of its contents. `Node` is what can stand at the
cursor: an element with its content, the value of an attribute, or the missing value of an entry. What
the lexer finds in a written element spells its content out (`Lexer.exists_reads`), and looks like it
(`Node.likeness`), so decoding a document is decoding its tree (`Reader.decode_document`). A document
that is a literal is read from its characters, from behind its declaration
(`Document.read_xml_declaration`).
-/

namespace Marshal

open Text

namespace Markup

/-- What is read of a written document as a value. -/
inductive Node where
  | plain (value : String)
  | element (name : String) (content : Content)
  | missing

namespace Node

/-- The attributes of an element as parts of an object. -/
def ofAttributes (as : List (String × String)) : List (String × Placement × Node) :=
  as.map fun a => (a.1, .attribute, .plain a.2)

/-- The children of an element as parts of an object. -/
def ofChildren (es : List (String × Content)) : List (String × Placement × Node) :=
  es.map fun e => (localName e.1, .element, .element e.1 e.2)

/-- The value of an entry. -/
def ofValue : Option (String × Content) → Node
  | some (name, c) => .element name c
  | none => .missing

/-- The children of an element as entries of a mapping. -/
def ofEntry (e : String × Content) : Except DecodeError (String × Node) :=
  if e.2.isAlone then .error (.malformed (.emptyEntry (localName e.1)))
  else (Content.entryOf none e.2.children).map fun p => (p.1, ofValue p.2)

/-- The fault of taking what is no element as one. -/
def expected (what : String) : Node → DecodeError
  | .plain _ => .typeMismatch "<xml>" what "attribute"
  | _ => .malformed (.expectedElement what)

end Node

instance : Tree Node where
  isNull
    | .missing => true
    | _ => false
  scalar
    | .plain v => .ok (.text v)
    | .element _ c => c.scalarText.map .text
    | .missing => .error (.malformed .noScalar)
  parts
    | .element _ c => .ok (Node.ofAttributes c.readAttributes ++ Node.ofChildren c.children)
    | t => .error (t.expected "object")
  text? t name placement :=
    match t, placement with
    | .element _ c, .attribute =>
      .ok ((c.readAttributes.find? fun a => a.1 = name).map Prod.snd)
    | .element _ c, .element => Content.firstText name c.children
    | _, _ => .ok none
  items layout t :=
    match layout, t with
    | .flattened, .element _ _ => .ok [t]
    | .flattened, _ => .error (.malformed .expectedItem)
    | .wrapped _, .element _ c => .ok (c.children.map fun e => .element e.1 e.2)
    | .wrapped _, t => .error (t.expected "sequence")
  entries
    | .element _ c => .ok (c.children.map Node.ofEntry)
    | t => .error (t.expected "map")

/-! ## What is found in written elements -/

/-- Events that spell a text out. -/
inductive Spells : List (Item Element) → List Char → Prop where
  | nil : Spells [] []
  | cons {e : Event} {as bs : List Char} {items : List (Item Element)} :
    Lexer.textOfEvent e = .ok (some (String.ofList as)) → Spells items bs →
    Spells (.event e :: items) (as ++ bs)

/-- Items that are found where a content is written. -/
inductive Reads : List (Item Element) → Content → Prop where
  | text {items : List (Item Element)} {s : String} : Spells items s.toList → Reads items (.text s)
  | nil {as : List (String × String)} : Reads [] (.parts as [])
  | cons {as : List (String × String)} {n : String} {c : Content} {es : List (String × Content)}
    {inner items : List (Item Element)} : isName n = true → c.Legible → Reads inner c →
    Reads items (.parts as es) →
    Reads (.element ⟨Symbol.ofText (c.tag n).inside, c.isAlone, inner⟩ :: items)
      (.parts as ((n, c) :: es))

variable {name : String} {c : Content} {items : List (Item Element)} {ch : Child}

theorem reads_nil_of_isAlone (h : c.isAlone = true) : Reads [] c := by
  cases c with
  | text => cases h
  | parts as es =>
    obtain rfl := List.isEmpty_iff.1 h
    exact .nil

theorem Spells.text_eq {cs : List Char} (h : Spells items cs) (before : String) :
    Item.text before items = .ok (before ++ String.ofList cs) := by
  induction h generalizing before with
  | nil => rw [Item.text, String.ofList_nil, String.append_empty]
  | @cons e as bs items he _ ih =>
    rw [Item.text, he, String.ofList_append, ← String.append_assoc, ← ih]
    rfl

theorem Spells.children {cs : List Char} (h : Spells items cs) :
    Item.children items = [] ∧ Item.childrenEnd items = .ok () := by
  induction h with
  | nil => exact ⟨rfl, rfl⟩
  | cons _ _ ih => exact ih

/-- The head of a written element. -/
theorem open_of_tag {attributes : List (String × String)} {t : Tag} (hn : isName t.name = true)
    (ha : attributesOf [] (t.attributes.flatMap attributePiece) = .ok attributes) (isEmpty : Bool) :
    (Element.mk (Symbol.ofText t.inside) isEmpty items).open =
      .ok ⟨⟨localName t.name, attributes, isEmpty⟩, items⟩ := by
  rw [Element.open, Head.ofTag_inside hn ha]
  rfl

theorem Reads.text_eq (h : Reads items c) : Item.text "" items = c.scalarText := by
  cases h with
  | @text _ s hs => rw [hs.text_eq, String.empty_append, String.ofList_toList, Content.scalarText]
  | nil => rfl
  | @cons as n c es inner items hn hc =>
    rw [Item.text, Content.scalarText, tagName_inside (t := c.tag n) hn]
    rfl

/-- A child is found where an element is written. -/
def ChildReads (ch : Child) (e : String × Content) : Prop :=
  ch.head = headOf e.1 e.2 ∧ Reads ch.items e.2

/-- **The children of a written element** are handed out with its content. -/
theorem Reads.children_read (h : Reads items c) :
    List.Forall₂ ChildReads (Item.children items) c.children ∧ Item.childrenEnd items = .ok () := by
  induction h with
  | text hs =>
    rw [hs.children.1]
    exact ⟨.nil, hs.children.2⟩
  | nil => exact ⟨.nil, rfl⟩
  | @cons as n c es inner items hn hc hinner _ _ ih =>
    have hopen : (Element.mk (Symbol.ofText (c.tag n).inside) c.isAlone inner).open =
        .ok ⟨headOf n c, inner⟩ := open_of_tag hn hc.attributesOf_tag c.isAlone
    rw [Item.children, Item.childrenEnd, hopen]
    exact ⟨.cons ⟨rfl, hinner⟩ ih.1, ih.2⟩

section Likeness

variable {cs : List Child} {es : List (String × Content)}

theorem ChildReads.text_eq {e : String × Content} (h : ChildReads ch e) : ch.text = e.2.scalarText :=
  h.2.text_eq

theorem firstText_eq (h : List.Forall₂ ChildReads cs es) (name : String) :
    Child.firstText name cs (.ok ()) = Content.firstText name es := by
  induction h with
  | nil => rfl
  | @cons ch e cs es he _ ih =>
    have hname : ch.head.name = localName e.1 := congrArg Head.name he.1
    rw [Child.firstText, Content.firstText, hname, he.text_eq, ih]

theorem entryOf_alike (h : List.Forall₂ ChildReads cs es) (key : Option String) :
    Outcome.Alike (fun p q => p.1 = q.1 ∧ Option.Rel ChildReads p.2 q.2)
      (Child.entryOf key cs (.ok ())) (Content.entryOf key es) := by
  induction h generalizing key with
  | nil =>
    cases key with
    | none => exact .error _
    | some k => exact .ok ⟨rfl, .none⟩
  | @cons ch e cs es he _ ih =>
    have hname : ch.head.name = localName e.1 := congrArg Head.name he.1
    rw [Child.entryOf, Content.entryOf, hname, he.text_eq]
    split
    · rcases e.2.scalarText with f | k
      · exact .error f
      · exact ih (some k)
    · split
      · cases key with
        | none => exact .error _
        | some k => exact .ok ⟨rfl, .some he⟩
      · exact ih key

/-- What is found stands for what was written. -/
inductive Node.IsFound : Found → Node → Prop where
  | plain (v : String) : IsFound (.plain v) (.plain v)
  | element {n : String} {c : Content} {items : List (Item Element)} :
    Reads items c → IsFound (.child ⟨headOf n c, items⟩) (.element n c)
  | missing : IsFound .missing .missing

theorem Node.isFound_child {e : String × Content} (h : ChildReads ch e) :
    Node.IsFound (.child ch) (.element e.1 e.2) := by
  obtain ⟨head, items⟩ := ch
  obtain ⟨rfl, h⟩ : head = headOf e.1 e.2 ∧ Reads items e.2 := h
  exact .element h

theorem ofEntry_alike {e : String × Content} (h : ChildReads ch e) : ∃ x,
    Found.ofEntry ch = [x] ∧ Outcome.Alike (Tree.EntriesAlike Node.IsFound) x (Node.ofEntry e) := by
  obtain ⟨hchildren, hend⟩ := h.2.children_read
  have hentry := entryOf_alike hchildren none
  rw [← hend] at hentry
  have hempty : ch.head.isEmpty = e.2.isAlone := congrArg Head.isEmpty h.1
  have hname : ch.head.name = localName e.1 := congrArg Head.name h.1
  rw [Found.ofEntry, Node.ofEntry, hempty, hname]
  split
  · exact ⟨_, rfl, .error _⟩
  · rw [Child.children, Child.childrenEnd]
    generalize Child.entryOf none (Item.children ch.items) (Item.childrenEnd ch.items) = x at hentry
    generalize Content.entryOf none e.2.children = y at hentry
    cases hentry with
    | @ok p q hpq =>
      obtain ⟨key, value⟩ := p
      obtain ⟨key', value'⟩ := q
      obtain ⟨rfl, hvalue⟩ : key = key' ∧ Option.Rel ChildReads value value' := hpq
      cases hvalue with
      | none => exact ⟨_, rfl, .ok ⟨rfl, .missing⟩⟩
      | some hvalue =>
        rw [hend]
        exact ⟨_, rfl, .ok ⟨rfl, Node.isFound_child hvalue⟩⟩
    | error f => exact ⟨_, rfl, .error f⟩

theorem ofEntries_alike (h : List.Forall₂ ChildReads cs es) :
    List.Forall₂ (Outcome.Alike (Tree.EntriesAlike Node.IsFound)) (Found.ofEntries cs (.ok ()))
      (es.map Node.ofEntry) := by
  induction h with
  | nil => exact .nil
  | @cons ch e cs es he _ ih =>
    obtain ⟨x, hx, hentry⟩ := ofEntry_alike he
    rw [Found.ofEntries, List.flatMap_cons, hx]
    exact .cons hentry ih

theorem ofAttributes_alike (as : List (String × String)) :
    List.Forall₂ (Tree.PartsAlike Node.IsFound) (Found.ofAttributes as) (Node.ofAttributes as) := by
  rw [Found.ofAttributes, Node.ofAttributes, List.forall₂_map_left_iff, List.forall₂_map_right_iff,
    List.forall₂_same]
  exact fun a _ => ⟨rfl, rfl, .plain a.2⟩

theorem ofChildren_alike (h : List.Forall₂ ChildReads cs es) :
    List.Forall₂ (Tree.PartsAlike Node.IsFound) (Found.ofChildren cs) (Node.ofChildren es) := by
  rw [Found.ofChildren, Node.ofChildren, List.forall₂_map_left_iff, List.forall₂_map_right_iff]
  exact h.imp fun _ _ he => ⟨congrArg Head.name he.1, rfl, Node.isFound_child he⟩

/-- **What is found looks like what was written.** -/
theorem Node.likeness : Tree.Likeness Node.IsFound where
  isNull h := by cases h <;> rfl
  scalar h := by
    cases h with
    | element hreads =>
      show Except.map _ (Item.text "" _) = _
      rw [hreads.text_eq]
      rfl
    | _ => rfl
  parts h := by
    cases h with
    | @element n c items hreads =>
      exact .ok (List.rel_append (ofAttributes_alike _) (ofChildren_alike hreads.children_read.1))
    | _ => exact .error _
  partsEnd h := by
    cases h with
    | element hreads => exact hreads.children_read.2
    | _ => rfl
  text? h name placement := by
    cases h with
    | @element n c items hreads =>
      rcases placement with _ | _
      · show Child.firstText name (Item.children items) (Item.childrenEnd items) = _
        rw [hreads.children_read.2, firstText_eq hreads.children_read.1]
        rfl
      · rfl
    | _ => rfl
  items h layout := by
    cases h with
    | @element n c items hreads =>
      cases layout with
      | flattened => exact .ok (.cons (.element hreads) .nil)
      | wrapped item =>
        refine .ok ?_
        rw [List.forall₂_map_left_iff, List.forall₂_map_right_iff]
        exact hreads.children_read.1.imp fun _ _ => Node.isFound_child
    | _ => cases layout <;> exact .error _
  itemsEnd h layout := by
    cases h with
    | element hreads =>
      cases layout with
      | flattened => rfl
      | wrapped item => exact hreads.children_read.2
    | _ => cases layout <;> rfl
  entries h := by
    cases h with
    | element hreads =>
      refine .ok ?_
      rw [Child.childrenEnd, hreads.children_read.2]
      exact ofEntries_alike hreads.children_read.1
    | _ => exact .error _

end Likeness

/-! ## Finding written elements -/

namespace Lexer

variable {es : List (String × Content)} {rest : Piece} {opened : List Piece} {lx : Lexer}

/-- **A text that was written** is found as events that spell it out. -/
theorem exists_spells {r : Piece} (hr : BeginsTag r) (hclose : next ⟨r, opened⟩ = .ok .close lx)
    (cs : List Char) : ∃ items, Spells items cs ∧ Holds items ⟨escaped cs ++ r, opened⟩ lx := by
  have hlength : ∀ n, ∀ cs : List Char, cs.length ≤ n →
      ∃ items, Spells items cs ∧ Holds items ⟨escaped cs ++ r, opened⟩ lx := by
    intro n
    induction n with
    | zero =>
      intro cs hcs
      obtain rfl := List.length_eq_zero_iff.1 (Nat.le_zero.1 hcs)
      exact ⟨[], .nil, .close hclose⟩
    | succ n ih =>
      intro cs hcs
      by_cases hnil : cs = []
      · subst hnil
        exact ⟨[], .nil, .close hclose⟩
      · obtain ⟨as, bs, e, rfl, has, he, hnext⟩ := next_escaped hnil hr opened
        have hlen := List.length_pos_iff.2 has
        rw [List.length_append] at hcs
        obtain ⟨items, hspells, hitems⟩ := ih bs (by omega)
        exact ⟨.event e :: items, .cons he hspells, .event hnext (inert_of_textOfEvent he) hitems⟩
  exact hlength cs.length cs (Nat.le_refl _)

theorem beginsTag_closing (name : String) (rest : Piece) :
    BeginsTag (Symbol.ofText (closing name) ++ rest) := by
  rw [ofText_closing]
  rfl

/-- The inside of an element is found as it was written. -/
def InsideFound (c : Content) : Prop :=
  c.isAlone = false → ∀ {name : String}, isName name = true → ∀ rest opened, ∃ items,
    Reads items c ∧ Holds items ⟨Symbol.ofText (c.inside name) ++ rest, Symbol.ofText name :: opened⟩
      ⟨rest, opened⟩

theorem exists_reads_renderAll (hname : isName name = true) (as : List (String × String))
    (hn : ∀ n c, (n, c) ∈ es → isName n = true) (hc : ∀ n c, (n, c) ∈ es → c.Legible)
    (h : ∀ n c, (n, c) ∈ es → InsideFound c) :
    ∃ items, Reads items (.parts as es) ∧
      Holds items ⟨Symbol.ofText (Content.renderAll es ++ closing name) ++ rest,
        Symbol.ofText name :: opened⟩ ⟨rest, opened⟩ := by
  induction es with
  | nil =>
    rw [Content.renderAll, String.empty_append]
    exact ⟨[], .nil, .close (next_closing hname)⟩
  | cons e es ih =>
    obtain ⟨n, c⟩ := e
    have hmem : (n, c) ∈ (n, c) :: es := List.mem_cons_self
    have hnamed := (hc n c hmem).named (hn n c hmem)
    obtain ⟨items, hreads, hitems⟩ := ih (fun n c hm => hn n c (List.mem_cons_of_mem _ hm))
      (fun n c hm => hc n c (List.mem_cons_of_mem _ hm))
      fun n c hm => h n c (List.mem_cons_of_mem _ hm)
    have hsplit : Symbol.ofText (Content.renderAll ((n, c) :: es) ++ closing name) ++ rest =
        Symbol.ofText (c.opening n) ++ (Symbol.ofText (c.inside n) ++
          (Symbol.ofText (Content.renderAll es ++ closing name) ++ rest)) := by
      rw [Content.renderAll]
      simp only [ofText_append, List.append_assoc]
    rw [hsplit, Content.opening]
    cases ha : c.isAlone with
    | true =>
      refine ⟨_, .cons (hn n c hmem) (hc n c hmem) (reads_nil_of_isAlone ha) hreads, ?_⟩
      rw [ha, if_pos rfl, Content.inside_of_isAlone ha]
      exact .empty (next_alone hnamed) hitems
    | false =>
      obtain ⟨inner, hinner, hinside⟩ := h n c hmem ha (hn n c hmem) (Symbol.ofText
        (Content.renderAll es ++ closing name) ++ rest) (Symbol.ofText name :: opened)
      refine ⟨_, .cons (hn n c hmem) (hc n c hmem) hinner hreads, ?_⟩
      rw [ha, if_neg Bool.false_ne_true]
      exact .start (next_opening hnamed) hinside hitems

/-- **What is written in an element** is found in it. -/
theorem exists_reads (hc : c.Legible) : InsideFound c := by
  induction hc with
  | @text s =>
    intro _ name hname rest opened
    obtain ⟨items, hspells, hitems⟩ := exists_spells (beginsTag_closing name rest)
      (@next_closing rest opened name hname) s.toList
    refine ⟨items, .text hspells, ?_⟩
    rw [Content.inside, ofText_append, ofText_escape, List.append_assoc]
    exact hitems
  | @parts as es _ _ hn hc ih =>
    intro ha name hname rest opened
    rw [Content.isAlone] at ha
    rw [Content.inside, if_neg (by simp [ha])]
    exact exists_reads_renderAll hname as hn hc ih

theorem next_declaration :
    next ⟨Symbol.ofText Writer.declaration ++ rest, opened⟩ = .ok .ignored ⟨rest, opened⟩ := by
  rfl

/-- What stands behind the declaration is a document without it. -/
theorem root_declaration :
    root ⟨Symbol.ofText Writer.declaration ++ rest, opened⟩ = root ⟨rest, opened⟩ := by
  rw [root]
  split <;> rename_i h <;> rw [next_declaration] at h <;> cases h
  rfl

/-- **The root of a document** is found with its attributes, its namespace apart. -/
theorem opens_document {ns : Option String} (hn : isName name = true) (hc : c.Legible)
    (hns : ns.isSome = true → "xmlns" ∉ c.attributes.map Prod.fst) :
    ∃ el items, Opens el ⟨Symbol.ofText (document name ns c), []⟩ ∧
      el.open = .ok ⟨headOf name c, items⟩ ∧ Reads items c := by
  have hnames : ∀ a ∈ (rootTag name ns c).attributes, isName a.1 = true := by
    intro a ha
    rcases List.mem_append.1 ha with ha | ha
    · obtain ⟨n, -, rfl⟩ := List.mem_map.1 ha
      exact isName_xmlns
    · exact hc.attributes.1 a ha
  have hnodup : ((rootTag name ns c).attributes.map Prod.fst).Nodup := by
    cases ns with
    | none => exact hc.attributes.2
    | some n => exact List.nodup_cons.2 ⟨hns rfl, hc.attributes.2⟩
  have hread : (rootTag name ns c).attributes.filterMap readAttribute? = c.readAttributes := by
    cases ns with
    | none => rfl
    | some n =>
      refine (List.filterMap_cons_none (readAttribute?_xmlns n)).trans rfl
  have hattributes := attributesOf_flatMap hnames hnodup (fun _ _ => List.not_mem_nil)
  rw [hread] at hattributes
  rw [document, ofText_append, ofText_append, List.append_assoc]
  cases ha : c.isAlone with
  | true =>
    refine ⟨_, [], .event next_declaration trivial (.empty (next_alone ⟨hn, hnames⟩)), ?_,
      reads_nil_of_isAlone ha⟩
    rw [open_of_tag (t := rootTag name ns c) hn hattributes, headOf, ha]
    rfl
  | false =>
    obtain ⟨items, hreads, hitems⟩ := exists_reads hc ha hn [] []
    rw [List.append_nil] at hitems
    refine ⟨_, items, .event next_declaration trivial
      (.start (next_opening ⟨hn, hnames⟩) hitems), ?_, hreads⟩
    rw [open_of_tag (t := rootTag name ns c) hn hattributes, headOf, ha]
    rfl

end Lexer

namespace Reader

/-- **A document is decoded as the tree of its root.** -/
theorem decode_document {s : PlanSet} {declared : Handle} {name : String} {ns : Option String}
    {c : Content} (hn : isName name = true) (hc : c.Legible)
    (hns : ns.isSome = true → "xmlns" ∉ c.attributes.map Prod.fst) :
    (do decode s declared (← ofBytes (Text.toBytes (document name ns c)))) =
      Tree.root s declared (Node.element name c) := by
  obtain ⟨el, items, hopens, hopen, hreads⟩ := Lexer.opens_document hn hc hns
  have hsymbols : Lexer.ofSymbols (Symbol.decode (Text.toBytes (document name ns c))) =
      ⟨Symbol.ofText (document name ns c), []⟩ := by
    rw [Symbol.decode_toBytes, document, ofText_append, ofText_append]
    rfl
  rw [← hsymbols] at hopens
  rw [decode_of_opens hopens, hopen]
  exact Node.likeness.root_eq (.element hreads) declared

end Reader

end Markup

/-! ## Documents that are given by their characters -/

namespace Document

open Markup

/-- Reads the document of markup in front of a lexer. -/
def readFrom (plans : PlanSet) (declared : Handle) (lx : Lexer) : Except DecodeError Instance :=
  if plans.format = .xml then
    match lx.root with
    | .ok head lexer => decode plans declared (⟨lexer, .element head, []⟩ : Reader)
    | .error e _ => .error e
  else .error (.formatMismatch .xml plans.format)

variable (plans : PlanSet) (declared : Handle)

theorem read_xml_eq (bytes : List UInt8) : read .xml plans declared bytes =
    readFrom plans declared (Lexer.ofSymbols (Symbol.decode bytes)) := by
  rw [read, readFrom, Reader.ofBytes]
  cases (Lexer.ofSymbols (Symbol.decode bytes)).root <;> rfl

/-- A literal is read from its characters: its encoding need not be evaluated. -/
theorem read_xml_ofList (cs : List Char) : read .xml plans declared (toBytes (String.ofList cs)) =
    readFrom plans declared (Lexer.ofSymbols (cs.map .char)) := by
  rw [read_xml_eq, Symbol.decode_ofList]

/-- A document is read from behind its declaration. -/
theorem read_xml_declaration (doc : String) :
    read .xml plans declared (toBytes (Writer.declaration ++ doc)) =
      readFrom plans declared ⟨Symbol.ofText doc, []⟩ := by
  have hsymbols : Lexer.ofSymbols (Symbol.ofText Writer.declaration ++ Symbol.ofText doc) =
      ⟨Symbol.ofText Writer.declaration ++ Symbol.ofText doc, []⟩ := rfl
  rw [read_xml_eq, Symbol.decode_toBytes, ofText_append, hsymbols, readFrom, Lexer.root_declaration,
    readFrom]

end Document

end Marshal
