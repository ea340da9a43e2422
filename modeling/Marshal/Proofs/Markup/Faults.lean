import Marshal.Markup.Source
import Marshal.Proofs.Outcome
import Marshal.Proofs.Wire.Failure

/-!
# How reading markup fails

What the lexer cannot go on with is a syntax fault, whatever it was asked for: one lemma for each of
its functions, and for the recursive ones an induction along their own calls. The reader adds to that
only that a value is not of the kind that was expected, so it never says that a plan is missing
(`Reader.grounded`).
-/

namespace Marshal

/-- The error is a syntax fault. -/
def DecodeError.IsSyntax (e : DecodeError) : Prop := ∃ fault, e = .malformed fault

theorem DecodeError.isSyntax_malformed (fault : SyntaxFault) :
    DecodeError.IsSyntax (.malformed fault) := ⟨fault, rfl⟩

theorem DecodeError.IsSyntax.grounded {e : DecodeError} (h : e.IsSyntax) : e.Grounded := by
  obtain ⟨fault, rfl⟩ := h
  exact fun _ => nofun

namespace Markup

open DecodeError

/-- A step of the lexer that can only fail with a syntax fault. -/
def Lexed.SyntaxOnly {α : Type} (x : Lexed α) : Prop := ∀ e lx, x = .error e lx → e.IsSyntax

theorem Lexed.syntaxOnly_ok {α : Type} (a : α) (lx : Lexer) :
    Lexed.SyntaxOnly (.ok a lx : Lexed α) := fun _ _ => nofun

theorem Lexed.syntaxOnly_error {α : Type} {e : DecodeError} (h : e.IsSyntax) (lx : Lexer) :
    Lexed.SyntaxOnly (.error e lx : Lexed α) := by
  intro e' lx' he
  cases he
  exact h

theorem Lexed.syntaxOnly_malformed {α : Type} (fault : SyntaxFault) (lx : Lexer) :
    Lexed.SyntaxOnly (.error (.malformed fault) lx : Lexed α) :=
  Lexed.syntaxOnly_error (isSyntax_malformed fault) lx

/-- A computation that can only fail with a syntax fault. -/
def SyntaxOnly {α : Type} (x : Except DecodeError α) : Prop := ∀ e, x = .error e → e.IsSyntax

theorem syntaxOnly_ok {α : Type} (a : α) : SyntaxOnly (.ok a) := fun _ => nofun

theorem syntaxOnly_error {α : Type} {e : DecodeError} (h : e.IsSyntax) :
    SyntaxOnly (.error e : Except DecodeError α) := by
  intro e' he
  cases he
  exact h

theorem syntaxOnly_malformed {α : Type} (fault : SyntaxFault) :
    SyntaxOnly (.error (.malformed fault) : Except DecodeError α) :=
  syntaxOnly_error (isSyntax_malformed fault)

theorem syntaxOnly_bind {α β : Type} {x : Except DecodeError α} {f : α → Except DecodeError β}
    (hx : SyntaxOnly x) (hf : ∀ a, SyntaxOnly (f a)) : SyntaxOnly (x >>= f) := by
  cases x with
  | ok a => exact hf a
  | error e => exact syntaxOnly_error (hx e rfl)

theorem syntaxOnly_map {α β : Type} {x : Except DecodeError α} {f : α → β} (hx : SyntaxOnly x) :
    SyntaxOnly (x.map f) := by
  cases x with
  | ok a => exact syntaxOnly_ok _
  | error e => exact syntaxOnly_error (hx e rfl)

/-! ## Tags and references -/

theorem textOf_syntaxOnly (piece : Piece) : SyntaxOnly (textOf piece) := by
  unfold textOf
  split
  · exact syntaxOnly_ok _
  · exact syntaxOnly_malformed _

theorem cutAttribute_syntaxOnly (piece : Piece) : SyntaxOnly (cutAttribute piece) := by
  unfold cutAttribute
  split
  · exact syntaxOnly_ok _
  · dsimp only
    split
    · split
      · split
        · split
          · exact syntaxOnly_ok _
          · exact syntaxOnly_malformed _
        · exact syntaxOnly_malformed _
      · exact syntaxOnly_malformed _
    · exact syntaxOnly_malformed _

theorem RawAttribute.entry_syntaxOnly (a : RawAttribute) : SyntaxOnly a.entry := by
  refine syntaxOnly_bind (textOf_syntaxOnly _) fun key => ?_
  split
  · exact syntaxOnly_ok _
  · refine syntaxOnly_bind (textOf_syntaxOnly _) fun name => ?_
    refine syntaxOnly_bind (textOf_syntaxOnly _) fun raw => ?_
    split
    · exact syntaxOnly_ok _
    · exact syntaxOnly_malformed _

theorem attributesOf_syntaxOnly (seen : List Piece) (piece : Piece) :
    SyntaxOnly (attributesOf seen piece) := by
  fun_induction attributesOf seen piece with
  | case1 seen piece e h => exact syntaxOnly_error (cutAttribute_syntaxOnly piece e h)
  | case2 => exact syntaxOnly_ok _
  | case3 => exact syntaxOnly_malformed _
  | case4 seen piece a h _ _ ih =>
    exact syntaxOnly_bind a.entry_syntaxOnly fun entry => syntaxOnly_bind ih fun _ => syntaxOnly_ok _

theorem Head.ofTag_syntaxOnly (tag : Piece) (isEmpty : Bool) :
    SyntaxOnly (Head.ofTag tag isEmpty) :=
  syntaxOnly_bind (textOf_syntaxOnly _) fun _ =>
    syntaxOnly_bind (attributesOf_syntaxOnly _ _) fun _ => syntaxOnly_ok _

namespace Lexer

theorem referenceText_syntaxOnly (body : Piece) : SyntaxOnly (referenceText body) := by
  unfold referenceText
  split
  · split
    · exact syntaxOnly_ok _
    · exact syntaxOnly_malformed _
  · split
    · exact syntaxOnly_ok _
    · exact syntaxOnly_malformed _
  · exact syntaxOnly_malformed _

theorem textOfEvent_syntaxOnly (e : Event) : SyntaxOnly (textOfEvent e) := by
  cases e with
  | text piece => exact syntaxOnly_map (textOf_syntaxOnly piece)
  | literal piece => exact syntaxOnly_map (textOf_syntaxOnly piece)
  | reference body => exact syntaxOnly_map (referenceText_syntaxOnly body)
  | start | empty | finish => exact syntaxOnly_malformed _
  | close | ignored => exact syntaxOnly_ok _

/-! ## Events -/

theorem upTo_syntaxOnly (lx : Lexer) (cut : Option (Piece × Piece)) (f : Piece → Event) :
    Lexed.SyntaxOnly (upTo lx cut f) := by
  unfold upTo
  split
  · exact Lexed.syntaxOnly_ok _ _
  · exact Lexed.syntaxOnly_malformed _ _

theorem enclosed_syntaxOnly (opening mark : String) (f : Piece → Event) (lx : Lexer) (after : Piece) :
    Lexed.SyntaxOnly (enclosed opening mark f lx after) := by
  unfold enclosed
  split
  · exact upTo_syntaxOnly _ _ _
  · exact Lexed.syntaxOnly_malformed _ _

theorem declaration_syntaxOnly (lx : Lexer) (after : Piece) :
    Lexed.SyntaxOnly (declaration lx after) := by
  unfold declaration
  split
  · exact enclosed_syntaxOnly _ _ _ _ _
  · exact enclosed_syntaxOnly _ _ _ _ _
  · unfold doctype
    split
    · split
      · split
        · exact Lexed.syntaxOnly_malformed _ _
        · exact Lexed.syntaxOnly_ok _ _
      · exact Lexed.syntaxOnly_malformed _ _
    · exact Lexed.syntaxOnly_malformed _ _

theorem endTag_syntaxOnly (lx : Lexer) (inside rest : Piece) :
    Lexed.SyntaxOnly (endTag lx inside rest) := by
  unfold endTag
  split
  · split
    · exact Lexed.syntaxOnly_ok _ _
    · exact Lexed.syntaxOnly_malformed _ _
  · exact Lexed.syntaxOnly_malformed _ _

theorem startTag_syntaxOnly (lx : Lexer) (inside rest : Piece) :
    Lexed.SyntaxOnly (startTag lx inside rest) := by
  unfold startTag
  split <;> exact Lexed.syntaxOnly_ok _ _

theorem markup_syntaxOnly (lx : Lexer) (after : Piece) : Lexed.SyntaxOnly (markup lx after) := by
  unfold markup
  split
  · exact declaration_syntaxOnly _ _
  · unfold instruction
    split
    · exact Lexed.syntaxOnly_malformed _ _
    · exact upTo_syntaxOnly _ _ _
  · split
    · exact endTag_syntaxOnly _ _ _
    · exact Lexed.syntaxOnly_malformed _ _
  · split
    · exact startTag_syntaxOnly _ _ _
    · exact Lexed.syntaxOnly_malformed _ _

theorem ampersand_syntaxOnly (lx : Lexer) (after : Piece) :
    Lexed.SyntaxOnly (ampersand lx after) := by
  unfold ampersand
  dsimp only
  split
  · exact Lexed.syntaxOnly_ok _ _
  · exact Lexed.syntaxOnly_malformed _ _

theorem next_syntaxOnly (lx : Lexer) : Lexed.SyntaxOnly (next lx) := by
  unfold next
  split
  · exact Lexed.syntaxOnly_ok _ _
  · split
    · exact markup_syntaxOnly _ _
    · split
      · exact ampersand_syntaxOnly _ _
      · exact Lexed.syntaxOnly_ok _ _

theorem headAt_syntaxOnly (lx : Lexer) (tag : Piece) (isEmpty : Bool) :
    Lexed.SyntaxOnly (headAt lx tag isEmpty) := by
  unfold headAt
  split
  · exact Lexed.syntaxOnly_ok _ _
  · rename_i e h
    exact Lexed.syntaxOnly_error (Head.ofTag_syntaxOnly tag isEmpty e h) lx

/-- A step that passes on the failure of a step before it. -/
theorem syntaxOnly_of_error {α β : Type} {x : Lexed α} {e : DecodeError} {lx : Lexer}
    (hx : Lexed.SyntaxOnly x) (h : x = .error e lx) : Lexed.SyntaxOnly (.error e lx : Lexed β) :=
  Lexed.syntaxOnly_error (hx e lx h) lx

/-! ## Content -/

theorem root_syntaxOnly (lx : Lexer) : Lexed.SyntaxOnly (root lx) := by
  fun_induction root lx
  all_goals first
    | assumption
    | exact headAt_syntaxOnly _ _ _
    | exact Lexed.syntaxOnly_malformed _ _
    | exact syntaxOnly_of_error (next_syntaxOnly _) ‹_›

theorem child_syntaxOnly (lx : Lexer) : Lexed.SyntaxOnly (child lx) := by
  fun_induction child lx
  all_goals first
    | assumption
    | exact Lexed.syntaxOnly_ok _ _
    | exact Lexed.syntaxOnly_malformed _ _
    | exact syntaxOnly_of_error (next_syntaxOnly _) ‹_›
    | exact syntaxOnly_of_error (headAt_syntaxOnly _ _ _) ‹_›

theorem skip_syntaxOnly (depth : Nat) (lx : Lexer) : Lexed.SyntaxOnly (skip depth lx) := by
  fun_induction skip depth lx
  all_goals first
    | assumption
    | exact Lexed.syntaxOnly_ok _ _
    | exact Lexed.syntaxOnly_malformed _ _
    | exact syntaxOnly_of_error (next_syntaxOnly _) ‹_›

theorem text_syntaxOnly (before : String) (lx : Lexer) : Lexed.SyntaxOnly (text before lx) := by
  fun_induction text before lx with
  | case1 _ _ _ _ h => exact syntaxOnly_of_error (next_syntaxOnly _) h
  | case2 _ _ e _ _ f he => exact Lexed.syntaxOnly_error (textOfEvent_syntaxOnly e f he) _
  | case3 => exact Lexed.syntaxOnly_ok _ _
  | case4 => assumption

theorem skipHead_syntaxOnly (head : Head) (lx : Lexer) : Lexed.SyntaxOnly (skipHead head lx) := by
  unfold skipHead
  split
  · exact Lexed.syntaxOnly_ok _ _
  · exact skip_syntaxOnly _ _

theorem headText_syntaxOnly (head : Head) (lx : Lexer) : Lexed.SyntaxOnly (headText head lx) := by
  unfold headText
  split
  · exact Lexed.syntaxOnly_ok _ _
  · exact text_syntaxOnly _ _

theorem childText?_syntaxOnly (name : String) (lx : Lexer) :
    Lexed.SyntaxOnly (childText? name lx) := by
  fun_induction childText? name lx
  all_goals first
    | assumption
    | exact Lexed.syntaxOnly_ok _ _
    | exact syntaxOnly_of_error (child_syntaxOnly _) ‹_›
    | exact syntaxOnly_of_error (headText_syntaxOnly _ _) ‹_›
    | exact syntaxOnly_of_error (skipHead_syntaxOnly _ _) ‹_›

theorem skipChildren_syntaxOnly (lx : Lexer) : Lexed.SyntaxOnly (skipChildren lx) := by
  fun_induction skipChildren lx
  all_goals first
    | assumption
    | exact Lexed.syntaxOnly_ok _ _
    | exact syntaxOnly_of_error (child_syntaxOnly _) ‹_›
    | exact syntaxOnly_of_error (skipHead_syntaxOnly _ _) ‹_›

theorem entry_syntaxOnly (key : Option String) (lx : Lexer) : Lexed.SyntaxOnly (entry key lx) := by
  fun_induction entry key lx
  all_goals first
    | assumption
    | exact Lexed.syntaxOnly_ok _ _
    | exact Lexed.syntaxOnly_malformed _ _
    | exact syntaxOnly_of_error (child_syntaxOnly _) ‹_›
    | exact syntaxOnly_of_error (headText_syntaxOnly _ _) ‹_›
    | exact syntaxOnly_of_error (skipHead_syntaxOnly _ _) ‹_›

end Lexer

/-! ## The reader -/

namespace Reader

open Reading

theorem ofBytes_syntaxOnly (bytes : List UInt8) : SyntaxOnly (ofBytes bytes) := by
  unfold ofBytes
  split
  · exact syntaxOnly_ok _
  · rename_i e lx h
    exact syntaxOnly_error (Lexer.root_syntaxOnly _ e lx h)

theorem malformed_grounded {α : Type} (fault : SyntaxFault) :
    FailsOnly (Reading.malformed fault : Reading Reader α) Grounded :=
  failsOnly_throw (isSyntax_malformed fault).grounded

theorem pull_grounded {α : Type} {f : Lexer → Lexed α} (hf : ∀ lx, Lexed.SyntaxOnly (f lx)) :
    FailsOnly (pull f) Grounded := by
  intro r e r' h
  unfold pull at h
  split at h
  · cases h
  · rename_i hr
    cases h
    exact (hf r.lexer _ _ hr).grounded

theorem take_grounded : FailsOnly take Grounded :=
  failsOnly_then failsOnly_get fun _ => failsOnly_modify_return _ _

theorem takeElement_grounded (what : String) : FailsOnly (takeElement what) Grounded := by
  refine failsOnly_then take_grounded fun c => ?_
  rcases c with _ | _ | value | head
  · exact malformed_grounded _
  · exact malformed_grounded _
  · exact failsOnly_throw fun _ => nofun
  · exact failsOnly_pure _

theorem discard_grounded : FailsOnly discard Grounded := by
  refine failsOnly_then take_grounded fun c => ?_
  cases c with
  | element head => exact pull_grounded (Lexer.skipHead_syntaxOnly head)
  | _ => exact failsOnly_pure _

theorem advance_grounded : FailsOnly advance Grounded := by
  refine failsOnly_then (pull_grounded Lexer.child_syntaxOnly) fun head => ?_
  cases head <;> exact failsOnly_modify_return _ _

theorem nextKey_grounded : FailsOnly nextKey Grounded := by
  refine failsOnly_then discard_grounded fun _ => failsOnly_then failsOnly_get fun r => ?_
  split
  · exact failsOnly_set_return _ _
  · exact failsOnly_modify_return _ _
  · exact failsOnly_map _ advance_grounded
  · exact malformed_grounded _

theorem peekField_grounded (name : String) (placement : Placement) :
    FailsOnly (peekField name placement) Grounded := by
  refine failsOnly_then failsOnly_get fun r => ?_
  split
  · rcases placement with _ | _ <;> dsimp only
    · split
      · exact failsOnly_pure _
      · split
        · exact failsOnly_pure _
        · rename_i e lx h
          exact failsOnly_throw (Lexer.childText?_syntaxOnly name _ e lx h).grounded
    · exact failsOnly_pure _
  · exact failsOnly_pure _

theorem scalar_grounded : FailsOnly scalar Grounded := by
  refine failsOnly_then take_grounded fun c => ?_
  rcases c with _ | _ | value | head
  · exact malformed_grounded _
  · exact malformed_grounded _
  · exact failsOnly_pure _
  · exact failsOnly_then (pull_grounded (Lexer.headText_syntaxOnly head)) fun _ => failsOnly_pure _

theorem beginContainer_grounded (container : Container) :
    FailsOnly (beginContainer container) Grounded := by
  rcases container with ⟨item, flattened⟩ | _
  · cases flattened with
    | true =>
      refine failsOnly_then failsOnly_get fun r => ?_
      split
      · exact failsOnly_modify _
      · exact malformed_grounded _
    | false => exact failsOnly_then (takeElement_grounded _) fun _ => failsOnly_modify _
  · exact failsOnly_then (takeElement_grounded _) fun _ => failsOnly_modify _

theorem nextElement_grounded : FailsOnly nextElement Grounded := by
  refine failsOnly_then failsOnly_get fun r => ?_
  split
  · exact failsOnly_set_return _ _
  · exact failsOnly_then discard_grounded fun _ => failsOnly_modify_return _ _
  · exact failsOnly_then discard_grounded fun _ => failsOnly_modify_return _ _
  · exact failsOnly_then discard_grounded fun _ => failsOnly_then advance_grounded fun _ =>
      failsOnly_pure _
  · exact malformed_grounded _

theorem closeEntry_grounded : FailsOnly closeEntry Grounded := by
  refine failsOnly_then failsOnly_get fun r => ?_
  split
  · exact failsOnly_then (failsOnly_modify _) fun _ => pull_grounded Lexer.skipChildren_syntaxOnly
  · exact failsOnly_pure _

theorem nextEntry_grounded : FailsOnly nextEntry Grounded := by
  refine failsOnly_then discard_grounded fun _ => failsOnly_then closeEntry_grounded fun _ => ?_
  refine failsOnly_then failsOnly_get fun r => ?_
  split
  · exact failsOnly_modify_return _ _
  · refine failsOnly_then (pull_grounded Lexer.child_syntaxOnly) fun head => ?_
    rcases head with _ | head
    · exact failsOnly_modify_return _ _
    · dsimp only
      split
      · exact malformed_grounded _
      · refine failsOnly_then (pull_grounded (Lexer.entry_syntaxOnly none)) fun entry => ?_
        obtain ⟨key, _ | value⟩ := entry
        · exact failsOnly_modify_return _ _
        · exact failsOnly_then (failsOnly_modify _) fun _ => failsOnly_modify_return _ _
  · exact malformed_grounded _

theorem isNull_grounded : FailsOnly (Source.isNull (σ := Reader)) Grounded := by
  refine failsOnly_then failsOnly_get fun r => ?_
  split
  · exact failsOnly_modify_return _ _
  · exact failsOnly_pure _

/-- **Reading markup never says that a plan is missing.** -/
theorem grounded : Source.Grounded Reader where
  beginObject := failsOnly_then (takeElement_grounded _) fun _ => failsOnly_modify _
  nextKey := nextKey_grounded
  peekField := peekField_grounded
  isNull := isNull_grounded
  scalar := scalar_grounded
  beginContainer := beginContainer_grounded
  nextElement := nextElement_grounded
  nextEntry := nextEntry_grounded
  skip := discard_grounded

end Reader

end Markup

end Marshal
