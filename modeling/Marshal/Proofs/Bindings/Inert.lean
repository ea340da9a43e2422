import Marshal.Proofs.Bindings.Identifiers
import Marshal.Proofs.Bindings.Skeleton
import Marshal.Proofs.Catalogue.Masking
import Mathlib.Data.List.Forall2

/-!
# Texts of documents in the output

The texts of documents stand in comments and in string literals only. A declaration keeps its skeleton
and its number of lines when they are erased (`Twin.skeleton_eq`, `forall₂_twin_lines`), unless one of
them breaks a line.
-/

namespace Marshal

theorem forall₂_flatMap {α β : Type} {R : β → β → Prop} {l : List α} {f g : α → List β}
    (h : ∀ a ∈ l, List.Forall₂ R (f a) (g a)) : List.Forall₂ R (l.flatMap f) (l.flatMap g) := by
  induction l with
  | nil => exact .nil
  | cons a l ih =>
    rw [List.flatMap_cons, List.flatMap_cons]
    exact List.rel_append (h a (by simp)) (ih fun b hb => h b (List.mem_cons_of_mem a hb))

theorem forall₂_imp_of_mem {α β : Type} {R S : α → β → Prop} {l : List α} {m : List β}
    (h : List.Forall₂ R l m) (hRS : ∀ a ∈ l, ∀ b ∈ m, R a b → S a b) : List.Forall₂ S l m := by
  induction h with
  | nil => exact .nil
  | @cons a b l m hab _ ih =>
    exact .cons (hRS a (by simp) b (by simp) hab)
      (ih fun x hx y hy => hRS x (List.mem_cons_of_mem a hx) y (List.mem_cons_of_mem b hy))

namespace Bindings

/-! ## Lines with a text of documents -/

/-- What the import of maps is asked for with. -/
def mapMark : List Char := ['B', 'T', 'r', 'e', 'e', 'M', 'a', 'p', '<']

theorem toList_mapMark : "BTreeMap<".toList = mapMark := by simp [mapMark]

/-- A line and the line that is left of it without a text of documents. The text may stand between
backticks in a comment, or be what a string literal stands for. -/
inductive Twin (texts : List String) : String → String → Prop
  | same (l : String) : Twin texts l l
  | comment {l l' : String} (a : List Char) (w : String) (b : List Char) : w ∈ texts →
    l.toList = "    ///".toList ++ (a ++ '\x60' :: (w.toList ++ '\x60' :: b)) →
    l'.toList = "    ///".toList ++ (a ++ '\x60' :: '\x60' :: b) → Twin texts l l'
  | literal {l l' : String} (a : List Char) (w : String) (b : List Char) : w ∈ texts → '"' ∉ a →
    l.toList = a ++ '"' :: ((literal w).toList ++ '"' :: b) →
    l'.toList = a ++ '"' :: '"' :: b → Twin texts l l'

namespace Twin

variable {texts : List String} {l l' : String} {ls ms : List String}

theorem isComment_of (rest : List Char) (hl : l.toList = "    ///".toList ++ rest) :
    isComment l = true := by
  simp [isComment, hl]

theorem isComment_eq_false {x : Char} (hblank : x ≠ ' ') (hslash : x ≠ '/') (rest : List Char)
    (hl : l.toList = "    ".toList ++ x :: rest) : isComment l = false := by
  simp [isComment, hl, hblank, List.isPrefixOf, hslash.symm]

/-- Whether a line is a comment is seen before the first quote. -/
theorem isComment_append_quote {a b : List Char} (hl : l.toList = a ++ '"' :: b) :
    isComment l = "///".toList.isPrefixOf (a.dropWhile (· == ' ')) := by
  have hdrop : l.toList.dropWhile (· == ' ') = a.dropWhile (· == ' ') ++ '"' :: b := by
    rw [hl, List.dropWhile_append]
    split
    · rename_i hempty
      rw [List.isEmpty_iff.1 hempty]
      rfl
    · rfl
  rw [isComment, hdrop, Bool.eq_iff_iff, List.isPrefixOf_iff_prefix, List.isPrefixOf_iff_prefix]
  exact ⟨prefix_of_prefix_append_cons (by decide), fun h => h.trans (List.prefix_append _ _)⟩

/-- **A text of documents leaves nothing in the skeleton.** -/
theorem skeleton_eq (h : List.Forall₂ (Twin texts) ls ms) : skeleton ls = skeleton ms := by
  have hone : ∀ {l l'}, Twin texts l l' → skeleton [l] = skeleton [l'] := fun {l l'} h => by
    cases h with
    | same => rfl
    | comment a w b hw hl hleft => simp [skeleton, isComment_of _ hl, isComment_of _ hleft]
    | literal a w b hw ha hl hl' =>
      have hhollow : hollow l = hollow l' := by
        rw [hollow_literal ha hl, hollow_literal (w := "") ha hl']
      have hcomment : isComment l = isComment l' := by
        rw [isComment_append_quote hl, isComment_append_quote hl']
      simp only [skeleton, List.filter_cons, List.filter_nil, hcomment]
      split
      · rw [List.map_singleton, List.map_singleton, hhollow]
      · rfl
  induction h with
  | nil => rfl
  | @cons l l' ls ms hl _ ih =>
    rw [← List.singleton_append, skeleton_append, hone hl, ih, ← skeleton_append,
      List.singleton_append]

/-- Without texts that ask for the import of maps the line that is left decides. -/
theorem infix_iff (h : Twin texts l l') (hw : ∀ w ∈ texts, ¬ mapMark <:+: w.toList) :
    mapMark <:+: l.toList ↔ mapMark <:+: l'.toList := by
  have hnil : ¬ mapMark <:+: [] := by decide
  have hbetween : ∀ {a m b : List Char} {x : Char}, x ∉ mapMark → ¬ mapMark <:+: m →
      (mapMark <:+: a ++ x :: (m ++ x :: b) ↔ mapMark <:+: a ∨ mapMark <:+: b) := fun hx hm => by
    rw [infix_append_cons_iff hx, infix_append_cons_iff hx, or_iff_right hm]
  cases h with
  | same => rfl
  | comment a w b hmem hl hleft =>
    have htick : '\x60' ∉ mapMark := by decide
    rw [hl, hleft, ← List.append_assoc, hbetween htick (hw w hmem), ← List.append_assoc,
      ← List.nil_append ('\x60' :: b), hbetween htick hnil]
  | literal a w b hmem ha hl hleft =>
    have hquote : '"' ∉ mapMark := by decide
    have hliteral : ¬ mapMark <:+: (Bindings.literal w).toList := fun h =>
      hw w hmem (infix_of_infix_literal (by decide) (by decide) (by decide) h)
    rw [hl, hleft, hbetween hquote hliteral, ← List.nil_append ('"' :: b), hbetween hquote hnil]

end Twin

/-! ## Declarations without the texts of documents -/

/-- The texts of documents that a declaration shows. -/
def Declaration.texts : Declaration → List String
  | .words _ labels _ => labels.map Label.word
  | .variants _ _ vs => vs.map Variant.word
  | .record _ _ fields => fields.map Field.wire

/-- A declaration without the texts of documents. -/
def Declaration.blank : Declaration → Declaration
  | .words n labels isOpen => .words n (labels.map fun l => { l with word := "" }) isOpen
  | .variants n property vs => .variants n property (vs.map fun v => { v with word := "" })
  | .record n title fields => .record n title (fields.map fun f => { f with wire := "" })

/-- The other names in a declaration. -/
def Declaration.names : Declaration → List String
  | .words n labels _ => n :: labels.map Label.name
  | .variants n property vs => n :: property :: vs.flatMap fun v => [v.name, v.payload]
  | .record n title fields => n :: title :: fields.flatMap fun f => f.name :: f.type.name?.toList

/-- The names in a declaration are made of the characters of names. -/
def Declaration.IsNeat (d : Declaration) : Prop :=
  ∀ n ∈ d.names, ∀ c ∈ n.toList, isNameChar c = true

variable {d : Declaration}

theorem Declaration.IsNeat.not_mem (hd : d.IsNeat) {n : String} (hn : n ∈ d.names) {c : Char}
    (hc : isNameChar c = false) : c ∉ n.toList := fun hmem => by
  rw [hd n hn c hmem] at hc
  cases hc

/-- The lines of a declaration without the texts of documents are those that are left of its lines. -/
theorem forall₂_twin_lines (hd : d.IsNeat) : List.Forall₂ (Twin d.texts) d.lines d.blank.lines := by
  have hsame : ∀ {texts : List String} (ls : List String), List.Forall₂ (Twin texts) ls ls :=
    fun ls => List.forall₂_same.2 fun l _ => .same l
  cases d with
  | words n labels isOpen =>
    have hlabels : ∀ l ∈ labels, List.Forall₂ (Twin (labels.map Label.word))
        ["    /// \x60" ++ l.word ++ "\x60", "    " ++ l.name ++ ","]
        ["    /// \x60" ++ "" ++ "\x60", "    " ++ l.name ++ ","] := fun l hl =>
      .cons (.comment [' '] l.word [] (List.mem_map_of_mem hl) (by simp) (by simp)) (hsame _)
    have hwords : List.Forall₂ (Twin (labels.map Label.word))
        (labels.map fun l => "            Self::" ++ l.name ++ " => \"" ++ literal l.word ++ "\",")
        (labels.map fun l => "            Self::" ++ l.name ++ " => \"" ++ literal "" ++ "\",") := by
      rw [List.forall₂_map_left_iff, List.forall₂_map_right_iff, List.forall₂_same]
      intro l hl
      have hname : '"' ∉ l.name.toList :=
        hd.not_mem (by simp [Declaration.names]; exact .inr ⟨l, hl, rfl⟩) rfl
      exact .literal ("            Self::".toList ++ l.name.toList ++ " => ".toList) l.word [',']
        (List.mem_map_of_mem hl) (by simp [hname]) (by simp) (by simp [literal])
    simp only [Declaration.lines, Declaration.blank, wordsLines, List.flatMap_map, List.map_map]
    refine List.rel_append (List.rel_append (List.rel_append (List.rel_append (List.rel_append
      (List.rel_append (hsame _) (forall₂_flatMap hlabels)) (hsame _)) (hsame _)) hwords)
      (hsame _)) (hsame _)
  | variants n property vs =>
    have hvariants : ∀ v ∈ vs, List.Forall₂ (Twin (vs.map Variant.word))
        ["    /// \x60" ++ property ++ "\x60 = \x60" ++ v.word ++ "\x60.",
          "    " ++ v.name ++ "(" ++ v.payload ++ "),"]
        ["    /// \x60" ++ property ++ "\x60 = \x60" ++ "" ++ "\x60.",
          "    " ++ v.name ++ "(" ++ v.payload ++ "),"] := fun v hv =>
      .cons (.comment (" \x60".toList ++ property.toList ++ "\x60 = ".toList) v.word ['.']
        (List.mem_map_of_mem hv) (by simp) (by simp)) (hsame _)
    simp only [Declaration.lines, Declaration.blank, variantsLines, List.flatMap_map]
    exact List.rel_append (List.rel_append (hsame _) (forall₂_flatMap hvariants)) (hsame _)
  | record n title fields =>
    have hfields : ∀ f ∈ fields, List.Forall₂ (Twin (fields.map Field.wire))
        ["    /// Wire name \x60" ++ f.wire ++ "\x60.",
          "    pub " ++ f.name ++ ": " ++ f.type.text ++ ","]
        ["    /// Wire name \x60" ++ "" ++ "\x60.",
          "    pub " ++ f.name ++ ": " ++ f.type.text ++ ","] := fun f hf =>
      .cons (.comment " Wire name ".toList f.wire ['.'] (List.mem_map_of_mem hf) (by simp) (by simp))
        (hsame _)
    simp only [Declaration.lines, Declaration.blank, recordLines, List.flatMap_map]
    exact List.rel_append (List.rel_append (hsame _) (forall₂_flatMap hfields)) (hsame _)

theorem break_not_mem_text {t : FieldType} (ht : ∀ n, t.name? = some n → '\n' ∉ n.toList) :
    '\n' ∉ t.text.toList := by
  induction t with
  | unit =>
    change '\n' ∉ "()".toList
    simp
  | primitive p =>
    change '\n' ∉ (primitiveText p).toList
    cases p <;> simp [primitiveText]
  | named n => exact ht n rfl
  | boxed n =>
    change '\n' ∉ ("Box<" ++ n ++ ">").toList
    simp [ht n rfl]
  | option t ih =>
    change '\n' ∉ ("Option<" ++ t.text ++ ">").toList
    simp [ih ht]
  | sequence t ih =>
    change '\n' ∉ ("Vec<" ++ t.text ++ ">").toList
    simp [ih ht]
  | mapping t ih =>
    change '\n' ∉ ("BTreeMap<String, " ++ t.text ++ ">").toList
    simp [ih ht]

/-- Without the texts of documents there are no line breaks within lines. -/
theorem break_not_mem_lines_blank (hd : d.IsNeat) : ∀ l ∈ d.blank.lines, '\n' ∉ l.toList := by
  have hnames : ∀ n ∈ d.names, '\n' ∉ n.toList := fun n hn => hd.not_mem hn rfl
  cases d with
  | words n labels isOpen =>
    simp only [Declaration.names, List.forall_mem_cons, List.forall_mem_map] at hnames
    obtain ⟨hn, hlabels⟩ := hnames
    simp only [Declaration.lines, Declaration.blank, wordsLines, List.forall_mem_append,
      List.flatMap_map,
      List.map_map, List.forall_mem_flatMap, List.forall_mem_map, List.forall_mem_cons]
    refine ⟨⟨⟨⟨⟨⟨?_, ?_⟩, ?_⟩, ?_⟩, ?_⟩, ?_⟩, ?_⟩
    · simp [hn]
    · exact fun l hl => ⟨by simp, by simp [hlabels l hl], by simp⟩
    · cases isOpen <;> simp
    · cases isOpen <;> simp [hn]
    · exact fun l hl => by simp [hlabels l hl, literal]
    · cases isOpen <;> simp
    · simp [hn]
  | variants n property vs =>
    simp only [Declaration.names, List.forall_mem_cons, List.forall_mem_flatMap] at hnames
    obtain ⟨hn, hproperty, hvariants⟩ := hnames
    simp only [Declaration.lines, Declaration.blank, variantsLines, List.forall_mem_append,
      List.flatMap_map, List.forall_mem_flatMap, List.forall_mem_cons]
    refine ⟨⟨?_, ?_⟩, ?_⟩
    · simp [hn, hproperty]
    · exact fun v hv => ⟨by simp [hproperty], by simp [hvariants v hv], by simp⟩
    · simp
  | record n title fields =>
    simp only [Declaration.names, List.forall_mem_cons, List.forall_mem_flatMap,
      Option.mem_toList] at hnames
    obtain ⟨hn, htitle, hfields⟩ := hnames
    simp only [Declaration.lines, Declaration.blank, recordLines, List.forall_mem_append,
      List.flatMap_map, List.forall_mem_flatMap, List.forall_mem_cons]
    refine ⟨⟨?_, ?_⟩, ?_⟩
    · simp [hn, htitle]
    · intro f hf
      have htype := break_not_mem_text (hfields f hf).2
      exact ⟨by simp, by simp [(hfields f hf).1, htype], by simp⟩
    · simp

theorem sum_breaks_eq_zero_iff {ls : List String} :
    (ls.map breaks).sum = 0 ↔ ∀ l ∈ ls, '\n' ∉ l.toList := by
  simp only [List.sum_eq_zero_iff_forall_eq_nat, List.forall_mem_map, breaks_eq_zero_iff]

/-- Lines in pairs, of which the first shows a text. -/
theorem sum_breaks_pairs {α : Type} (xs : List α) (comment line text : α → String)
    (h : ∀ x ∈ xs, breaks (comment x) = breaks (text x) ∧ breaks (line x) = 0) :
    ((xs.flatMap fun x => [comment x, line x]).map breaks).sum = ((xs.map text).map breaks).sum := by
  induction xs with
  | nil => rfl
  | cons x xs ih =>
    obtain ⟨hcomment, hline⟩ := h x (by simp)
    simp [hcomment, hline, ih fun y hy => h y (List.mem_cons_of_mem x hy)]

/-- **Only the texts of documents break lines**, and each of them in one place. -/
theorem sum_breaks_lines (hd : d.IsNeat) : (d.lines.map breaks).sum = (d.texts.map breaks).sum := by
  have hnone := break_not_mem_lines_blank hd
  cases d with
  | words n labels isOpen =>
    simp only [Declaration.lines, Declaration.blank, wordsLines, List.forall_mem_append,
      List.flatMap_map, List.map_map, List.forall_mem_flatMap] at hnone
    obtain ⟨⟨⟨⟨⟨⟨hhead, hlabels⟩, hopen⟩, himpl⟩, -⟩, hunknown⟩, hdisplay⟩ := hnone
    have hpairs := sum_breaks_pairs labels (fun l => "    /// \x60" ++ l.word ++ "\x60")
      (fun l => "    " ++ l.name ++ ",") Label.word fun l hl => by
        simp only [List.forall_mem_cons] at hlabels
        refine ⟨?_, breaks_eq_zero_iff.2 (hlabels l hl).2.1⟩
        rw [breaks_append, breaks_append]
        simp [breaks]
    have hwords : ((labels.map fun l => "            Self::" ++ l.name ++ " => \"" ++ literal l.word ++
        "\",").map breaks).sum = 0 := sum_breaks_eq_zero_iff.2 fun w hw => by
      obtain ⟨l, hl, rfl⟩ := List.mem_map.1 hw
      have hname : '\n' ∉ l.name.toList :=
        hd.not_mem (by simp [Declaration.names]; exact .inr ⟨l, hl, rfl⟩) rfl
      simp [hname, break_not_mem_literal]
    simp only [Declaration.lines, wordsLines, List.map_append, List.sum_append,
      sum_breaks_eq_zero_iff.2 hhead, sum_breaks_eq_zero_iff.2 hopen, sum_breaks_eq_zero_iff.2 himpl,
      sum_breaks_eq_zero_iff.2 hunknown, sum_breaks_eq_zero_iff.2 hdisplay, hpairs, hwords, zero_add,
      add_zero]
    rfl
  | variants n property vs =>
    simp only [Declaration.lines, Declaration.blank, variantsLines, List.forall_mem_append,
      List.flatMap_map, List.forall_mem_flatMap] at hnone
    obtain ⟨⟨hhead, hvariants⟩, hend⟩ := hnone
    have hproperty : '\n' ∉ property.toList := hd.not_mem (by simp [Declaration.names]) rfl
    have hpairs := sum_breaks_pairs vs
      (fun v => "    /// \x60" ++ property ++ "\x60 = \x60" ++ v.word ++ "\x60.")
      (fun v => "    " ++ v.name ++ "(" ++ v.payload ++ "),") Variant.word fun v hv => by
        simp only [List.forall_mem_cons] at hvariants
        refine ⟨?_, breaks_eq_zero_iff.2 (hvariants v hv).2.1⟩
        simp only [breaks_append, breaks_eq_zero_iff.2 hproperty]
        simp [breaks]
    simp only [Declaration.lines, variantsLines, List.map_append, List.sum_append,
      sum_breaks_eq_zero_iff.2 hhead, sum_breaks_eq_zero_iff.2 hend, hpairs, zero_add, add_zero]
    rfl
  | record n title fields =>
    simp only [Declaration.lines, Declaration.blank, recordLines, List.forall_mem_append,
      List.flatMap_map, List.forall_mem_flatMap] at hnone
    obtain ⟨⟨hhead, hfields⟩, hend⟩ := hnone
    have hpairs := sum_breaks_pairs fields (fun f => "    /// Wire name \x60" ++ f.wire ++ "\x60.")
      (fun f => "    pub " ++ f.name ++ ": " ++ f.type.text ++ ",") Field.wire fun f hf => by
        simp only [List.forall_mem_cons] at hfields
        refine ⟨?_, breaks_eq_zero_iff.2 (hfields f hf).2.1⟩
        rw [breaks_append, breaks_append]
        simp [breaks]
    simp only [Declaration.lines, recordLines, List.map_append, List.sum_append,
      sum_breaks_eq_zero_iff.2 hhead, sum_breaks_eq_zero_iff.2 hend, hpairs, zero_add, add_zero]
    rfl

end Bindings

end Marshal
