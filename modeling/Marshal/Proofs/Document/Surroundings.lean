import Marshal.Proofs.Document.Order
import Marshal.Proofs.Document.Retention

/-!
# What stands around the root

A markup document is read up to the end of its root (`Document.read_xml_parts`). What is read is one
element, closed with all that is in it. In front of it stands what opens and closes nothing, which may be
text, and behind it anything at all, a second root or a stray end tag among others. None of that is looked
at, so it may be exchanged, and documents are read that are no documents (`Document.not_refused_around`).
-/

namespace Marshal

namespace Document

open Catalogue Markup Text

variable {plans : PlanSet} {declared : Handle} {bytes : List UInt8} {i : Instance}

/-- The tree that a document opens with is all that counts. -/
theorem read_xml_of_same_root {el : Element} {bytes' : List UInt8}
    (hel : Lexer.Opens el (Lexer.ofSymbols (Symbol.decode bytes)))
    (hel' : Lexer.Opens el (Lexer.ofSymbols (Symbol.decode bytes'))) :
    read .xml plans declared bytes' = read .xml plans declared bytes := by
  rw [read, read]
  split
  · exact (Reader.decode_of_opens hel').trans (Reader.decode_of_opens hel).symm
  · rfl

/-- **A document in three parts**: in front of the root events that open and close nothing, then the
root, whose elements are all closed in it, and then anything at all. -/
structure InParts (bytes : List UInt8) (before root after : Piece) (el : Element) : Prop where
  rest : (Lexer.ofSymbols (Symbol.decode bytes)).rest = before ++ (root ++ after)
  before : Lexer.Flat ⟨before, []⟩
  root : Lexer.Covers el ⟨root, []⟩ ⟨[], []⟩

/-- It opens with its root. -/
theorem InParts.opens {before root after : Piece} {el : Element}
    (hparts : InParts bytes before root after el) :
    Lexer.Opens el (Lexer.ofSymbols (Symbol.decode bytes)) := by
  have hopens := hparts.root.opens_behind hparts.before rfl after
  rw [← hparts.rest] at hopens
  rwa [← Lexer.opened_ofSymbols (Symbol.decode bytes)] at hopens

/-- **A markup document that is read** is in three parts. It is read alike with anything in front of the
root that opens and closes nothing, and with anything at all behind it. -/
theorem read_xml_parts (h : read .xml plans declared bytes = .ok i) :
    ∃ before root after el, InParts bytes before root after el ∧
      ∀ before' after' bytes', InParts bytes' before' root after' el →
        read .xml plans declared bytes' = .ok i := by
  obtain ⟨el, hel⟩ := exists_opens_of_read h
  obtain ⟨before, root, after, hrest, hbefore, hroot⟩ := hel.exists_parts (Lexer.opened_ofSymbols _)
  exact ⟨before, root, after, el, ⟨hrest, hbefore, hroot⟩, fun _ _ _ hparts =>
    (read_xml_of_same_root hel hparts.opens).trans h⟩

/-- Documents with an empty folder that are none: text stands in front of the root, a second root or an
end tag behind it. -/
def surrounded : List String := ["junk<Folder/>", "<Folder/><Folder/>", "<Folder/></Folder>"]

theorem read_surrounded : ∀ doc ∈ surrounded,
    read .xml folderPlans ⟨11⟩ (toBytes doc) = .ok ⟨⟨11⟩, []⟩ := by
  have hread : ∀ doc ∈ surrounded, (read .xml folderPlans ⟨11⟩ (toBytes doc)).toOption.map
      (Instance.same ⟨⟨11⟩, []⟩) = some true := by
    simp only [surrounded, List.forall_mem_cons]
    refine ⟨?_, ?_, ?_, by simp⟩
    all_goals rw [read_xml_ofList]
    all_goals decide +kernel
  exact fun doc hdoc => read_eq_of_same rfl (hread doc hdoc)

/-- **What stands around the root is not refused**, be it text, another root or an end tag. -/
theorem not_refused_around : sealedFolders.Reachable ∧
    sealedFolders.planAll .xml = .ok folderPlans ∧
      ∀ doc ∈ surrounded, read .xml folderPlans ⟨11⟩ (toBytes doc) = .ok ⟨⟨11⟩, []⟩ :=
  ⟨reachable_sealedFolders, planAll_sealedFolders, read_surrounded⟩

/-- Text in front of a folder is in front of its root. -/
theorem read_xml_parts_folder : ∃ before root after el,
    InParts (toBytes "junk<Folder/>") before root after el := by
  obtain ⟨before, root, after, el, hparts, -⟩ :=
    read_xml_parts (read_surrounded "junk<Folder/>" (by simp [surrounded]))
  exact ⟨before, root, after, el, hparts⟩

end Document

end Marshal
