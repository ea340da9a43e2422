import Marshal.Json.Source
import Marshal.Proofs.Wire.Failure

/-!
# How reading JSON fails

Once a document is parsed, the reader can only find nothing at the cursor, or a value that is not of
the kind that was expected. It never says that a plan is missing (`Reader.grounded`).
-/

namespace Marshal.Json.Reader

open Reading DecodeError

variable {α : Type}

theorem malformed_grounded (fault : SyntaxFault) :
    FailsOnly (Reading.malformed fault : Reading Reader α) Grounded :=
  failsOnly_throw fun _ => nofun

theorem mismatch_grounded (expected : String) (found : Json) :
    (mismatch expected found).Grounded := fun _ => nofun

theorem take_grounded : FailsOnly take Grounded := by
  refine failsOnly_then failsOnly_get fun r => ?_
  split
  · exact failsOnly_modify_return _ _
  · exact malformed_grounded _

theorem enterObject_grounded (expected : String) : FailsOnly (enterObject expected) Grounded := by
  refine failsOnly_then take_grounded fun j => ?_
  split
  · exact failsOnly_modify _
  · exact failsOnly_throw (mismatch_grounded _ _)

theorem enterArray_grounded : FailsOnly enterArray Grounded := by
  refine failsOnly_then take_grounded fun j => ?_
  split
  · exact failsOnly_modify _
  · exact failsOnly_throw (mismatch_grounded _ _)

theorem nextMember_grounded : FailsOnly nextMember Grounded := by
  refine failsOnly_then failsOnly_get fun r => ?_
  split
  · exact failsOnly_set_return _ _
  · exact failsOnly_set_return _ _
  · exact malformed_grounded _

theorem nextItem_grounded : FailsOnly nextItem Grounded := by
  refine failsOnly_then failsOnly_get fun r => ?_
  split
  · exact failsOnly_set_return _ _
  · exact failsOnly_set_return _ _
  · exact malformed_grounded _

theorem grounded_of_tokenOf {j : Json} {e : DecodeError} (he : tokenOf j = .error e) :
    e.Grounded := by
  unfold tokenOf at he
  split at he
  · cases he
  · split at he <;> cases he
  · cases he
  · cases he
  · cases he
    exact mismatch_grounded _ _

theorem peekField_grounded (key : String) (placement : Placement) :
    FailsOnly (Source.peekField (σ := Reader) key placement) Grounded := by
  refine failsOnly_then failsOnly_get fun r => ?_
  split <;> exact failsOnly_pure _

theorem isNull_grounded : FailsOnly (Source.isNull (σ := Reader)) Grounded := by
  refine failsOnly_then failsOnly_get fun r => ?_
  split
  · exact failsOnly_modify_return _ _
  · exact failsOnly_pure _

theorem beginContainer_grounded (container : Container) :
    FailsOnly (Source.beginContainer (σ := Reader) container) Grounded := by
  cases container with
  | sequence item flattened => exact enterArray_grounded
  | mapping => exact enterObject_grounded _

/-- **Reading JSON never says that a plan is missing.** -/
theorem grounded : Source.Grounded Reader where
  beginObject := enterObject_grounded _
  nextKey := failsOnly_then nextMember_grounded fun _ => failsOnly_pure _
  peekField := peekField_grounded
  isNull := isNull_grounded
  scalar := failsOnly_then take_grounded fun _ => failsOnly_lift fun _ => grounded_of_tokenOf
  beginContainer := beginContainer_grounded
  nextElement := nextItem_grounded
  nextEntry := nextMember_grounded
  skip := failsOnly_modify _

end Marshal.Json.Reader
