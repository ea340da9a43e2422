import Marshal.Catalogue.Error

/-!
# Planning errors
-/

namespace Marshal

/-- What a format cannot do with a property. -/
inductive LayoutFault where
  | structuredAttribute
  | flattenedNonSequence
  | carrierNotMapping
deriving DecidableEq, Repr

/-- The wording of a layout fault. -/
def LayoutFault.message : LayoutFault → String
  | .structuredAttribute => "attribute placement requires a primitive or enum value"
  | .flattenedNonSequence => "only sequences can be flattened"
  | .carrierNotMapping => "additional-properties carrier must be a mapping"

/-- Why no plan is made. -/
inductive PlanError where
  | notSealed
  | catalogue (e : CatalogueError)
  | invalidLayout (type field : String) (fault : LayoutFault)
  | cancelled
  | notPlannable (type : String)
deriving DecidableEq, Repr

/-- The wording of a planning error. -/
def PlanError.message : PlanError → String
  | .notSealed => "type registry must be sealed before planning"
  | .catalogue e => e.message
  | .invalidLayout t f why =>
    "invalid format configuration on " ++ quoted (t ++ "." ++ f) ++ ": " ++ why.message
  | .cancelled => "generation run cancelled"
  | .notPlannable t => "type " ++ quoted t ++ " cannot be planned"

end Marshal
