import Marshal.Json.Tree

/-!
# Records in JSON

A record is an object whose members are looked up by name, or an array that gives the same parts in
order. Members under other names do not matter; a known name may stand only once.
-/

namespace Marshal.Json

/-- The members with one of these names, none of which may be repeated. -/
def known? (names : List String) (members : List (String × Json)) : Option (Table String Json) :=
  let found := members.filter fun m => m.1 ∈ names
  if (Table.keys found).Nodup then some found else none

/-- The parts of a record. An array must give at least the first `least` parts. -/
def parts? (names : List String) (least : Nat) : Json → Option (Table String Json)
  | .object members => known? names members
  | .array items =>
    if least ≤ items.length ∧ items.length ≤ names.length then some (names.zip items) else none
  | _ => none

/-- A text. -/
def toText? : Json → Option String
  | .text s => some s
  | _ => none

/-- A truth value. -/
def toBool? : Json → Option Bool
  | .bool b => some b
  | _ => none

/-- The items of an array. -/
def toItems? : Json → Option (List Json)
  | .array items => some items
  | _ => none

/-- The members of an object. -/
def toMembers? : Json → Option (List (String × Json))
  | .object members => some members
  | _ => none

/-! ## Parts that may be missing -/

/-- A text part that may be missing or null. -/
def textPart? (parts : Table String Json) (name : String) : Option (Option String) :=
  match Table.find? parts name with
  | none => some none
  | some .null => some none
  | some j => j.toText?.map some

/-- A truth value that is false when it is missing. -/
def flagPart? (parts : Table String Json) (name : String) : Option Bool :=
  match Table.find? parts name with
  | none => some false
  | some j => j.toBool?

/-- A list that is empty when it is missing. -/
def itemsPart? (parts : Table String Json) (name : String) : Option (List Json) :=
  match Table.find? parts name with
  | none => some []
  | some j => j.toItems?

end Marshal.Json
