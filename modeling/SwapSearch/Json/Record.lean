import SwapSearch.Json.Value

/-!
# SwapSearch — records

A *record* is a JSON value with named fields. It is written as an object, in which
other keys than the fields do not matter but no field may stand twice, or as an array
of the values of all fields in their order.
-/

namespace SwapSearch.Json

/-- The fields that are present, with their values. -/
structure Record where
  fields : List (String × Value)

namespace Record

/-- The fields of the given names among the members of an object, if no name stands twice. -/
def ofMembers? (names : List String) (members : List (Content × Value)) : Option Record := do
  let members ← members.mapM fun (key, value) => key.map fun key => (key, value)
  let fields := members.filter fun (key, _) => names.contains key
  if (fields.map (·.1)).Nodup then some ⟨fields⟩ else none

/-- A record with the given field names. -/
def ofValue? (names : List String) : Value → Option Record
  | .object members => ofMembers? names members
  | .array items => if items.length = names.length then some ⟨names.zip items⟩ else none
  | _ => none

def find? (r : Record) (name : String) : Option Value := r.fields.lookup name

/-- A field that has to be there. -/
def required {β : Type} (r : Record) (name : String) (read : Value → Option β) : Option β :=
  (r.find? name).bind read

/-- A field that may be missing or null. -/
def optional {β : Type} (r : Record) (name : String) (read : Value → Option β) :
    Option (Option β) :=
  match r.find? name with
  | none => some none
  | some .null => some none
  | some value => (read value).map some

end Record

end SwapSearch.Json
