import ResultCache.Json
import ResultCache.Part

/-!
Parts of JSON documents. An object becomes a list of pairs, each a name and its value, in the order
of the names; of several members with one name the last one counts.
-/

namespace ResultCache.Part

def ofNumber : Json.Number → Part
  | .whole n => if n < 0 then int (Int64.ofInt n) else ofNat n.toNat
  | .float x => float x

/-- Inserts a member in the order of the names, in place of an earlier one of the same name. -/
def insertMember (name : String) (value : Part) :
    List (String × Part) → List (String × Part)
  | [] => [(name, value)]
  | member :: members =>
    if name < member.1 then (name, value) :: member :: members
    else if name = member.1 then (name, value) :: members
    else member :: insertMember name value members

def ofMember (member : String × Part) : Part := list [text member.1, member.2]

mutual

def ofJson : Json → Part
  | .null => null
  | .bool b => bool b
  | .number n => ofNumber n
  | .text s => text s
  | .array items => list (ofItems items)
  | .object members => list ((ofMembers [] members).map ofMember)

def ofItems : List Json → List Part
  | [] => []
  | item :: items => ofJson item :: ofItems items

def ofMembers (collected : List (String × Part)) : List (String × Json) → List (String × Part)
  | [] => collected
  | (name, value) :: members =>
    ofMembers (insertMember name (ofJson value) collected) members

end

instance : ToPart Json := ⟨ofJson⟩

end ResultCache.Part
