import ResultCache.Fingerprint
import ResultCache.Part.Canonical
import ResultCache.Sha256

/-!
Texts of fingerprints. The readable one joins the hash, the checksum and the parts by colons; the
canonical one is JSON, and its SHA-256 digest stands for the fingerprint where it is stored.
-/

namespace ResultCache.Fingerprint

def chars (f : Fingerprint) : List Char :=
  Text.integer f.hash.toInt ++ ':' :: Text.integer f.checksum.toInt ++
    f.parts.toList.flatMap fun p => ':' :: p.chars

instance : ToString Fingerprint := ⟨fun f => String.ofList f.chars⟩

/-- All the running values and then the parts. Immutability is not written. -/
def canonical (f : Fingerprint) : List Char :=
  Json.objectText
    [Json.memberText "multiplier" (Text.integer multiplier.toInt),
      Json.memberText "hashcode" (Text.integer f.hash.toInt),
      Json.memberText "checksum" (Text.integer f.checksum.toInt),
      Json.memberText "count" (Text.integer f.count.toInt),
      Json.memberText "history" (Json.arrayText (f.parts.toList.map Part.canonical))]

def json (f : Fingerprint) : String := String.ofList f.canonical

def digest (f : Fingerprint) : String := Sha256.ofText f.json

end ResultCache.Fingerprint
