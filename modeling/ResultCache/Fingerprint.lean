import ResultCache.Error
import ResultCache.Part.Hash

/-!
Fingerprints, the keys of cached results. A fingerprint remembers its parts and keeps a hash, a
checksum and a count of them up to date; comparing these first settles most comparisons.
-/

namespace ResultCache

structure Fingerprint where
  hash : Int32 := 17
  checksum : Int64 := 0
  count : Int32 := 0
  parts : Array Part := #[]
  /-- The null fingerprint takes no parts. -/
  isImmutable : Bool := false

namespace Fingerprint

def multiplier : Int32 := 37

def empty : Fingerprint := {}

instance : Inhabited Fingerprint := ⟨empty⟩

/-- The fingerprint of no query. It has no parts and never gets any. -/
def null : Fingerprint := { isImmutable := true }

/-- Appends a part of a known weight. The weight counts once in the checksum, and in the hash as
many times as there are parts. -/
def pushWeighted (f : Fingerprint) (p : Part) (weight : Int32) : Fingerprint :=
  let count := f.count + 1
  { f with
    hash := multiplier * f.hash + weight * count
    checksum := f.checksum + weight.toInt64
    count
    parts := f.parts.push p }

def push (f : Fingerprint) (p : Part) : Fingerprint := f.pushWeighted p p.weight

def ofParts (parts : List Part) : Fingerprint := parts.foldl push empty

def update (f : Fingerprint) (p : Part) : Except Error Fingerprint :=
  if f.isImmutable then .error (.forbidden "update") else .ok (f.push p)

/-- Appends parts in order. An immutable fingerprint refuses even none at all. -/
def updateAll (f : Fingerprint) (parts : List Part) : Except Error Fingerprint :=
  if f.isImmutable then .error (.forbidden "update_all") else .ok (parts.foldl push f)

def updateTimes (f : Fingerprint) (p : Part) (n : Nat) : Except Error Fingerprint :=
  if n ≠ 0 ∧ f.isImmutable then .error (.forbidden "update")
  else
    let weight := p.weight
    .ok (n.repeat (·.pushWeighted p weight) f)

/-- Compares the running totals, then the parts that both have. Whether an update is allowed does
not matter. -/
def same (f g : Fingerprint) : Bool :=
  f.hash == g.hash && f.checksum == g.checksum && f.count == g.count &&
    (f.parts.toList.zip g.parts.toList).all fun pair => pair.1 == pair.2

instance : BEq Fingerprint := ⟨same⟩

instance : Hashable Fingerprint := ⟨fun f => f.hash.toUInt32.toUInt64⟩

end Fingerprint
end ResultCache
