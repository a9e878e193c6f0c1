import ResultCache.Fingerprint

/-!
Statements with everything that decides their result: which statement, which rows of it, its SQL,
the bound parameters and the environment. The fingerprint lists them in this order.
-/

namespace ResultCache

structure Statement where
  id : String
  offset : UInt64 := 0
  limit : UInt64 := 0x7FFFFFFF
  sql : String := ""
  params : List Part := []
  environment : Option String := none

namespace Statement

def page (s : Statement) (offset limit : UInt64) : Statement := { s with offset, limit }

def withSql (s : Statement) (sql : String) : Statement := { s with sql }

def bind (s : Statement) (p : Part) : Statement := { s with params := s.params ++ [p] }

def bindAll (s : Statement) (params : List Part) : Statement :=
  { s with params := s.params ++ params }

def inEnvironment (s : Statement) (environment : String) : Statement :=
  { s with environment := some environment }

/-- The environment comes last and only if there is one. -/
def parts (s : Statement) : List Part :=
  [.text s.id, toPart s.offset, toPart s.limit, .text s.sql] ++ s.params ++
    s.environment.toList.map .text

def fingerprint (s : Statement) : Fingerprint := Fingerprint.ofParts s.parts

end Statement
end ResultCache
