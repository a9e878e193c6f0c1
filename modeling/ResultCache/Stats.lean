import ResultCache.Binary64.Nearest

/-! Counts of the calls that a cache received. -/

namespace ResultCache

structure Stats where
  requests : Nat := 0
  hits : Nat := 0
  puts : Nat := 0
  removes : Nat := 0
  deriving DecidableEq

namespace Stats

def misses (s : Stats) : Nat := s.requests - s.hits

/-- The share of the requests that were hits, zero before the first request. Both counts are
rounded before they are divided. -/
def hitRatio (s : Stats) : Binary64 :=
  if s.requests = 0 then Binary64.ofNat 0
  else (Binary64.ofNat s.hits).dividedBy (Binary64.ofNat s.requests)

end Stats
end ResultCache
