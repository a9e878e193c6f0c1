import ResultCache.Cache

/-! The calls that a cache answers, as data, so that a run is a list of them. -/
namespace ResultCache

inductive Request (K V : Type) where
  | put (key : K) (value : V)
  | get (key : K)
  | remove (key : K)
  | size
  | clear

inductive Answer (V : Type) where
  | done
  | found (value : Option V)
  | count (n : Nat)

def Outcome.reply {σ α β : Type} (o : Outcome σ α) (f : α → β) : Outcome σ β :=
  ⟨o.cache, f o.answer, o.events⟩

namespace Request
variable {σ ω K V : Type} [Cache σ ω K V]

def run (world : ω) (cache : σ) : Request K V → Outcome σ (Answer V)
  | put k v => (Cache.put world cache k v).reply fun _ => .done
  | get k => (Cache.get world cache k).reply .found
  | remove k => (Cache.remove world cache k).reply .found
  | size => (Cache.size world cache).reply .count
  | clear => (Cache.clear world cache).reply fun _ => .done

/-- Makes requests one after the other and answers each. -/
def runAll (world : ω) (cache : σ) : List (Request K V) → Outcome σ (List (Answer V))
  | [] => ⟨cache, [], []⟩
  | request :: requests =>
    let ⟨cache, answer, events⟩ := request.run world cache
    let ⟨cache, answers, more⟩ := runAll world cache requests
    ⟨cache, answer :: answers, events ++ more⟩

end Request
end ResultCache
