import ResultCache.Session

/-! Runs of a program that works with one chain and leaves its layers as they are. The exchanges of a
run are its calls of the chain, with the objects that went in and came out. -/
namespace ResultCache

inductive Operation (K : Type) where
  | slot (action : SlotAction)
  | queue (action : QueueAction K)
  | put (key : K) (value : Source String)
  | get (key : K) (keep : Option String)
  | remove (key : K) (keep : Option String)
  | size
  | clear

def Operation.action {K : Type} : Operation K → Action K
  | slot action => .slot action
  | queue action => .queue action
  | put key value => .put key value
  | get key keep => .get key keep
  | remove key keep => .remove key keep
  | size => .size
  | clear => .clear

inductive Exchange (K V : Type) where
  | put (key : K) (value : V)
  | get (key : K) (found : Option V)
  | remove (key : K) (found : Option V)
  | size (n : Nat)
  | clear

/-- What the program is told. Of the objects found it learns the contents. -/
def Exchange.reply {K : Type} : Exchange K (Object String) → Reply K
  | put _ _ => .done
  | get _ found => .found (found.map Object.content)
  | remove _ found => .found (found.map Object.content)
  | size n => .count n
  | clear => .done

namespace Session
variable {K : Type} [BEq K] [Hashable K]

def start (name : String) (layers : List Layer) : Session K := { chain := .ofLayers name layers }

def next (s : Session K) (op : Operation K) : Session K := (s.step op.action).cache

/-- What passes between program and chain in one operation. A put from an empty slot is no call. -/
def exchange? (s : Session K) : Operation K → Option (Exchange K (Object String))
  | .slot _ => none
  | .queue _ => none
  | .put key value => (s.host.take? value).map fun taken => .put key taken.1
  | .get key _ => some (.get key (s.chain.get s.inUse key).answer)
  | .remove key _ => some (.remove key (s.chain.remove s.inUse key).answer)
  | .size => some (.size (s.chain.size s.inUse).answer)
  | .clear => some .clear

def exchanges (s : Session K) : List (Operation K) → List (Exchange K (Object String))
  | [] => []
  | op :: ops => (s.exchange? op).toList ++ (s.next op).exchanges ops

theorem answer_step {s : Session K} {op : Operation K} {e : Exchange K (Object String)}
    (h : s.exchange? op = some e) : (s.step op.action).answer = e.reply := by
  cases op with
  | slot action => cases h
  | queue action => cases h
  | put key value =>
    rw [exchange?, Option.map_eq_some_iff] at h
    obtain ⟨taken, ht, rfl⟩ := h
    rw [Operation.action, step, put, ht]
    rfl
  | get key keep => exact congrArg Exchange.reply (Option.some.inj h)
  | remove key keep => exact congrArg Exchange.reply (Option.some.inj h)
  | size => exact congrArg Exchange.reply (Option.some.inj h)
  | clear => exact congrArg Exchange.reply (Option.some.inj h)

theorem exchanges_append (s : Session K) (ops more : List (Operation K)) :
    s.exchanges (ops ++ more) = s.exchanges ops ++ (ops.foldl next s).exchanges more := by
  induction ops generalizing s with
  | nil => rfl
  | cons op ops ih => rw [List.cons_append, exchanges, exchanges, ih, List.append_assoc, List.foldl_cons]

/-- Each exchange of a run arose in the session that the operations before it had left. -/
theorem exchanges_split {s : Session K} {ops : List (Operation K)} {earlier later e}
    (h : s.exchanges ops = earlier ++ e :: later) :
    ∃ before op after, ops = before ++ op :: after ∧ s.exchanges before = earlier ∧
      (before.foldl next s).exchange? op = some e := by
  induction ops generalizing s earlier with
  | nil => exact absurd h.symm (List.append_ne_nil_of_right_ne_nil _ (List.cons_ne_nil _ _))
  | cons op ops ih =>
    rw [exchanges] at h
    cases he : s.exchange? op with
    | none =>
      rw [he, Option.toList_none, List.nil_append] at h
      obtain ⟨before, op', after, hops, hb, hx⟩ := ih h
      refine ⟨op :: before, op', after, congrArg (op :: ·) hops, ?_, hx⟩
      rw [exchanges, he, hb]
      rfl
    | some e' =>
      rw [he, Option.toList_some, List.singleton_append] at h
      cases earlier with
      | nil =>
        rw [List.nil_append, List.cons.injEq] at h
        exact ⟨[], op, ops, rfl, rfl, he.trans (congrArg some h.1)⟩
      | cons first earlier =>
        rw [List.cons_append, List.cons.injEq] at h
        obtain ⟨before, op', after, hops, hb, hx⟩ := ih h.2
        refine ⟨op :: before, op', after, congrArg (op :: ·) hops, ?_, hx⟩
        rw [exchanges, he, hb, h.1]
        rfl

end Session
end ResultCache
