import ResultCache.Proofs.Chain.Faithful
import ResultCache.Proofs.Session.Run

/-! No stale answers. What a run finds under a key is the object of the latest put of that key, as long
as nothing has ended that put since. -/
namespace ResultCache
variable {K V : Type} [BEq K]

namespace Exchange

def puts (k : K) : Exchange K V → Bool
  | put k' _ => k' == k
  | _ => false

/-- Whether a key has a new object after the call, or none. -/
def ends (k : K) : Exchange K V → Bool
  | put k' _ => k' == k
  | remove k' _ => k' == k
  | clear => true
  | _ => false

def misses (k : K) : Exchange K V → Bool
  | get k' none => k' == k
  | _ => false

def finds (k : K) (v : V) : Exchange K V → Prop
  | get k' found => (k' == k) = true ∧ found = some v
  | remove k' found => (k' == k) = true ∧ found = some v
  | _ => False

/-- A log in which nothing stale is found. What is found was put by the latest put of its key, with no
removal of the key and no clear since, and after a miss there is a put before the next find. -/
structure Fresh (log : List (Exchange K V)) : Prop where
  latest : ∀ earlier e later k v, log = earlier ++ e :: later → e.finds k v →
    ∃ before k' since, earlier = before ++ put k' v :: since ∧ (k' == k) = true ∧
      ∀ e ∈ since, e.ends k = false
  absent : ∀ earlier k between e later v,
    log = earlier ++ get k none :: between ++ e :: later → e.finds k v →
      ∃ e ∈ between, e.puts k = true

/-- The latest put of a key stored the value, and no call since has ended it or missed it. -/
def Current (k : K) (v : V) (past : List (Exchange K V)) : Prop :=
  ∃ before k' since, past = before ++ put k' v :: since ∧ (k' == k) = true ∧
    ∀ e ∈ since, e.ends k = false ∧ e.misses k = false

private theorem Current.more {k : K} {v : V} {past more : List (Exchange K V)} (h : Current k v past)
    (hm : ∀ e ∈ more, e.ends k = false ∧ e.misses k = false) : Current k v (past ++ more) := by
  obtain ⟨before, k', since, hp, hk, hs⟩ := h
  refine ⟨before, k', since ++ more, ?_, hk, fun e he => ?_⟩
  · rw [hp, List.append_assoc, List.cons_append]
  · exact (List.mem_append.mp he).elim (hs e) (hm e)

private theorem Current.put_since [EquivBEq K] {k : K} {v : V} {earlier between : List (Exchange K V)}
    (h : Current k v (earlier ++ get k none :: between)) : ∃ e ∈ between, e.puts k = true := by
  obtain ⟨before, k', since, hp, hk, hs⟩ := h
  rcases List.append_eq_append_iff.mp hp with ⟨gap, -, hg⟩ | ⟨gap, -, hg⟩
  · cases gap with
    | nil => cases hg
    | cons e gap =>
      rw [List.cons_append, List.cons.injEq] at hg
      exact ⟨.put k' v, hg.2 ▸ List.mem_append_right _ List.mem_cons_self, hk⟩
  · cases gap with
    | nil => cases hg
    | cons e gap =>
      rw [List.cons_append, List.cons.injEq] at hg
      have hmiss := (hs _ (hg.2 ▸ List.mem_append_right _ List.mem_cons_self)).2
      exact absurd (hmiss.symm.trans BEq.rfl) Bool.false_ne_true

/-- It is enough that every value found is the current one. -/
theorem Fresh.of_current [EquivBEq K] {log : List (Exchange K V)}
    (h : ∀ earlier e later k v, log = earlier ++ e :: later → e.finds k v → Current k v earlier) :
    Fresh log where
  latest earlier e later k v hlog hf := by
    obtain ⟨before, k', since, hp, hk, hs⟩ := h earlier e later k v hlog hf
    exact ⟨before, k', since, hp, hk, fun e he => (hs e he).1⟩
  absent earlier k between e later v hlog hf := (h _ e later k v hlog hf).put_since

end Exchange

namespace Session
open Exchange (Current Fresh)
variable [Hashable K]

def Explained (s : Session K) (past : List (Exchange K (Object String))) : Prop :=
  ∀ k v, s.chain.stored k = some v → Current k v past

private theorem stored_orElse {α : Type} {s : Session K} {otherwise : Reply K} {reply : α → Reply K}
    {result : Option (α × Chain K (Object String))} {k : K}
    (h : ∀ answer chain, result = some (answer, chain) → chain.stored k = s.chain.stored k) :
    (s.orElse otherwise reply result).cache.chain.stored k = s.chain.stored k := by
  cases result with
  | none => rfl
  | some found => exact h found.1 found.2 rfl

theorem stored_queueAct (s : Session K) (action : QueueAction K) (k : K) :
    (s.queueAct action).cache.chain.stored k = s.chain.stored k := by
  cases action with
  | collect => exact stored_orElse fun _ _ h => Chain.stored_collect h k
  | poll => exact stored_orElse fun _ _ h => Chain.stored_onQueue h k
  | drain => exact stored_orElse fun _ _ h => Chain.stored_onQueue h k
  | unregister key keep =>
    rw [queueAct]
    cases h : s.chain.onQueue? (·.unregister key) with
    | none => rfl
    | some result => exact Chain.stored_onQueue h k
  | clear => exact stored_orElse fun _ _ h => Chain.stored_onQueue h k

variable [EquivBEq K] [LawfulHashable K]

/-- What is stored after an operation was stored before, and the operation neither ended nor missed it,
or the operation put it. -/
theorem stored_next {s : Session K} {op : Operation K} {k : K} {v : Object String}
    (h : (s.next op).chain.stored k = some v) :
    (s.chain.stored k = some v ∧ ∀ e ∈ s.exchange? op, e.ends k = false ∧ e.misses k = false) ∨
      ∃ k', s.exchange? op = some (.put k' v) ∧ (k' == k) = true := by
  have law := Chain.faithful (K := K) s.inUse
  cases op with
  | slot action => exact .inl ⟨h, fun e he => (Option.not_mem_none e he).elim⟩
  | queue action =>
    have hs := (stored_queueAct s action k).symm.trans h
    exact .inl ⟨hs, fun e he => (Option.not_mem_none e he).elim⟩
  | put key value =>
    change (s.put key value).cache.chain.stored k = some v at h
    rw [put] at h
    rw [exchange?]
    cases ht : s.host.take? value with
    | none =>
      rw [ht] at h
      exact .inl ⟨h, fun e he => (Option.not_mem_none e he).elim⟩
    | some taken =>
      rw [ht] at h
      rcases (Chain.faithful taken.2.inUse).put h with ⟨hk, rfl⟩ | ⟨hk, hs⟩
      · exact .inr ⟨key, rfl, hk⟩
      · refine .inl ⟨hs, ?_⟩
        rintro e ⟨⟩
        exact ⟨hk, rfl⟩
  | get key keep =>
    change (s.chain.get s.inUse key).cache.stored k = some v at h
    refine .inl ⟨law.get h, ?_⟩
    rintro e ⟨⟩
    refine ⟨rfl, ?_⟩
    cases ha : (s.chain.get s.inUse key).answer with
    | some found => rfl
    | none =>
      rw [Exchange.misses, Bool.eq_false_iff]
      intro hk
      cases (law.get_none ha hk).symm.trans h
  | remove key keep =>
    change (s.chain.remove s.inUse key).cache.stored k = some v at h
    obtain ⟨hk, hs⟩ := law.remove h
    refine .inl ⟨hs, ?_⟩
    rintro e ⟨⟩
    exact ⟨hk, rfl⟩
  | size =>
    refine .inl ⟨law.size h, ?_⟩
    rintro e ⟨⟩
    exact ⟨rfl, rfl⟩
  | clear =>
    cases law.clear.symm.trans h

private theorem stored_of_finds {s : Session K} {op : Operation K} {e : Exchange K (Object String)}
    {k : K} {v : Object String} (he : s.exchange? op = some e) (hf : e.finds k v) :
    s.chain.stored k = some v := by
  have law := Chain.faithful (K := K) s.inUse
  cases op with
  | slot action => cases he
  | queue action => cases he
  | put key value =>
    rw [exchange?, Option.map_eq_some_iff] at he
    obtain ⟨taken, -, rfl⟩ := he
    exact hf.elim
  | get key keep =>
    cases he
    exact law.get_some hf.2 hf.1
  | remove key keep =>
    cases he
    exact law.remove_some hf.2 hf.1
  | size =>
    cases he
    exact hf.elim
  | clear =>
    cases he
    exact hf.elim

private theorem Explained.next {s : Session K} {past : List (Exchange K (Object String))}
    (h : s.Explained past) (op : Operation K) :
    (s.next op).Explained (past ++ (s.exchange? op).toList) := by
  intro k v hv
  rcases stored_next hv with ⟨hs, hm⟩ | ⟨k', he, hk⟩
  · exact (h k v hs).more fun e he => hm e (Option.mem_toList.mp he)
  · rw [he]
    exact ⟨past, k', [], rfl, hk, fun e he => (List.not_mem_nil he).elim⟩

/-- Every run keeps all that is stored current. -/
theorem Explained.run {s : Session K} {past : List (Exchange K (Object String))}
    (h : s.Explained past) (ops : List (Operation K)) :
    (ops.foldl Session.next s).Explained (past ++ s.exchanges ops) := by
  induction ops generalizing s past with
  | nil => rwa [exchanges, List.append_nil]
  | cons op ops ih =>
    rw [exchanges, ← List.append_assoc]
    exact ih (h.next op)

/-- In whatever order a chain has its layers, and whatever the program does to the chain, its queue and
its own slots, a run never finds an object other than the one put last under the key. -/
theorem run_finds_latest_put (name : String) (layers : List Layer) (ops : List (Operation K)) :
    Fresh ((start name layers).exchanges ops) := by
  refine .of_current fun earlier e later k v hlog hf => ?_
  obtain ⟨before, op, after, -, hb, he⟩ := exchanges_split hlog
  have hstart : (start name layers : Session K).Explained [] := by
    intro k v hv
    rw [start, Chain.stored_ofLayers] at hv
    cases hv
  have h := hstart.run before k v (stored_of_finds he hf)
  rwa [List.nil_append, hb] at h

/-- An object that the program holds is found again through a tier. -/
theorem run_finds_held_object :
    let log := (start "rows" [.weak 1, .logging]).exchanges
      [.slot (.hold "a" "x"), .put 1 (.slot "a"), .get 1 none]
    log = [.put 1 ⟨0, "x"⟩, .get 1 (some ⟨0, "x"⟩)] ∧ Fresh log := by
  intro log
  refine ⟨?_, run_finds_latest_put _ _ _⟩
  let held : Host String := ({} : Host String).hold "a" "x"
  let t : Tier Nat (Object String) := { pinCount := 1, under := .core { name := "rows" } }
  let put := (t.put 1 ⟨0, "x"⟩).cache
  have hlog : log = [.put 1 ⟨0, "x"⟩, .get 1 (put.get held.inUse 1).answer] := rfl
  have hstored : put.contents.drain.entries[1]? = some ⟨1, ⟨0, "x"⟩⟩ :=
    Std.HashMap.getElem?_insert_self
  rw [hlog, (put.get_contents held.inUse 1).2, Tier.Contents.find, hstored]
  rfl

end Session
end ResultCache
