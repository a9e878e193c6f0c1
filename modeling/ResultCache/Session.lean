import ResultCache.Chain
import ResultCache.Host

/-!
Sessions: a program at work with a chain. Each action is answered by a reply, and the session
carries the slots of the program and the chain from one action to the next.
-/

namespace ResultCache

/-- What a program does with its own slots. -/
inductive SlotAction where
  | hold (slot content : String)
  | release (slot : String)
  | owners (slot : String)
  | same (slot other : String)

/-- What a program does with a queue. -/
inductive QueueAction (K : Type) where
  | collect
  | poll
  | drain
  | unregister (key : K) (keep : Option String)
  | clear

inductive Action (K : Type) where
  | slot (action : SlotAction)
  | queue (action : QueueAction K)
  | put (key : K) (value : Source String)
  | get (key : K) (keep : Option String)
  | remove (key : K) (keep : Option String)
  | clear
  | size
  | name
  /-- Looks a key up and stores the content if nothing is found. -/
  | query (key : K) (content : String)
  /-- Stores several contents. -/
  | fill (entries : List (K × String))
  /-- Looks several numbered keys up. -/
  | scan (keys : List (Nat × K))
  | setCapacity (layer capacity : Nat)
  | setPinCount (layer pinCount : Nat)
  | unwrap
  | observe

inductive Reply (K : Type) where
  | done
  | flag (b : Bool)
  | count (n : Nat)
  | name (text : String)
  | found (content : Option String)
  | hit (content : String)
  | miss (content : String)
  /-- How many of the numbered keys were found, and the first and the last of these. -/
  | tally (hits : Nat) (first last : Option Nat)
  | key (key : Option K)
  | keys (keys : List K)
  | noSuchSlot
  | noSuchEntry
  | noQueue
  | notApplicable

namespace Host

variable {K : Type}

/-- Acts on the slots. `elsewhere` counts the owners of an object that are not slots. -/
def act (h : Host String) (elsewhere : Object String → Nat) :
    SlotAction → Host String × Reply K
  | .hold slot content => (h.hold slot content, .done)
  | .release slot => (h.release slot, .flag (h.slots.get? slot).isSome)
  | .owners slot =>
    match h.slots.get? slot with
    | none => (h, .noSuchSlot)
    | some object => (h, .count (h.slots.count object + elsewhere object))
  | .same slot other =>
    match h.slots.get? slot, h.slots.get? other with
    | some object, some another => (h, .flag (object == another))
    | _, _ => (h, .noSuchSlot)

end Host

structure Session (K : Type) [BEq K] [Hashable K] where
  chain : Chain K (Object String)
  host : Host String := {}
  /-- Whether the outermost layer was taken off. -/
  unwrapped : Bool := false

namespace Session

variable {K : Type} [BEq K] [Hashable K]

abbrev Step (K : Type) [BEq K] [Hashable K] := Outcome (Session K) (Reply K)

def inUse (s : Session K) (object : Object String) : Bool := s.host.inUse object

def quiet (s : Session K) (reply : Reply K) : Step K := ⟨s, reply, []⟩

/-- A call of the chain, which is told what the program's slots hold. -/
abbrev Call (K α : Type) [BEq K] [Hashable K] :=
  (Object String → Bool) → Chain K (Object String) → Outcome (Chain K (Object String)) α

def withChain {α : Type} (s : Session K) (call : Call K α) (reply : α → Reply K) : Step K :=
  let ⟨chain, host, unwrapped⟩ := s
  let ⟨chain, answer, events⟩ := call host.inUse chain
  ⟨⟨chain, host, unwrapped⟩, reply answer, events⟩

/-- A step that may find an object, which is then held if a slot is named for it. -/
def finding (s : Session K) (keep : Option String)
    (call : Call K (Option (Object String))) : Step K :=
  let ⟨chain, host, unwrapped⟩ := s
  let ⟨chain, found, events⟩ := call host.inUse chain
  ⟨⟨chain, host.keep keep found, unwrapped⟩, .found (found.map Object.content), events⟩

def put (s : Session K) (key : K) (value : Source String) : Step K :=
  match s.host.take? value with
  | none => s.quiet .noSuchSlot
  | some (object, host) =>
    { s with host }.withChain (fun inUse chain => chain.put inUse key object) fun _ => .done

def query (s : Session K) (key : K) (content : String) : Step K :=
  let ⟨chain, host, unwrapped⟩ := s
  let ⟨chain, found, events⟩ := chain.get host.inUse key
  match found with
  | some object => ⟨⟨chain, host, unwrapped⟩, .hit object.content, events⟩
  | none =>
    let (object, host) := host.make content
    (withChain ⟨chain, host, unwrapped⟩ (fun inUse chain => chain.put inUse key object)
      fun _ => .miss content).after events

def fill (s : Session K) : List (K × String) → Step K
  | [] => s.quiet .done
  | (key, content) :: entries =>
    let ⟨s, _, events⟩ := s.put key (.fresh content)
    (s.fill entries).after events

/-- Looks the keys up in turn; the numbers of those found come back with the session. -/
def lookUpAll (s : Session K) : List (Nat × K) → Outcome (Session K) (List Nat)
  | [] => ⟨s, [], []⟩
  | (number, key) :: keys =>
    let ⟨chain, host, unwrapped⟩ := s
    let ⟨chain, found, events⟩ := chain.get host.inUse key
    let ⟨s, numbers, more⟩ := lookUpAll ⟨chain, host, unwrapped⟩ keys
    ⟨s, if found.isSome then number :: numbers else numbers, events ++ more⟩

def scan (s : Session K) (keys : List (Nat × K)) : Step K :=
  let found := s.lookUpAll keys
  ⟨found.cache, .tally found.answer.length found.answer.head? found.answer.getLast?,
    found.events⟩

def orElse {α : Type} (s : Session K) (otherwise : Reply K) (reply : α → Reply K)
    (result : Option (α × Chain K (Object String))) : Step K :=
  match result with
  | none => s.quiet otherwise
  | some (answer, chain) => { s with chain }.quiet (reply answer)

def queueAct (s : Session K) : QueueAction K → Step K
  | .collect => s.orElse .noQueue (fun keys => .count keys.length) (s.chain.collect? s.inUse)
  | .poll => s.orElse .noQueue .key (s.chain.onQueue? Queue.poll)
  | .drain => s.orElse .noQueue .keys (s.chain.onQueue? Queue.drain)
  | .unregister key keep =>
    match s.chain.onQueue? (·.unregister key) with
    | none => s.quiet .noQueue
    | some (object, chain) => { s with chain }.finding keep fun _ chain => ⟨chain, object, []⟩
  | .clear => s.orElse .noQueue (fun _ => .done) (s.chain.onQueue? fun _ => ((), .empty))

/-- Takes the outermost layer off. This works once. -/
def unwrap (s : Session K) : Step K :=
  match s.unwrapped, s.chain.unwrap? with
  | false, some chain => { s with chain, unwrapped := true }.quiet .done
  | _, _ => s.quiet .notApplicable

def step (s : Session K) : Action K → Step K
  | .slot action =>
    let (host, reply) := s.host.act (s.chain.owners ·) action
    { s with host }.quiet reply
  | .queue action => s.queueAct action
  | .put key value => s.put key value
  | .get key keep => s.finding keep fun inUse chain => chain.get inUse key
  | .remove key keep => s.finding keep fun inUse chain => chain.remove inUse key
  | .clear => s.withChain (fun inUse chain => chain.clear inUse) fun _ => .done
  | .size => s.withChain (fun inUse chain => chain.size inUse) .count
  | .name => s.quiet (.name s.chain.name)
  | .query key content => s.query key content
  | .fill entries => s.fill entries
  | .scan keys => s.scan keys
  | .setCapacity layer capacity =>
    s.orElse .notApplicable (fun _ => .done) ((s.chain.setCapacity? layer capacity).map ((), ·))
  | .setPinCount layer pinCount =>
    s.orElse .notApplicable (fun _ => .done) ((s.chain.setPinCount? layer pinCount).map ((), ·))
  | .unwrap => s.unwrap
  | .observe => s.quiet .done

end Session
end ResultCache
