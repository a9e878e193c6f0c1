import ResultCache.Session
import ResultCache.Text.Quoted

/-!
A program at work with a queue alone: it registers values under keys and keeps the handles it gets
back under names.
-/

namespace ResultCache

namespace Handle

variable {V : Type}

def describe (h : Handle String V) (reclaimed : Bool) : String :=
  "WeakEntry \x7b key: " ++ Text.quoted h.key ++ ", reclaimed: " ++
    (if reclaimed then "true" else "false") ++ " \x7d"

end Handle

namespace Queue

variable {K V : Type} [BEq K] [Hashable K] [BEq V] [Hashable V]

/-- A queue shows nothing of what it holds. -/
def describe (_ : Queue K V) : String := "ReferenceQueue \x7b .. \x7d"

end Queue

inductive HandleAction (K : Type) where
  | slot (action : SlotAction)
  | queue (action : QueueAction K)
  | register (entry : String) (key : K) (value : Source String)
  /-- Makes a handle of a value that is not registered for it. -/
  | refer (entry : String) (key : K) (value : Source String)
  | copy (entry source : String)
  | forget (entry : String)
  | read (entry : String) (keep : Option String)
  | describe

structure QueueSession (K : Type) [BEq K] [Hashable K] where
  queue : Queue K (Object String) := {}
  host : Host String := {}
  handles : Slots (Handle K (Object String)) := {}

namespace QueueSession

variable {K : Type} [BEq K] [Hashable K]

/-- A value is reclaimed once neither a slot nor a registration owns it. -/
def isReclaimed (s : QueueSession K) (handle : Handle K (Object String)) : Bool :=
  !(s.host.inUse handle.referent || s.queue.owns handle.referent)

def finding (s : QueueSession K) (keep : Option String) (found : Option (Object String)) :
    QueueSession K × Reply K :=
  ({ s with host := s.host.keep keep found }, .found (found.map Object.content))

def queueAct (s : QueueSession K) : QueueAction K → QueueSession K × Reply K
  | .collect =>
    let (keys, queue) := s.queue.collect s.host.inUse
    ({ s with queue }, .count keys.length)
  | .poll =>
    let (key, queue) := s.queue.poll
    ({ s with queue }, .key key)
  | .drain =>
    let (keys, queue) := s.queue.drain
    ({ s with queue }, .keys keys)
  | .unregister key keep =>
    let (found, queue) := s.queue.unregister key
    { s with queue }.finding keep found
  | .clear => ({ s with queue := .empty }, .done)

def step (s : QueueSession K) : HandleAction K → QueueSession K × Reply K
  | .slot action =>
    let (host, reply) := s.host.act s.queue.registrations action
    ({ s with host }, reply)
  | .queue action => s.queueAct action
  | .register entry key value =>
    match s.host.take? value with
    | none => (s, .noSuchSlot)
    | some (object, host) =>
      let (handle, queue) := s.queue.register key object
      ({ queue, host, handles := s.handles.hold entry handle }, .done)
  | .refer entry key value =>
    match s.host.take? value with
    | none => (s, .noSuchSlot)
    | some (object, host) =>
      ({ s with host, handles := s.handles.hold entry ⟨key, object⟩ }, .done)
  | .copy entry source =>
    match s.handles.get? source with
    | none => (s, .noSuchEntry)
    | some handle => ({ s with handles := s.handles.hold entry handle }, .done)
  | .forget entry =>
    ({ s with handles := s.handles.release entry }, .flag (s.handles.get? entry).isSome)
  | .read entry keep =>
    match s.handles.get? entry with
    | none => (s, .noSuchEntry)
    | some handle => s.finding keep (if s.isReclaimed handle then none else some handle.referent)
  | .describe => (s, .name s.queue.describe)

end QueueSession
end ResultCache
