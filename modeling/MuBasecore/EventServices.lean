import MuBasecore.CallStack
import MuBasecore.EfiTypes

/-!
Events and task priority levels. A service runs in sections between the points at
which it gives up the event lock; there `CoreRestoreTpl` may dispatch notification
functions, and these may call any service again. What is left to do of each call
is a frame on a stack. Code outside the event services, notification functions
included, is the frame `user`: it may call any service at any time.

Interrupts are not part of the model. A `none` stands for a failed assertion.
-/

namespace MuBasecore.EventServices

open EfiTypes CallStack

def tplApplication : Nat := 4

def tplHighLevel : Nat := 31

/-- `VALID_TPL`. -/
def validTpl (tpl : Nat) : Bool := decide (tpl ≤ tplHighLevel)

abbrev EventType := BitVec 32

def evtTimer : EventType := 0x80000000
def evtRuntime : EventType := 0x40000000
def evtNotifyWait : EventType := 0x100
def evtNotifySignal : EventType := 0x200
def evtSignalExitBootServices : EventType := 0x201
def evtSignalVirtualAddressChange : EventType := 0x60000202

/-- `mEventTable`: the valid types. -/
def eventTable : List EventType :=
  [evtTimer ||| evtNotifySignal, evtTimer, evtNotifyWait, evtNotifySignal,
    evtSignalExitBootServices, evtSignalVirtualAddressChange, 0, evtTimer ||| evtNotifyWait]

def EventType.has (type flag : EventType) : Bool := type &&& flag != 0

def eventExitBootServicesGuid : Guid := 0x27ABF055B1B84C268048748F37BAA2DF

def eventVirtualAddressChangeGuid : Guid := 0x13FA7698C83149C787EA8F43FCC25196

/-- `TIMER_EVENT_INFO`; a link is known by whether it is null. -/
structure TimerEventInfo where
  link : Bool := false
  triggerTime : Nat := 0
  period : Nat := 0
  deriving DecidableEq, Repr

/-- `IEVENT`. The links say whether their `ForwardLink` is set, `signature` whether it
is `EVENT_SIGNATURE`, `notifyFunction` whether there is one. -/
structure IEvent where
  signature : Bool := false
  type : EventType := 0
  signalCount : Nat := 0
  signalLink : Bool := false
  notifyTpl : Nat := 0
  notifyFunction : Bool := false
  eventGroup : Guid := 0
  notifyLink : Bool := false
  inEventGroup : Bool := false
  runtimeLink : Bool := false
  timer : TimerEventInfo := {}
  deriving DecidableEq, Repr

/-- `EFI_LOCK`. -/
structure EfiLock where
  tpl : Nat
  ownerTpl : Nat := 0
  acquired : Bool := false
  deriving DecidableEq, Repr

/-- The globals of the event services. An event is the address of its record; the
memory of a closed one keeps its contents until it is allocated again. `status` is
what the service that returned last gave back. -/
structure EventState where
  events : Nat → IEvent := fun _ => {}
  currentTpl : Nat := tplApplication
  eventQueueLock : EfiLock := { tpl := tplHighLevel }
  eventQueue : Nat → List Nat := fun _ => []
  eventPending : BitVec 64 := 0
  eventSignalQueue : List Nat := []
  runtimeEvents : List Nat := []
  timerList : List Nat := []
  timerLock : EfiLock := { tpl := tplHighLevel - 1 }
  checkTimerEvent : Nat := 0
  systemTime : Nat := 0
  status : EfiStatus := .success

def EventState.setEvent (s : EventState) (event : Nat) (f : IEvent → IEvent) : EventState :=
  { s with events := Function.update s.events event (f (s.events event)) }

variable {s : EventState}

theorem setEvent_self (event : Nat) (f : IEvent → IEvent) :
    (s.setEvent event f).events event = f (s.events event) :=
  Function.update_self _ _ _

theorem setEvent_of_ne {event x : Nat} (f : IEvent → IEvent) (hx : x ≠ event) :
    (s.setEvent event f).events x = s.events x :=
  Function.update_of_ne hx _ _

inductive Frame
  /-- Code outside the event services, entered at the level. -/
  | user (entryTpl : Nat)
  /-- `CoreRestoreTpl`, at the head of its loop. -/
  | restoreTpl (newTpl : Nat)
  /-- `CoreDispatchEventNotifies`, at the head of its loop with the lock acquired. -/
  | dispatch (priority : Nat)
  /-- `CoreDispatchEventNotifies`, about to call the notification function. -/
  | notify (event : Nat)
  /-- `CoreDispatchEventNotifies`, behind that call. -/
  | dispatchNext (priority : Nat)
  /-- `CoreNotifySignalList` for the group of the event. -/
  | notifySignalList (event : Nat)
  /-- `CoreSignalEvent`, behind `CoreNotifySignalList`. -/
  | signalTail
  /-- `CoreCheckEvent`, at its second look at the signal count. -/
  | checkSignal (event : Nat)
  /-- `CoreCloseEvent`, behind the cancelling of the timer. -/
  | closeEvent (event : Nat)
  /-- `CoreCloseEvent`, behind the unlinking. -/
  | freeEvent (event : Nat)
  | returns (status : EfiStatus)
  deriving DecidableEq, Repr

abbrev Next := Option (EventState × List Frame)

def coreRaiseTpl (s : EventState) (newTpl : Nat) : Option EventState :=
  if newTpl < s.currentTpl ∨ validTpl newTpl = false then none
  else some { s with currentTpl := newTpl }

/-- `CoreRestoreTpl` up to its loop; `frames` come after it. -/
def coreRestoreTpl (s : EventState) (newTpl : Nat) (frames : List Frame) : Next :=
  if s.currentTpl < newTpl ∨ validTpl newTpl = false then none
  else if tplHighLevel ≤ s.currentTpl ∧ newTpl < tplHighLevel then
    some ({ s with currentTpl := tplHighLevel }, .restoreTpl newTpl :: frames)
  else some (s, .restoreTpl newTpl :: frames)

def coreAcquireEventLock (s : EventState) : Option EventState :=
  if s.eventQueueLock.acquired then none
  else (coreRaiseTpl s s.eventQueueLock.tpl).map fun raised =>
    { raised with
      eventQueueLock := { s.eventQueueLock with ownerTpl := s.currentTpl, acquired := true } }

def coreReleaseEventLock (s : EventState) (frames : List Frame) : Next :=
  if s.eventQueueLock.acquired then
    coreRestoreTpl { s with eventQueueLock := { s.eventQueueLock with acquired := false } }
      s.eventQueueLock.ownerTpl frames
  else none

def locked (s : EventState) (body : EventState → EventState) (frames : List Frame) : Next :=
  (coreAcquireEventLock s).bind fun acquired => coreReleaseEventLock (body acquired) frames

/-- `(UINTN)(1 << Tpl)`: the shift is one of `int`. -/
def pendingBit (tpl : Nat) : BitVec 64 := ((1 : BitVec 32) <<< tpl).signExtend 64

/-- `HighBitSet64` of a mask that is not zero. -/
def highBitSet64 (mask : BitVec 64) : Nat := mask.toNat.log2

/-- `RemoveEntryList` of the notify link: it leaves whatever queue it is on. -/
def removeNotifyLink (s : EventState) (event : Nat) : EventState :=
  { s with eventQueue := fun tpl => (s.eventQueue tpl).erase event }

/-- `InsertTailList` on a notification queue. -/
def insertTail (s : EventState) (tpl event : Nat) : EventState :=
  { s with eventQueue := Function.update s.eventQueue tpl (s.eventQueue tpl ++ [event]) }

def coreNotifyEvent (s : EventState) (event : Nat) : EventState :=
  let removed := if (s.events event).notifyLink then removeNotifyLink s event else s
  let tpl := (s.events event).notifyTpl
  let queued := (insertTail removed tpl event).setEvent event fun e => { e with notifyLink := true }
  { queued with eventPending := s.eventPending ||| pendingBit tpl }

/-- The loop of `CoreNotifySignalList`. -/
def notifyGroup (s : EventState) (group : Guid) : EventState :=
  (s.eventSignalQueue.filter fun e => (s.events e).eventGroup == group).foldl coreNotifyEvent s

def takeEvent (s : EventState) (event : Nat) : EventState :=
  (removeNotifyLink s event).setEvent event fun e =>
    { e with
      notifyLink := false
      signalCount := if e.type.has evtNotifySignal then 0 else e.signalCount }

/-- `CoreDispatchEventNotifies` up to the head of its loop. -/
def coreDispatchEventNotifies (s : EventState) (priority : Nat) (frames : List Frame) : Next :=
  (coreAcquireEventLock s).bind fun acquired =>
    if acquired.eventQueueLock.ownerTpl = priority then
      some (acquired, .dispatch priority :: frames)
    else none

/-- Initial contents of the record that `CoreCreateEventInternal` allocates. -/
def newEvent (type : EventType) (notifyTpl : Nat) (notifyFunction : Bool)
    (eventGroup : Option Guid) : IEvent :=
  { signature := true
    type := type
    notifyTpl := notifyTpl
    notifyFunction := notifyFunction
    eventGroup := eventGroup.getD 0
    inEventGroup := eventGroup.isSome
    runtimeLink := type.has evtRuntime
    signalLink := type.has evtNotifySignal }

def convertType (type : EventType) : Option Guid → Option (EventType × Option Guid)
  | some group =>
    if type = evtSignalExitBootServices ∨ type = evtSignalVirtualAddressChange then none
    else if group = eventExitBootServicesGuid then some (evtSignalExitBootServices, some group)
    else if group = eventVirtualAddressChangeGuid then
      some (evtSignalVirtualAddressChange, some group)
    else some (type, some group)
  | none =>
    if type = evtSignalExitBootServices then some (type, some eventExitBootServicesGuid)
    else if type = evtSignalVirtualAddressChange then
      some (type, some eventVirtualAddressChangeGuid)
    else some (type, none)

/-- The level and function an event is created with; `none` if they are not valid. -/
def checkNotify (type : EventType) (notifyTpl : Nat) (notifyFunction : Bool) :
    Option (Nat × Bool) :=
  if type.has (evtNotifyWait ||| evtNotifySignal) then
    if notifyFunction = false ∨ notifyTpl ≤ tplApplication ∨ tplHighLevel ≤ notifyTpl then none
    else some (notifyTpl, notifyFunction)
  else some (0, false)

def allocateEvent (s : EventState) (event : Nat) (record : IEvent) : EventState :=
  { s with
    events := Function.update s.events event record
    runtimeEvents :=
      if record.type.has evtRuntime then s.runtimeEvents ++ [event] else s.runtimeEvents }

/-- `CoreCreateEvent`, `CoreCreateEventEx` and `CoreCreateEventInternal`: with all levels
supported they check the same. `memory` is what the pool gives, a record not in use. -/
def coreCreateEvent (s : EventState) (type : EventType) (notifyTpl : Nat) (notifyFunction : Bool)
    (eventGroup : Option Guid) (memory : Option Nat) : Next :=
  if type ∉ eventTable then some (s, [.returns .invalidParameter])
  else
    match convertType type eventGroup with
    | none => some (s, [.returns .invalidParameter])
    | some (type, eventGroup) =>
      match checkNotify type notifyTpl notifyFunction, memory with
      | none, _ => some (s, [.returns .invalidParameter])
      | some _, none => some (s, [.returns .outOfResources])
      | some (notifyTpl, notifyFunction), some event =>
        if event = 0 ∨ (s.events event).signature then none
        else
          let created :=
            allocateEvent s event (newEvent type notifyTpl notifyFunction eventGroup)
          if type.has evtNotifySignal then
            locked created (fun s => { s with eventSignalQueue := event :: s.eventSignalQueue })
              [.returns .success]
          else some (created, [.returns .success])

def isEvent (s : EventState) (event : Nat) : Bool :=
  event != 0 && (s.events event).signature

def coreSignalEvent (s : EventState) (event : Nat) : Next :=
  if isEvent s event = false then some (s, [.returns .invalidParameter])
  else
    let e := s.events event
    let count := fun s : EventState => s.setEvent event fun e => { e with signalCount := 1 }
    if e.signalCount ≠ 0 then locked s id [.returns .success]
    else if e.type.has evtNotifySignal = false then locked s count [.returns .success]
    else if e.inEventGroup then locked s count [.notifySignalList event, .signalTail]
    else locked s (fun s => coreNotifyEvent (count s) event) [.returns .success]

def coreCheckEvent (s : EventState) (event : Nat) : Next :=
  if isEvent s event = false ∨ (s.events event).type.has evtNotifySignal then
    some (s, [.returns .invalidParameter])
  else if (s.events event).signalCount = 0 ∧ (s.events event).type.has evtNotifyWait then
    locked s (fun s => coreNotifyEvent s event) [.checkSignal event]
  else some (s, [.checkSignal event])

/-- The part of `CoreSetTimer` that takes the timer out of the database. -/
def cancelTimer (s : EventState) (event : Nat) : EventState :=
  let unlinked :=
    if (s.events event).timer.link then { s with timerList := s.timerList.erase event } else s
  unlinked.setEvent event fun e => { e with timer := {} }

def coreAcquireTimerLock (s : EventState) : Option EventState :=
  if s.timerLock.acquired then none
  else (coreRaiseTpl s s.timerLock.tpl).map fun raised =>
    { raised with timerLock := { s.timerLock with ownerTpl := s.currentTpl, acquired := true } }

def coreReleaseTimerLock (s : EventState) (frames : List Frame) : Next :=
  if s.timerLock.acquired then
    coreRestoreTpl { s with timerLock := { s.timerLock with acquired := false } }
      s.timerLock.ownerTpl frames
  else none

/-- `CoreCloseEvent` up to the cancelling of the timer. -/
def coreCloseEvent (s : EventState) (event : Nat) : Next :=
  if isEvent s event = false then some (s, [.returns .invalidParameter])
  else if (s.events event).type.has evtTimer then
    (coreAcquireTimerLock s).bind fun acquired =>
      coreReleaseTimerLock (cancelTimer acquired event) [.closeEvent event]
  else some (s, [.closeEvent event])

/-- The unlinking in `CoreCloseEvent`: the links themselves stay as they are. -/
def unlinkEvent (s : EventState) (event : Nat) : EventState :=
  let e := s.events event
  { s with
    runtimeEvents := if e.runtimeLink then s.runtimeEvents.erase event else s.runtimeEvents
    eventQueue :=
      if e.notifyLink then (removeNotifyLink s event).eventQueue else s.eventQueue
    eventSignalQueue :=
      if e.signalLink then s.eventSignalQueue.erase event else s.eventSignalQueue }

inductive Call
  | createEvent (type : EventType) (notifyTpl : Nat) (notifyFunction : Bool)
      (eventGroup : Option Guid) (memory : Option Nat)
  | signalEvent (event : Nat)
  | checkEvent (event : Nat)
  | closeEvent (event : Nat)
  | raiseTpl (newTpl : Nat)
  | restoreTpl (newTpl : Nat)

def call (s : EventState) : Call → Next
  | .createEvent type notifyTpl notifyFunction eventGroup memory =>
    coreCreateEvent s type notifyTpl notifyFunction eventGroup memory
  | .signalEvent event => coreSignalEvent s event
  | .checkEvent event => coreCheckEvent s event
  | .closeEvent event => coreCloseEvent s event
  | .raiseTpl newTpl => (coreRaiseTpl s newTpl).map fun raised => (raised, [])
  | .restoreTpl newTpl => coreRestoreTpl s newTpl []

def advance (s : EventState) : Frame → Next
  | .user _ => none
  | .restoreTpl newTpl =>
    let pendingTpl := highBitSet64 s.eventPending
    if s.eventPending ≠ 0 ∧ newTpl < pendingTpl then
      coreDispatchEventNotifies { s with currentTpl := pendingTpl } pendingTpl
        [.restoreTpl newTpl]
    else some ({ s with currentTpl := newTpl }, [])
  | .dispatch priority =>
    match s.eventQueue priority with
    | [] =>
      coreReleaseEventLock
        { s with eventPending := s.eventPending &&& ~~~(pendingBit priority) } []
    | event :: _ =>
      coreReleaseEventLock (takeEvent s event) [.notify event, .dispatchNext priority]
  -- The assertions on the function and the level are not taken as tests here.
  | .notify _ => some (s, [.user s.currentTpl])
  | .dispatchNext priority =>
    (coreAcquireEventLock s).map fun acquired => (acquired, [.dispatch priority])
  | .notifySignalList event =>
    locked s (fun s => notifyGroup s (s.events event).eventGroup) []
  | .signalTail => locked s id [.returns .success]
  | .checkSignal event =>
    if (s.events event).signalCount = 0 then some (s, [.returns .notReady])
    else
      locked s (fun s => s.setEvent event fun e => { e with signalCount := 0 })
        [.returns .success]
  | .closeEvent event => locked s (fun s => unlinkEvent s event) [.freeEvent event]
  | .freeEvent event =>
    some (s.setEvent event fun e => { e with signature := false }, [.returns .success])
  | .returns status => some ({ s with status := status }, [])

/-- What may happen next. With `restores`, code outside gives the level back as it found
it; without, it may return at any level. -/
inductive Resume (restores : Prop) : EventState → Frame → EventState → List Frame → Prop
  | advance {s s' : EventState} {f : Frame} {fs : List Frame} (h : advance s f = some (s', fs)) :
      Resume restores s f s' fs
  | call {s s' : EventState} {fs : List Frame} (entryTpl : Nat) (c : Call)
      (h : call s c = some (s', fs)) :
      Resume restores s (.user entryTpl) s' (fs ++ [.user entryTpl])
  | exit {s : EventState} (entryTpl : Nat) (h : restores → s.currentTpl = entryTpl) :
      Resume restores s (.user entryTpl) s []

inductive Choice
  | advance
  | call (c : Call)
  | exit

def next : Config EventState Frame → Choice → Option (Config EventState Frame)
  | ⟨s, f :: rest⟩, .advance => (advance s f).map fun (s', fs) => ⟨s', fs ++ rest⟩
  | ⟨s, .user t :: rest⟩, .call c =>
    (call s c).map fun (s', fs) => ⟨s', (fs ++ [.user t]) ++ rest⟩
  | ⟨s, .user t :: rest⟩, .exit => if s.currentTpl = t then some ⟨s, rest⟩ else none
  | _, _ => none

def run (choices : List Choice) (c : Config EventState Frame) : Option (Config EventState Frame) :=
  choices.foldlM next c

variable {c c' : Config EventState Frame}

theorem next_step {choice : Choice} (restores : Prop)
    (h : next c choice = some c') : Step (Resume restores) c c' := by
  unfold next at h
  split at h
  · obtain ⟨⟨s', fs⟩, hadvance, rfl⟩ := Option.map_eq_some_iff.1 h
    exact Step.step _ (Resume.advance hadvance)
  · obtain ⟨⟨s', fs⟩, hcall, rfl⟩ := Option.map_eq_some_iff.1 h
    exact Step.step _ (Resume.call _ _ hcall)
  · split at h
    next htpl =>
      obtain ⟨⟩ := h
      exact Step.step _ (Resume.exit _ fun _ => htpl)
    · exact nomatch h
  · exact nomatch h

theorem run_reaches (restores : Prop) (choices : List Choice)
    (h : run choices c = some c') : Reaches (Resume restores) c c' := by
  induction choices generalizing c with
  | nil =>
    obtain ⟨⟩ := h
    exact Relation.ReflTransGen.refl
  | cons choice choices ih =>
    obtain ⟨c₁, hnext, hrun⟩ := Option.bind_eq_some_iff.1 h
    exact Relation.ReflTransGen.head (next_step restores hnext) (ih hrun)

def initial : Config EventState Frame :=
  ⟨{}, [.user tplApplication]⟩

/-- What a run from the initial state gets to. -/
def Reachable (c : Config EventState Frame) : Prop :=
  Reaches (Resume False) initial c

end MuBasecore.EventServices
