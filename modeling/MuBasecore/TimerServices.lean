import MuBasecore.EventServices
import MuBasecore.Word64

/-!
Timers. The timer database is edited under the timer lock, at the highest level that
a notification can have; nothing is dispatched there, so that each service is one
step. The functions are those of the source without the locks.
-/

namespace MuBasecore.TimerServices

open EfiTypes Word64 EventServices

/-- `EFI_TIMER_DELAY`. -/
def timerCancel : Nat := 0

def timerPeriodic : Nat := 1

def timerRelative : Nat := 2

/-- `CoreSignalEvent` at a level at which nothing is dispatched. -/
def signalEvent (s : EventState) (event : Nat) : EventState :=
  if isEvent s event = false ∨ (s.events event).signalCount ≠ 0 then s
  else
    let counted := s.setEvent event fun e => { e with signalCount := 1 }
    if (s.events event).type.has evtNotifySignal = false then counted
    else if (s.events event).inEventGroup then notifyGroup counted (s.events event).eventGroup
    else coreNotifyEvent counted event

def triggerTime (s : EventState) (event : Nat) : Nat := (s.events event).timer.triggerTime

def period (s : EventState) (event : Nat) : Nat := (s.events event).timer.period

def setTriggerTime (s : EventState) (event time : Nat) : EventState :=
  s.setEvent event fun e => { e with timer := { e.timer with triggerTime := time } }

def coreInsertEventTimer (s : EventState) (event : Nat) : EventState :=
  { s with
    timerList := s.timerList.orderedInsert
      (fun a b => triggerTime s a < triggerTime s b) event }.setEvent event
    fun e => { e with timer := { e.timer with link := true } }

/-- `RemoveEntryList` of the timer link, which is then null. -/
def removeTimer (s : EventState) (event : Nat) : EventState :=
  { s with timerList := s.timerList.erase event }.setEvent event
    fun e => { e with timer := { e.timer with link := false } }

/-- The body of the loop of `CoreCheckTimers` for an expired timer. -/
def expireTimer (s : EventState) (event systemTime : Nat) : EventState :=
  let signalled := signalEvent (removeTimer s event) event
  if period signalled event = 0 then signalled
  else
    let next := add64 (triggerTime signalled event) (period signalled event)
    if next ≤ systemTime then
      coreInsertEventTimer
        (signalEvent (setTriggerTime signalled event systemTime) s.checkTimerEvent) event
    else coreInsertEventTimer (setTriggerTime signalled event next) event

/-- The loop of `CoreCheckTimers`, with the timers it signals. -/
def checkTimersLoop : Nat → EventState → Nat → Option (EventState × List Nat)
  | 0, _, _ => none
  | fuel + 1, s, systemTime =>
    match s.timerList with
    | [] => some (s, [])
    | event :: _ =>
      if systemTime < triggerTime s event then some (s, [])
      else
        (checkTimersLoop fuel (expireTimer s event systemTime) systemTime).map
          fun (s', signalled) => (s', event :: signalled)

/-- Where the loop is after the given number of rounds, or at its end if it makes fewer. -/
def checkTimersRounds : Nat → EventState → Nat → EventState × List Nat
  | 0, s, _ => (s, [])
  | rounds + 1, s, systemTime =>
    match s.timerList with
    | [] => (s, [])
    | event :: _ =>
      if systemTime < triggerTime s event then (s, [])
      else
        let rest := checkTimersRounds rounds (expireTimer s event systemTime) systemTime
        (rest.1, event :: rest.2)

/-- `CoreCheckTimers`; it may go on for ever, `none` says that the fuel was not enough. -/
def coreCheckTimers (fuel : Nat) (s : EventState) : Option (EventState × List Nat) :=
  checkTimersLoop fuel s s.systemTime

def coreTimerTick (s : EventState) (duration : Nat) : EventState :=
  let ticked := { s with systemTime := add64 s.systemTime duration }
  match s.timerList with
  | [] => ticked
  | event :: _ =>
    if triggerTime s event ≤ ticked.systemTime then signalEvent ticked s.checkTimerEvent
    else ticked

/-- The delay that is armed; `timerPeriod` is what `gTimer->GetTimerPeriod` gives. -/
def effectiveDelay (type delay timerPeriod : Nat) : Nat :=
  if type = timerPeriodic ∧ delay = 0 then timerPeriod else delay

/-- The tests of `CoreSetTimer` on its arguments. -/
def canSetTimer (s : EventState) (event type : Nat) : Bool :=
  isEvent s event && decide (type ≤ timerRelative) && (s.events event).type.has evtTimer

def armTimer (s : EventState) (event type delay : Nat) : EventState :=
  (cancelTimer s event).setEvent event fun e =>
    { e with
      timer := { e.timer with
        period := if type = timerPeriodic then delay else 0
        triggerTime := add64 s.systemTime delay } }

/-- `CoreSetTimer` behind its tests. -/
def setTimer (s : EventState) (event type delay : Nat) : EventState :=
  if type = timerCancel then cancelTimer s event
  else if delay = 0 then
    signalEvent (coreInsertEventTimer (armTimer s event type delay) event) s.checkTimerEvent
  else coreInsertEventTimer (armTimer s event type delay) event

def coreSetTimer (s : EventState) (event type delay timerPeriod : Nat) : EventState :=
  if canSetTimer s event type then
    { setTimer s event type (effectiveDelay type delay timerPeriod) with status := .success }
  else { s with status := .invalidParameter }

def closeTimer (s : EventState) (event : Nat) : EventState :=
  if (s.events event).type.has evtTimer then cancelTimer s event else s

def coreCloseEvent (s : EventState) (event : Nat) : EventState :=
  if isEvent s event then
    { (unlinkEvent (closeTimer s event) event).setEvent event
        fun e => { e with signature := false } with
      status := .success }
  else { s with status := .invalidParameter }

/-- `CoreInitializeTimer`: the event that has `CoreCheckTimers` run. -/
def coreInitializeTimer (memory : Nat) : EventState :=
  { allocateEvent {} memory (newEvent evtNotifySignal (tplHighLevel - 1) true none) with
    eventSignalQueue := [memory]
    checkTimerEvent := memory }

inductive TimerCall
  | createEvent (event : Nat) (type : EventType) (notifyTpl : Nat) (notifyFunction : Bool)
      (eventGroup : Option Guid)
  | setTimer (event type delay timerPeriod : Nat)
  | timerTick (duration : Nat)
  | checkTimers (fuel : Nat)
  | closeEvent (event : Nat)

/-- A call, with the timers that `CoreCheckTimers` signals. -/
def timerCall (s : EventState) : TimerCall → Option (EventState × List Nat)
  | .createEvent event type notifyTpl notifyFunction eventGroup =>
    if event = 0 ∨ (s.events event).signature then none
    else some (allocateEvent s event (newEvent type notifyTpl notifyFunction eventGroup), [])
  | .setTimer event type delay timerPeriod => some (coreSetTimer s event type delay timerPeriod, [])
  | .timerTick duration => some (coreTimerTick s duration, [])
  | .checkTimers fuel => coreCheckTimers fuel s
  | .closeEvent event => some (coreCloseEvent s event, [])

/-- When a timer was armed and with what delay. Periodic timers are armed again when they
expire: `order` counts these too. -/
structure Arming where
  order : Nat
  time : Nat
  delay : Nat
  deriving DecidableEq, Repr

structure History where
  armings : Nat → Option Arming := fun _ => none
  count : Nat := 0

def History.arm (h : History) (event time delay : Nat) : History :=
  { armings := Function.update h.armings event (some ⟨h.count, time, delay⟩)
    count := h.count + 1 }

def History.disarm (h : History) (event : Nat) : History :=
  { h with armings := Function.update h.armings event none }

def History.expire (h : History) (periodic : Bool) (event : Nat) : History :=
  match h.armings event with
  | some a => if periodic then (h.disarm event).arm event a.time a.delay else h.disarm event
  | none => h

def History.record (h : History) (s : EventState) : TimerCall → List Nat → History
  | .createEvent _ _ _ _ _, _ => h
  | .setTimer event type delay timerPeriod, _ =>
    if canSetTimer s event type then
      if type = timerCancel then h.disarm event
      else h.arm event s.systemTime (effectiveDelay type delay timerPeriod)
    else h
  | .timerTick _, _ => h
  | .checkTimers _, signalled =>
    signalled.foldl (fun h event => h.expire (period s event != 0) event) h
  | .closeEvent event, _ => if isEvent s event then h.disarm event else h

structure Timers where
  state : EventState
  history : History

/-- Runs of timer calls that meet `condition`, with their history. -/
inductive Run (condition : EventState → TimerCall → Prop) (memory : Nat) : Timers → Prop
  | start : Run condition memory ⟨coreInitializeTimer memory, {}⟩
  | call {t : Timers} {s' : EventState} {signalled : List Nat} (c : TimerCall)
      (h : Run condition memory t) (hc : condition t.state c)
      (hcall : timerCall t.state c = some (s', signalled)) :
      Run condition memory ⟨s', t.history.record t.state c signalled⟩

end MuBasecore.TimerServices
