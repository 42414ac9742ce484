import MuBasecore.TimerServices

/-!
Runs of the timer services: the database holds the armed timers, sorted by their
time and then by the order in which they were armed. None expires before its delay
is over, unless the sum of the time and the delay did not fit into 64 bits.
-/

namespace MuBasecore.TimerRuns

open EfiTypes Word64 EventServices TimerServices Function EventState List Option

structure SameTimers (s s' : EventState) : Prop where
  list : s'.timerList = s.timerList
  timer : ∀ e, (s'.events e).timer = (s.events e).timer
  live : ∀ e, (s'.events e).signature = (s.events e).signature
  type : ∀ e, (s'.events e).type = (s.events e).type
  time : s'.systemTime = s.systemTime
  check : s'.checkTimerEvent = s.checkTimerEvent

variable {f : IEvent → IEvent} {a : Arming} {l : List Nat}

variable {e event : Nat}

section Signal

variable {s s' s'' : EventState}

theorem SameTimers.refl (s : EventState) : SameTimers s s :=
  ⟨rfl, fun _ => rfl, fun _ => rfl, fun _ => rfl, rfl, rfl⟩

theorem SameTimers.trans (h : SameTimers s s') (h' : SameTimers s' s'') : SameTimers s s'' :=
  ⟨h'.list.trans h.list, fun e => (h'.timer e).trans (h.timer e),
    fun e => (h'.live e).trans (h.live e), fun e => (h'.type e).trans (h.type e),
    h'.time.trans h.time, h'.check.trans h.check⟩

theorem sameTimers_set
    (htimer : ∀ e, (f e).timer = e.timer) (hlive : ∀ e, (f e).signature = e.signature)
    (htype : ∀ e, (f e).type = e.type) : SameTimers s (s.setEvent event f) := by
  have hcase : ∀ e, (s.setEvent event f).events e = s.events e ∨
      (s.setEvent event f).events e = f (s.events e) := by
    intro e
    rcases eq_or_ne e event with rfl | hne
    · exact .inr (setEvent_self e f)
    · exact .inl (setEvent_of_ne f hne)
  refine ⟨rfl, ?_, ?_, ?_, rfl, rfl⟩
  · intro e
    rcases hcase e with h | h
    · rw [h]
    · rw [h, htimer]
  · intro e
    rcases hcase e with h | h
    · rw [h]
    · rw [h, hlive]
  · intro e
    rcases hcase e with h | h
    · rw [h]
    · rw [h, htype]

theorem sameTimers_notify : SameTimers s (coreNotifyEvent s event) := by
  have hset : SameTimers s (s.setEvent event fun e => { e with notifyLink := true }) :=
    sameTimers_set (fun _ => rfl) (fun _ => rfl) fun _ => rfl
  unfold coreNotifyEvent
  split
  · exact ⟨rfl, hset.timer, hset.live, hset.type, rfl, rfl⟩
  · exact ⟨rfl, hset.timer, hset.live, hset.type, rfl, rfl⟩

theorem sameTimers_notifyAll (l : List Nat) (s : EventState) :
    SameTimers s (l.foldl coreNotifyEvent s) := by
  induction l generalizing s with
  | nil => exact SameTimers.refl s
  | cons e l ih => exact (sameTimers_notify).trans (ih _)

theorem sameTimers_signal (s : EventState) (event : Nat) : SameTimers s (signalEvent s event) := by
  have hcnt : SameTimers s (s.setEvent event fun e => { e with signalCount := 1 }) :=
    sameTimers_set (fun _ => rfl) (fun _ => rfl) fun _ => rfl
  unfold signalEvent
  split
  · exact SameTimers.refl s
  simp only
  split
  · exact hcnt
  split
  · exact hcnt.trans (sameTimers_notifyAll _ _)
  · exact hcnt.trans (sameTimers_notify)

end Signal

theorem pairwise_orderedInsert {α : Type} {r R : α → α → Prop} [DecidableRel r] {a : α} {l : List α}
    (htrans : ∀ b c, R a b → R b c → R a c)
    (hins : ∀ b ∈ l, if r a b then R a b else R b a) (hl : l.Pairwise R) :
    (l.orderedInsert r a).Pairwise R := by
  induction l with
  | nil => exact pairwise_singleton R a
  | cons b l ih =>
    have hb := hins b mem_cons_self
    obtain ⟨hfst, hrest⟩ := pairwise_cons.1 hl
    rw [orderedInsert_cons]
    split
    next hr =>
      rw [if_pos hr] at hb
      refine pairwise_cons.2 ⟨?_, hl⟩
      intro c hc
      rcases mem_cons.1 hc with rfl | hc
      · exact hb
      · exact htrans b c hb (hfst c hc)
    next hr =>
      rw [if_neg hr] at hb
      refine pairwise_cons.2 ⟨?_, ih ?_ hrest⟩
      · intro c hc
        rcases (mem_orderedInsert r).1 hc with rfl | hc
        · exact hb
        · exact hfst c hc
      · exact fun c hc => hins c (mem_cons_of_mem b hc)

def order (h : History) (e : Nat) : Nat := ((h.armings e).map Arming.order).getD 0

def Before (s : EventState) (h : History) (a b : Nat) : Prop :=
  triggerTime s a < triggerTime s b ∨ triggerTime s a = triggerTime s b ∧ order h a < order h b

structure TimerInv (s : EventState) (h : History) : Prop where
  nodup : s.timerList.Nodup
  armed : ∀ e, e ∈ s.timerList ↔ (h.armings e).isSome = true
  sorted : s.timerList.Pairwise (Before s h)
  link : ∀ e, (s.events e).timer.link = true ↔ e ∈ s.timerList
  timers : ∀ e ∈ s.timerList, (s.events e).signature = true ∧ (s.events e).type.has evtTimer = true
  fresh : ∀ e a, h.armings e = some a → a.order < h.count

def Due (s : EventState) (h : History) : Prop :=
  ∀ e a, h.armings e = some a → a.time + a.delay ≤ triggerTime s e

structure Timed (s : EventState) (h : History) : Prop where
  inv : TimerInv s h
  due : Due s h

variable {time delay x type : Nat}

variable {s s' : EventState} {h : History}

theorem Before.trans {a b c : Nat} (hab : Before s h a b) (hbc : Before s h b c) :
    Before s h a c := by
  unfold Before at *
  omega

theorem TimerInv.congr (hinv : TimerInv s h) (hsame : SameTimers s s') : TimerInv s' h := by
  have htrig : triggerTime s' = triggerTime s := by
    funext e
    rw [triggerTime, hsame.timer, triggerTime]
  refine ⟨?_, ?_, ?_, ?_, ?_, hinv.fresh⟩
  · rw [hsame.list]
    exact hinv.nodup
  · rw [hsame.list]
    exact hinv.armed
  · rw [hsame.list]
    refine hinv.sorted.imp ?_
    intro a b hab
    rw [Before, htrig]
    exact hab
  · intro e
    rw [hsame.list, hsame.timer]
    exact hinv.link e
  · intro e he
    rw [hsame.list] at he
    rw [hsame.live, hsame.type]
    exact hinv.timers e he

theorem Timed.congr (hinv : Timed s h) (hsame : SameTimers s s') : Timed s' h := by
  refine ⟨hinv.inv.congr hsame, ?_⟩
  intro e a ha
  rw [triggerTime, hsame.timer]
  exact hinv.due e a ha

structure Without (event : Nat) (s s' : EventState) : Prop where
  list : s'.timerList = s.timerList.erase event
  timer : ∀ e, e ≠ event → (s'.events e).timer = (s.events e).timer
  live : ∀ e, e ≠ event → (s'.events e).signature = (s.events e).signature
  type : ∀ e, e ≠ event → (s'.events e).type = (s.events e).type
  link : (s'.events event).timer.link = false

theorem disarm_of_ne (hx : x ≠ event) : (h.disarm event).armings x = h.armings x :=
  update_of_ne hx _ _

theorem disarm_self : (h.disarm event).armings event = none :=
  update_self _ _ _

theorem arm_of_ne (hx : x ≠ event) : (h.arm event time delay).armings x = h.armings x :=
  update_of_ne hx _ _

theorem arm_self : (h.arm event time delay).armings event = some ⟨h.count, time, delay⟩ :=
  update_self _ _ _

theorem TimerInv.without (hinv : TimerInv s h) (hw : Without event s s') :
    TimerInv s' (h.disarm event) := by
  have hmem : ∀ e, e ∈ s'.timerList ↔ e ≠ event ∧ e ∈ s.timerList := by
    intro e
    rw [hw.list, hinv.nodup.mem_erase_iff]
  refine ⟨?_, ?_, ?_, ?_, ?_, ?_⟩
  · rw [hw.list]
    exact hinv.nodup.erase event
  · intro e
    rw [hmem]
    rcases eq_or_ne e event with rfl | hne
    · simp [disarm_self]
    · rw [disarm_of_ne hne, ← hinv.armed e]
      exact ⟨fun he => he.2, fun he => ⟨hne, he⟩⟩
  · rw [hw.list]
    refine List.Pairwise.imp_of_mem ?_ (hinv.sorted.sublist erase_sublist)
    intro a b ha hb hab
    have ha' := (hinv.nodup.mem_erase_iff.1 ha).1
    have hb' := (hinv.nodup.mem_erase_iff.1 hb).1
    unfold Before triggerTime order at *
    rw [hw.timer a ha', hw.timer b hb', disarm_of_ne ha', disarm_of_ne hb']
    exact hab
  · intro e
    rw [hmem]
    rcases eq_or_ne e event with rfl | hne
    · simp [hw.link]
    · rw [hw.timer e hne, hinv.link e]
      exact ⟨fun he => ⟨hne, he⟩, fun he => he.2⟩
  · intro e he
    obtain ⟨hne, he⟩ := (hmem e).1 he
    rw [hw.live e hne, hw.type e hne]
    exact hinv.timers e he
  · intro e a ha
    rcases eq_or_ne e event with rfl | hne
    · rw [disarm_self] at ha
      exact nomatch ha
    · rw [disarm_of_ne hne] at ha
      exact hinv.fresh e a ha

theorem Timed.without (hinv : Timed s h) (hw : Without event s s') : Timed s' (h.disarm event) := by
  refine ⟨hinv.inv.without hw, ?_⟩
  intro e a ha
  rcases eq_or_ne e event with rfl | hne
  · rw [disarm_self] at ha
    exact nomatch ha
  · rw [disarm_of_ne hne] at ha
    rw [triggerTime, hw.timer e hne]
    exact hinv.due e a ha

theorem TimerInv.insert (hinv : TimerInv s h) (hfree : event ∉ s.timerList)
    (hlive : (s.events event).signature = true)
    (htype : (s.events event).type.has evtTimer = true) (time delay : Nat) :
    TimerInv (coreInsertEventTimer s event) (h.arm event time delay) := by
  have htrig : ∀ e, triggerTime (coreInsertEventTimer s event) e = triggerTime s e := by
    intro e
    rcases eq_or_ne e event with rfl | hne
    · simp [triggerTime, coreInsertEventTimer, setEvent]
    · simp [triggerTime, coreInsertEventTimer, setEvent, update_of_ne hne]
  have hoth : ∀ e, e ≠ event → (coreInsertEventTimer s event).events e = s.events e :=
    fun e hne => setEvent_of_ne _ hne
  have hself : (coreInsertEventTimer s event).events event = { s.events event with
      timer := { (s.events event).timer with link := true } } := setEvent_self _ _
  have hmem : ∀ e, e ∈ (coreInsertEventTimer s event).timerList ↔ e = event ∨ e ∈ s.timerList :=
    fun e => mem_orderedInsert _
  have hne : ∀ e ∈ s.timerList, e ≠ event := by
    rintro e he rfl
    exact hfree he
  refine ⟨?_, ?_, ?_, ?_, ?_, ?_⟩
  · have hperm := perm_orderedInsert
      (fun a b => triggerTime s a < triggerTime s b) event s.timerList
    exact hperm.nodup_iff.2 (nodup_cons.2 ⟨hfree, hinv.nodup⟩)
  · intro e
    rw [hmem]
    rcases eq_or_ne e event with rfl | hne
    · simp [arm_self]
    · rw [arm_of_ne hne, ← hinv.armed e]
      exact ⟨fun he => he.resolve_left hne, .inr⟩
  · -- the new timer was armed last, so that it comes after those of its time
    have hsort : s.timerList.Pairwise
        (Before (coreInsertEventTimer s event) (h.arm event time delay)) := by
      refine List.Pairwise.imp_of_mem ?_ hinv.sorted
      intro a b ha hb hab
      unfold Before order at *
      rw [htrig, htrig, arm_of_ne (hne a ha), arm_of_ne (hne b hb)]
      exact hab
    refine pairwise_orderedInsert (fun _ _ => Before.trans) ?_ hsort
    intro b hb
    have hlast : order (h.arm event time delay) b < order (h.arm event time delay) event := by
      obtain ⟨a, ha⟩ := isSome_iff_exists.1 ((hinv.armed b).1 hb)
      rw [order, order, arm_of_ne (hne b hb), arm_self, ha]
      exact hinv.fresh b a ha
    unfold Before
    rw [htrig, htrig]
    split
    next hlt =>
      exact .inl hlt
    next hle =>
      rcases lt_or_eq_of_le (Nat.le_of_not_lt hle) with hlt | heq
      · exact .inl hlt
      · exact .inr ⟨heq, hlast⟩
  · intro e
    rw [hmem]
    rcases eq_or_ne e event with rfl | hne
    · simp [hself]
    · rw [hoth e hne, hinv.link e]
      exact ⟨.inr, fun he => he.resolve_left hne⟩
  · intro e he
    rcases (hmem e).1 he with rfl | he
    · rw [hself]
      exact ⟨hlive, htype⟩
    · rw [hoth e (hne e he)]
      exact hinv.timers e he
  · intro e a ha
    change a.order < h.count + 1
    rcases eq_or_ne e event with rfl | hne
    · rw [arm_self] at ha
      obtain ⟨⟩ := ha
      exact Nat.lt_succ_self _
    · rw [arm_of_ne hne] at ha
      exact Nat.lt_succ_of_lt (hinv.fresh e a ha)

theorem Timed.insert (hinv : Timed s h) (hfree : event ∉ s.timerList)
    (hlive : (s.events event).signature = true)
    (htype : (s.events event).type.has evtTimer = true)
    (htime : time + delay ≤ triggerTime s event) :
    Timed (coreInsertEventTimer s event) (h.arm event time delay) := by
  refine ⟨hinv.inv.insert hfree hlive htype time delay, ?_⟩
  intro e a ha
  rcases eq_or_ne e event with rfl | hne
  · rw [arm_self] at ha
    obtain ⟨⟩ := ha
    simpa [triggerTime, coreInsertEventTimer, setEvent] using htime
  · rw [arm_of_ne hne] at ha
    rw [triggerTime, coreInsertEventTimer, setEvent_of_ne _ hne]
    exact hinv.due e a ha

theorem removeTimer_without (s : EventState) (event : Nat) :
    Without event s (removeTimer s event) := by
  have hoth : ∀ e, e ≠ event → (removeTimer s event).events e = s.events e :=
    fun e hne => setEvent_of_ne _ hne
  refine ⟨rfl, ?_, ?_, ?_, ?_⟩
  · intro e hne
    rw [hoth e hne]
  · intro e hne
    rw [hoth e hne]
  · intro e hne
    rw [hoth e hne]
  · simp [removeTimer, setEvent]

theorem setTriggerTime_of_ne (hx : x ≠ event) :
    (setTriggerTime s event time).events x = s.events x :=
  setEvent_of_ne _ hx

theorem triggerTime_set : triggerTime (setTriggerTime s event time) event = time := by
  simp [triggerTime, setTriggerTime, setEvent]

theorem Without.setTriggerTime (hw : Without event s s') (time : Nat) :
    Without event s (setTriggerTime s' event time) := by
  refine ⟨hw.list, ?_, ?_, ?_, ?_⟩
  · intro e hne
    rw [setTriggerTime_of_ne hne, hw.timer e hne]
  · intro e hne
    rw [setTriggerTime_of_ne hne, hw.live e hne]
  · intro e hne
    rw [setTriggerTime_of_ne hne, hw.type e hne]
  · have hlink := hw.link
    simp [TimerServices.setTriggerTime, setEvent, hlink]

theorem Without.same {s'' : EventState} (hw : Without event s s') (hsame : SameTimers s' s'') :
    Without event s s'' := by
  refine ⟨hsame.list.trans hw.list, ?_, ?_, ?_, ?_⟩
  · intro e hne
    rw [hsame.timer, hw.timer e hne]
  · intro e hne
    rw [hsame.live, hw.live e hne]
  · intro e hne
    rw [hsame.type, hw.type e hne]
  · rw [hsame.timer]
    exact hw.link

section Expire

variable {event now : Nat}

theorem expire_eq (periodic : Bool) (ha : h.armings event = some a) :
    h.expire periodic event =
      if periodic then (h.disarm event).arm event a.time a.delay else h.disarm event := by
  simp only [History.expire, ha]

theorem armings_expire {periodic : Bool} {e : Nat}
    (ha : (h.expire periodic event).armings e = some a) :
    ∃ b, h.armings e = some b ∧ b.time = a.time ∧ b.delay = a.delay := by
  cases hev : h.armings event with
  | none =>
    simp only [History.expire, hev] at ha
    exact ⟨a, ha, rfl, rfl⟩
  | some b =>
    rw [expire_eq periodic hev] at ha
    rcases eq_or_ne e event with rfl | hne
    · cases periodic with
      | true =>
        rw [if_pos rfl, arm_self] at ha
        obtain ⟨⟩ := ha
        exact ⟨b, hev, rfl, rfl⟩
      | false =>
        rw [if_neg Bool.false_ne_true, disarm_self] at ha
        exact nomatch ha
    · cases periodic with
      | true =>
        rw [if_pos rfl, arm_of_ne hne, disarm_of_ne hne] at ha
        exact ⟨a, ha, rfl, rfl⟩
      | false =>
        rw [if_neg Bool.false_ne_true, disarm_of_ne hne] at ha
        exact ⟨a, ha, rfl, rfl⟩

structure SameRecord (e e' : IEvent) : Prop where
  trigger : e'.timer.triggerTime = e.timer.triggerTime
  period : e'.timer.period = e.timer.period
  live : e'.signature = e.signature
  type : e'.type = e.type

theorem signalled_record (s : EventState) (event e : Nat) :
    SameRecord (s.events e) ((signalEvent (removeTimer s event) event).events e) := by
  have hsame := sameTimers_signal (removeTimer s event) event
  have hremove : SameRecord (s.events e) ((removeTimer s event).events e) := by
    rcases eq_or_ne e event with rfl | hne
    · rw [removeTimer, setEvent_self]
      exact ⟨rfl, rfl, rfl, rfl⟩
    · rw [removeTimer, setEvent_of_ne _ hne]
      exact ⟨rfl, rfl, rfl, rfl⟩
  refine ⟨?_, ?_, ?_, ?_⟩
  · rw [hsame.timer, hremove.trigger]
  · rw [hsame.timer, hremove.period]
  · rw [hsame.live, hremove.live]
  · rw [hsame.type, hremove.type]

/-- The time for which a periodic timer is armed again. -/
def nextTrigger (s : EventState) (event now : Nat) : Nat :=
  if add64 (triggerTime s event) (period s event) ≤ now then now
  else add64 (triggerTime s event) (period s event)

theorem expireTimer_cases (s : EventState) (event now : Nat) :
    (period s event = 0 ∧ Without event s (expireTimer s event now)) ∨
      (period s event ≠ 0 ∧ ∃ s₁, Without event s s₁ ∧
        triggerTime s₁ event = nextTrigger s event now ∧
        (s₁.events event).signature = (s.events event).signature ∧
        (s₁.events event).type = (s.events event).type ∧
        expireTimer s event now = coreInsertEventTimer s₁ event) := by
  have hrec := signalled_record s event event
  have hw := (removeTimer_without s event).same (sameTimers_signal (removeTimer s event) event)
  have hlive : ∀ time, ((setTriggerTime (signalEvent (removeTimer s event) event) event
      time).events event).signature = (s.events event).signature := by
    intro time
    rw [setTriggerTime, setEvent_self]
    exact hrec.live
  have htype : ∀ time, ((setTriggerTime (signalEvent (removeTimer s event) event) event
      time).events event).type = (s.events event).type := by
    intro time
    rw [setTriggerTime, setEvent_self]
    exact hrec.type
  have hperiod : period (signalEvent (removeTimer s event) event) event = period s event :=
    hrec.period
  have htrig : triggerTime (signalEvent (removeTimer s event) event) event =
      triggerTime s event := hrec.trigger
  unfold expireTimer
  simp only [hperiod, htrig]
  split
  next hzero =>
    exact .inl ⟨hzero, hw⟩
  rename_i hper
  refine .inr ⟨hper, ?_⟩
  split
  next hnow =>
    have hsame := sameTimers_signal
      (setTriggerTime (signalEvent (removeTimer s event) event) event now) s.checkTimerEvent
    refine ⟨_, (hw.setTriggerTime now).same hsame, ?_, ?_, ?_, rfl⟩
    · rw [triggerTime, hsame.timer, nextTrigger, if_pos hnow]
      exact triggerTime_set
    · rw [hsame.live, hlive]
    · rw [hsame.type, htype]
  next hlater =>
    refine ⟨_, hw.setTriggerTime _, ?_, hlive _, htype _, rfl⟩
    rw [triggerTime_set, nextTrigger, if_neg hlater]

theorem Timed.expire (hinv : Timed s h) (hev : event ∈ s.timerList)
    (hle : triggerTime s event ≤ now) :
    Timed (expireTimer s event now) (h.expire (period s event != 0) event) := by
  obtain ⟨a, ha⟩ := isSome_iff_exists.1 ((hinv.inv.armed event).1 hev)
  rw [expire_eq _ ha]
  rcases expireTimer_cases s event now with ⟨hzero, hw⟩ | ⟨hne, s₁, hw, hnext, hlive, htype, heq⟩
  · rw [if_neg (by simp [hzero])]
    exact hinv.without hw
  · rw [if_pos (by simp [hne]), heq]
    obtain ⟨hlive', htype'⟩ := hinv.inv.timers event hev
    have hlater : triggerTime s event ≤ triggerTime s₁ event := by
      rw [hnext, nextTrigger]
      split <;> omega
    refine (hinv.without hw).insert ?_ (hlive.trans hlive') (htype ▸ htype')
      (le_trans (hinv.due event a ha) hlater)
    rw [hw.list]
    exact hinv.inv.nodup.not_mem_erase

theorem period_setEvent (hf : ∀ e, (f e).timer.period = e.timer.period) :
    period (s.setEvent event f) x = period s x := by
  rcases eq_or_ne x event with rfl | hne
  · rw [period, setEvent_self, hf, period]
  · rw [period, setEvent_of_ne f hne, period]

theorem period_expireTimer (event now x : Nat) :
    period (expireTimer s event now) x = period s x := by
  have hsig : period (signalEvent (removeTimer s event) event) x = period s x :=
    (signalled_record s event x).period
  have hset : ∀ time,
      period (setTriggerTime (signalEvent (removeTimer s event) event) event time) x =
      period s x := by
    intro time
    refine Eq.trans ?_ hsig
    apply period_setEvent
    exact fun _ => rfl
  have hins : ∀ s₁ : EventState, period (coreInsertEventTimer s₁ event) x = period s₁ x := by
    intro s₁
    refine Eq.trans (period_setEvent ?_) rfl
    exact fun _ => rfl
  unfold expireTimer
  simp only
  split
  · exact hsig
  split
  · rw [hins, period, (sameTimers_signal _ _).timer]
    exact hset now
  · rw [hins]
    exact hset _

theorem checkTimersRounds_eq {fuel : Nat} {r : EventState × List Nat}
    (h : checkTimersLoop fuel s now = some r) : checkTimersRounds fuel s now = r := by
  induction fuel generalizing s r with
  | zero => exact nomatch h
  | succ fuel ih =>
    rw [checkTimersLoop] at h
    rw [checkTimersRounds]
    split at h
    · exact some.inj h
    split at h
    next hlater =>
      rw [if_pos hlater]
      exact some.inj h
    next hdue =>
      obtain ⟨r', hrest, rfl⟩ := map_eq_some_iff.1 h
      rw [if_neg hdue, ih hrest]

theorem checkTimersRounds_spec (rounds now : Nat) {periodic : Nat → Bool}
    (hinv : Timed s h) (hper : ∀ e, periodic e = (period s e != 0)) :
    Timed (checkTimersRounds rounds s now).1
        ((checkTimersRounds rounds s now).2.foldl (fun h e => h.expire (periodic e) e) h) ∧
      ∀ e ∈ (checkTimersRounds rounds s now).2,
        ∃ a, h.armings e = some a ∧ a.time + a.delay ≤ now := by
  induction rounds generalizing s h with
  | zero => exact ⟨hinv, fun e he => absurd he not_mem_nil⟩
  | succ rounds ih =>
    rw [checkTimersRounds]
    split
    · exact ⟨hinv, fun e he => absurd he not_mem_nil⟩
    rename_i event rest hlist
    split
    · exact ⟨hinv, fun e he => absurd he not_mem_nil⟩
    rename_i hexpired
    have hev : event ∈ s.timerList := hlist ▸ mem_cons_self
    have hle := Nat.le_of_not_lt hexpired
    have hinv' := hinv.expire hev hle
    rw [← hper event] at hinv'
    have hper' : ∀ e, periodic e = (period (expireTimer s event now) e != 0) := by
      intro e
      rw [period_expireTimer, hper]
    obtain ⟨hinv'', hsig⟩ := ih hinv' hper'
    refine ⟨hinv'', ?_⟩
    intro e he
    rcases mem_cons.1 he with rfl | he
    · obtain ⟨a, ha⟩ := isSome_iff_exists.1 ((hinv.inv.armed e).1 hev)
      exact ⟨a, ha, le_trans (hinv.due e a ha) hle⟩
    · obtain ⟨a, ha, htime⟩ := hsig e he
      obtain ⟨b, hb, hbtime, hbdelay⟩ := armings_expire ha
      exact ⟨b, hb, hbtime ▸ hbdelay ▸ htime⟩

end Expire

section Calls

variable {event : Nat}

theorem cancelTimer_without (hinv : TimerInv s h) (event : Nat) :
    Without event s (cancelTimer s event) := by
  have hlist : (cancelTimer s event).timerList = s.timerList.erase event := by
    unfold cancelTimer
    split
    · rfl
    next hlink =>
      refine (erase_of_not_mem ?_).symm
      intro hmem
      exact hlink ((hinv.link event).2 hmem)
  have hoth : ∀ e, e ≠ event → (cancelTimer s event).events e = s.events e := by
    intro e hne
    unfold cancelTimer
    split
    · exact setEvent_of_ne _ hne
    · exact setEvent_of_ne _ hne
  refine ⟨hlist, ?_, ?_, ?_, ?_⟩
  · intro e hne
    rw [hoth e hne]
  · intro e hne
    rw [hoth e hne]
  · intro e hne
    rw [hoth e hne]
  · unfold cancelTimer
    split
    · simp [setEvent]
    · simp [setEvent]

theorem cancelTimer_record :
    ((cancelTimer s event).events event).signature = (s.events event).signature ∧
      ((cancelTimer s event).events event).type = (s.events event).type := by
  unfold cancelTimer
  split
  · simp [setEvent]
  · simp [setEvent]

theorem TimerInv.setUnarmed (hinv : TimerInv s h) (hfree : event ∉ s.timerList)
    (hlist : s'.timerList = s.timerList)
    (hoth : ∀ e, e ≠ event → s'.events e = s.events e)
    (hlink : (s'.events event).timer.link = false) : TimerInv s' h := by
  have hne : ∀ e ∈ s.timerList, e ≠ event := by
    rintro e he rfl
    exact hfree he
  refine ⟨?_, ?_, ?_, ?_, ?_, hinv.fresh⟩
  · rw [hlist]
    exact hinv.nodup
  · rw [hlist]
    exact hinv.armed
  · rw [hlist]
    refine List.Pairwise.imp_of_mem ?_ hinv.sorted
    intro a b ha hb hab
    unfold Before triggerTime at *
    rw [hoth a (hne a ha), hoth b (hne b hb)]
    exact hab
  · intro e
    rw [hlist]
    rcases eq_or_ne e event with rfl | he
    · simp [hlink, hfree]
    · rw [hoth e he]
      exact hinv.link e
  · intro e he
    rw [hlist] at he
    rw [hoth e (hne e he)]
    exact hinv.timers e he

theorem Timed.setUnarmed (hinv : Timed s h) (hfree : event ∉ s.timerList)
    (hlist : s'.timerList = s.timerList)
    (hoth : ∀ e, e ≠ event → s'.events e = s.events e)
    (hlink : (s'.events event).timer.link = false) : Timed s' h := by
  refine ⟨hinv.inv.setUnarmed hfree hlist hoth hlink, ?_⟩
  intro e a ha
  have hne : e ≠ event := by
    rintro rfl
    exact hfree ((hinv.inv.armed e).2 (isSome_iff_exists.2 ⟨a, ha⟩))
  rw [triggerTime, hoth e hne]
  exact hinv.due e a ha

theorem not_mem_of_not_live (hinv : TimerInv s h) (hlive : (s.events event).signature ≠ true) :
    event ∉ s.timerList :=
  fun hmem => hlive (hinv.timers event hmem).1

theorem SameTimers.withStatus (hsame : SameTimers s s') (status : EfiStatus) :
    SameTimers s { s' with status := status } :=
  ⟨hsame.list, hsame.timer, hsame.live, hsame.type, hsame.time, hsame.check⟩

theorem armTimer_without (hinv : TimerInv s h) (event type delay : Nat) :
    Without event s (armTimer s event type delay) := by
  have hw := cancelTimer_without hinv event
  refine ⟨hw.list, ?_, ?_, ?_, ?_⟩
  · intro e hne
    rw [armTimer, setEvent_of_ne _ hne, hw.timer e hne]
  · intro e hne
    rw [armTimer, setEvent_of_ne _ hne, hw.live e hne]
  · intro e hne
    rw [armTimer, setEvent_of_ne _ hne, hw.type e hne]
  · rw [armTimer, setEvent_self]
    exact hw.link

theorem armTimer_record :
    triggerTime (armTimer s event type delay) event = add64 s.systemTime delay ∧
      ((armTimer s event type delay).events event).signature = (s.events event).signature ∧
      ((armTimer s event type delay).events event).type = (s.events event).type := by
  obtain ⟨hlive, htype⟩ := cancelTimer_record
  rw [triggerTime, armTimer, setEvent_self]
  exact ⟨rfl, hlive, htype⟩

theorem setTimer_arms (htype : type ≠ timerCancel) :
    SameTimers (coreInsertEventTimer (armTimer s event type delay) event)
      (setTimer s event type delay) := by
  rw [setTimer, if_neg htype]
  split
  · exact sameTimers_signal _ _
  · exact SameTimers.refl _

theorem canSetTimer_iff :
    canSetTimer s event type = true ↔ isEvent s event = true ∧ type ≤ timerRelative ∧
      (s.events event).type.has evtTimer = true := by
  rw [canSetTimer, Bool.and_eq_true, Bool.and_eq_true, decide_eq_true_eq, and_assoc]

theorem arm_disarm : (h.disarm event).arm event time delay = h.arm event time delay := by
  simp [History.arm, History.disarm]

theorem Timed.setTimer (hinv : Timed s h) {tick : Nat}
    (hfits : canSetTimer s event type = true → type ≠ timerCancel →
      s.systemTime + effectiveDelay type delay tick < 2 ^ 64) (l : List Nat) :
    Timed (coreSetTimer s event type delay tick)
      (h.record s (.setTimer event type delay tick) l) := by
  simp only [coreSetTimer, History.record]
  by_cases hcan : canSetTimer s event type = true
  · rw [if_pos hcan, if_pos hcan]
    obtain ⟨hev, -, htimer⟩ := (canSetTimer_iff).1 hcan
    rw [isEvent, Bool.and_eq_true] at hev
    split
    next hcancel =>
      rw [TimerServices.setTimer, if_pos hcancel]
      exact (hinv.without (cancelTimer_without hinv.inv event)).congr
        ((SameTimers.refl _).withStatus .success)
    next hcancel =>
      have hw := armTimer_without hinv.inv event type (effectiveDelay type delay tick)
      obtain ⟨htime, hlive, htype⟩ :=
        armTimer_record
      rw [add64_eq (hfits hcan hcancel)] at htime
      have hfree : event ∉ (armTimer s event type (effectiveDelay type delay tick)).timerList := by
        rw [hw.list]
        exact hinv.inv.nodup.not_mem_erase
      have hins := (hinv.without hw).insert hfree (hlive.trans hev.2) (htype ▸ htimer)
        (le_of_eq htime.symm)
      rw [arm_disarm] at hins
      exact hins.congr ((setTimer_arms hcancel).withStatus .success)
  · rw [if_neg hcan, if_neg hcan]
    exact hinv.congr ((SameTimers.refl s).withStatus .invalidParameter)

theorem closeTimer_without (hinv : TimerInv s h) (event : Nat) :
    Without event s (closeTimer s event) := by
  unfold closeTimer
  split
  · exact cancelTimer_without hinv event
  next htype =>
    have hfree : event ∉ s.timerList := fun hmem => htype (hinv.timers event hmem).2
    refine ⟨(erase_of_not_mem hfree).symm, fun _ _ => rfl, fun _ _ => rfl, fun _ _ => rfl, ?_⟩
    rw [← Bool.not_eq_true, hinv.link event]
    exact hfree

theorem closeEvent_without (hinv : TimerInv s h) (status : EfiStatus) :
    Without event s
      { (unlinkEvent (closeTimer s event) event).setEvent event
          fun e => { e with signature := false } with
        status := status } := by
  have hw := closeTimer_without hinv event
  have hoth : ∀ e, e ≠ event → ((unlinkEvent (closeTimer s event) event).setEvent event
      fun e => { e with signature := false }).events e = (closeTimer s event).events e :=
    fun e hne => setEvent_of_ne _ hne
  refine ⟨hw.list, ?_, ?_, ?_, ?_⟩
  · intro e hne
    rw [hoth e hne, hw.timer e hne]
  · intro e hne
    rw [hoth e hne, hw.live e hne]
  · intro e hne
    rw [hoth e hne, hw.type e hne]
  · rw [setEvent_self]
    exact hw.link

theorem Timed.close (hinv : Timed s h) (event : Nat) (l : List Nat) :
    Timed (TimerServices.coreCloseEvent s event) (h.record s (.closeEvent event) l) := by
  simp only [TimerServices.coreCloseEvent, History.record]
  by_cases hev : isEvent s event = true
  · rw [if_pos hev, if_pos hev]
    exact hinv.without (closeEvent_without hinv.inv .success)
  · rw [if_neg hev, if_neg hev]
    exact hinv.congr ((SameTimers.refl s).withStatus .invalidParameter)

theorem coreTimerTick_timers :
    (coreTimerTick s time).timerList = s.timerList ∧
      ∀ e, ((coreTimerTick s time).events e).timer = (s.events e).timer ∧
        ((coreTimerTick s time).events e).signature = (s.events e).signature ∧
        ((coreTimerTick s time).events e).type = (s.events e).type := by
  have hsame := sameTimers_signal
    ({ s with systemTime := add64 s.systemTime time } : EventState) s.checkTimerEvent
  unfold coreTimerTick
  split
  · exact ⟨rfl, fun e => ⟨rfl, rfl, rfl⟩⟩
  simp only
  split
  · exact ⟨hsame.list, fun e => ⟨hsame.timer e, hsame.live e, hsame.type e⟩⟩
  · exact ⟨rfl, fun e => ⟨rfl, rfl, rfl⟩⟩

/-- The trigger time does not wrap. -/
def Fits (s : EventState) : TimerCall → Prop
  | .setTimer event type delay timerPeriod =>
    canSetTimer s event type = true → type ≠ timerCancel →
      s.systemTime + effectiveDelay type delay timerPeriod < 2 ^ 64
  | _ => True

theorem Timed.call {c : TimerCall} (hinv : Timed s h) (hfits : Fits s c)
    (hcall : timerCall s c = some (s', l)) : Timed s' (h.record s c l) := by
  cases c with
  | createEvent event type tpl notify eventGroup =>
    simp only [timerCall] at hcall
    split at hcall
    · exact nomatch hcall
    rename_i hfree
    obtain ⟨⟩ := hcall
    rw [not_or] at hfree
    refine hinv.setUnarmed (not_mem_of_not_live hinv.inv hfree.2) rfl ?_ ?_
    · exact fun e hne => update_of_ne hne _ _
    · simp [allocateEvent, newEvent]
  | setTimer event type delay tick =>
    obtain ⟨⟩ := hcall
    exact hinv.setTimer hfits []
  | timerTick time =>
    obtain ⟨⟩ := hcall
    obtain ⟨hlist, hevs⟩ := coreTimerTick_timers
    have hinv' : Timed { s with systemTime := (coreTimerTick s time).systemTime
                                checkTimerEvent := (coreTimerTick s time).checkTimerEvent } h :=
      ⟨⟨hinv.inv.nodup, hinv.inv.armed, hinv.inv.sorted, hinv.inv.link, hinv.inv.timers,
        hinv.inv.fresh⟩, hinv.due⟩
    exact hinv'.congr ⟨hlist, fun e => (hevs e).1, fun e => (hevs e).2.1,
      fun e => (hevs e).2.2, rfl, rfl⟩
  | checkTimers fuel =>
    have hspec := (checkTimersRounds_spec fuel s.systemTime hinv fun _ => rfl).1
    rwa [checkTimersRounds_eq hcall] at hspec
  | closeEvent event =>
    obtain ⟨⟩ := hcall
    exact hinv.close event []

end Calls

section Runs

variable {memory : Nat} {t : Timers}

theorem run_timed (h : Run Fits memory t) : Timed t.state t.history := by
  induction h with
  | start =>
    refine ⟨⟨nodup_nil, ?_, List.Pairwise.nil, ?_, ?_, ?_⟩, ?_⟩
    · exact fun e => ⟨fun he => absurd he not_mem_nil, fun he => nomatch he⟩
    · intro e
      refine ⟨?_, fun he => absurd he not_mem_nil⟩
      intro hlink
      rcases eq_or_ne e memory with rfl | hne
      · simp [coreInitializeTimer, allocateEvent, newEvent] at hlink
      · simp [coreInitializeTimer, allocateEvent, update_of_ne hne] at hlink
    · exact fun e he => absurd he not_mem_nil
    · exact fun e a ha => nomatch ha
    · exact fun e a ha => nomatch ha
  | call c _ hfits hcall ih => exact ih.call hfits hcall

/-- The timer database holds the armed timers, each once, sorted by time and by the order of
arming among equal times. In whatever number of rounds, `CoreCheckTimers` signals none before
its delay is over. -/
structure TimersSound (t : Timers) : Prop where
  once : t.state.timerList.Nodup
  armed : ∀ e, e ∈ t.state.timerList ↔ (t.history.armings e).isSome = true
  sorted : t.state.timerList.Pairwise (Before t.state t.history)
  notEarly : ∀ rounds, ∀ e ∈ (checkTimersRounds rounds t.state t.state.systemTime).2,
    ∃ a, t.history.armings e = some a ∧ a.time + a.delay ≤ t.state.systemTime

theorem run_timersSound (h : Run Fits memory t) : TimersSound t := by
  have hinv := run_timed h
  refine ⟨hinv.inv.nodup, hinv.inv.armed, hinv.inv.sorted, ?_⟩
  intro rounds
  exact (checkTimersRounds_spec rounds _ hinv fun _ => rfl).2

end Runs

/-- A timer armed for ten units expires after ten. -/
theorem tenUnits_timersSound : ∃ t : Timers, Run Fits 1 t ∧ t.state.timerList = [2] ∧
    t.state.systemTime = 10 ∧ ((coreCheckTimers 2 t.state).map Prod.snd) = some [2] ∧
    TimersSound t := by
  have hcreate : Run Fits 1 _ :=
    Run.call (.createEvent 2 evtTimer 0 false none) Run.start trivial rfl
  have harm : Run Fits 1 _ :=
    Run.call (.setTimer 2 timerRelative 10 0) hcreate (fun _ _ => by decide) rfl
  have htick : Run Fits 1 _ := Run.call (.timerTick 10) harm trivial rfl
  exact ⟨_, htick, by decide, by decide, by decide, run_timersSound htick⟩

/-- A timer armed at time 1 for as long as 64 bits can say expires at once. -/
theorem longestDelay_early : ∃ t : Timers, Run (fun _ _ => True) 1 t ∧ ¬ TimersSound t := by
  have hcreate : Run (fun _ _ => True) 1 _ :=
    Run.call (.createEvent 2 evtTimer 0 false none) Run.start trivial rfl
  have htick : Run (fun _ _ => True) 1 _ := Run.call (.timerTick 1) hcreate trivial rfl
  have harm : Run (fun _ _ => True) 1 _ :=
    Run.call (.setTimer 2 timerRelative (2 ^ 64 - 1) 0) htick trivial rfl
  refine ⟨_, harm, ?_⟩
  intro hsound
  obtain ⟨a, ha, hle⟩ := hsound.notEarly 1 2 mem_cons_self
  obtain ⟨⟩ := ha
  exact absurd hle (by decide)

end MuBasecore.TimerRuns
