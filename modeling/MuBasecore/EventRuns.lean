import MuBasecore.EventQueues

/-!
Runs of the event services. Wherever code outside the services runs, no
notification of a level above the current one is waiting: `CoreRestoreTpl` has seen
to it. A section that queues nothing is therefore never followed by a notification,
and what it left to its caller is still there when the caller goes on.
-/

namespace MuBasecore.EventRuns

open EfiTypes CallStack EventServices EventQueues List Option

variable {event : Nat} {f : Frame}

structure Calm (s : EventState) : Prop where
  inv : QueueInv s
  idle : Idle s.currentTpl s
  level : s.currentTpl ≤ tplHighLevel

structure SameQueues (s s' : EventState) : Prop where
  events : s'.events = s.events
  queue : s'.eventQueue = s.eventQueue
  registered : s'.eventSignalQueue = s.eventSignalQueue

/-- What a frame finds. At the start of a notification no higher one is waiting, and if all
give their level back, the level is the one of the event. -/
structure Good (restores : Prop) (s : EventState) (f : Frame) : Prop where
  inv : QueueInv s
  user : ∀ t, f = .user t → Calm s
  start : ∀ e, f = .notify e →
    Calm s ∧ (restores → s.currentTpl = (s.events e).notifyTpl)

variable {frames fs : List Frame}

section Sections

variable {s s' a : EventState} {c n : Nat}

theorem SameQueues.trans {s'' : EventState} (h : SameQueues s s') (h' : SameQueues s' s'') :
    SameQueues s s'' :=
  ⟨h'.events.trans h.events, h'.queue.trans h.queue, h'.registered.trans h.registered⟩

theorem SameQueues.idle (h : SameQueues s s') (hidle : Idle c s) : Idle c s' := by
  intro p hp
  rw [h.queue]
  exact hidle p hp

theorem SameQueues.unlinked {e : Nat} (h : SameQueues s s') (he : Unlinked s e) :
    Unlinked s' e := by
  refine ⟨?_, ?_⟩
  · rw [h.queue]
    exact he.queue
  · rw [h.registered]
    exact he.registered

theorem Idle.mono {d : Nat} (h : Idle c s) (hle : c ≤ d) : Idle d s :=
  fun p hp => h p (Nat.lt_of_le_of_lt hle hp)

theorem coreRaiseTpl_eq (h : coreRaiseTpl s c = some s') :
    s' = { s with currentTpl := c } ∧ s.currentTpl ≤ c ∧ c ≤ tplHighLevel := by
  unfold coreRaiseTpl at h
  split at h
  · exact nomatch h
  next hval =>
    rw [not_or, Nat.not_lt, Bool.not_eq_false, validTpl, decide_eq_true_eq] at hval
    exact ⟨(some.inj h).symm, hval⟩

theorem coreRestoreTpl_eq (h : coreRestoreTpl s c frames = some (s', fs)) :
    fs = .restoreTpl c :: frames ∧ c ≤ tplHighLevel ∧ ∃ tpl, s' = { s with currentTpl := tpl } := by
  unfold coreRestoreTpl at h
  split at h
  · exact nomatch h
  next hval =>
    rw [not_or, Bool.not_eq_false, validTpl, decide_eq_true_eq] at hval
    split at h
    · obtain ⟨⟩ := h
      exact ⟨rfl, hval.2, _, rfl⟩
    · obtain ⟨⟩ := h
      exact ⟨rfl, hval.2, _, rfl⟩

theorem acquireLock_eq (h : coreAcquireEventLock s = some a) :
    ∃ tpl acquired, a = { s with
      currentTpl := tpl
      eventQueueLock := { s.eventQueueLock with
        ownerTpl := s.currentTpl, acquired := acquired } } := by
  unfold coreAcquireEventLock at h
  split at h
  · exact nomatch h
  · obtain ⟨raised, hraise, rfl⟩ := map_eq_some_iff.1 h
    obtain ⟨rfl, -⟩ := coreRaiseTpl_eq hraise
    exact ⟨_, _, rfl⟩

theorem releaseLock_eq (h : coreReleaseEventLock s frames = some (s', fs)) :
    fs = .restoreTpl s.eventQueueLock.ownerTpl :: frames ∧
      s.eventQueueLock.ownerTpl ≤ tplHighLevel ∧
      ∃ tpl lock, s' = { s with currentTpl := tpl, eventQueueLock := lock } := by
  unfold coreReleaseEventLock at h
  split at h
  · obtain ⟨hfs, hle, tpl, rfl⟩ := coreRestoreTpl_eq h
    exact ⟨hfs, hle, tpl, _, rfl⟩
  · exact nomatch h

theorem locked_eq {body : EventState → EventState} (h : locked s body frames = some (s', fs))
    (hlock : ∀ a, (body a).eventQueueLock = a.eventQueueLock) :
    fs = .restoreTpl s.currentTpl :: frames ∧ s.currentTpl ≤ tplHighLevel ∧
      ∃ tpl lock tpl' lock', s' =
        { body { s with currentTpl := tpl, eventQueueLock := lock } with
          currentTpl := tpl'
          eventQueueLock := lock' } := by
  obtain ⟨a, ha, hrel⟩ := bind_eq_some_iff.1 h
  obtain ⟨tpl, acquired, rfl⟩ := acquireLock_eq ha
  obtain ⟨hfs, hle, tpl', lock', rfl⟩ := releaseLock_eq hrel
  rw [hlock] at hfs hle
  exact ⟨hfs, hle, tpl, _, tpl', lock', rfl⟩

end Sections

theorem cancelTimer_eq {s s' a : EventState}
    (hinv : QueueInv s) (h : coreAcquireTimerLock s = some a)
    (h' : coreReleaseTimerLock (cancelTimer a event) frames = some (s', fs)) :
    fs = .restoreTpl s.currentTpl :: frames ∧ s.currentTpl ≤ tplHighLevel ∧ QueueInv s' := by
  have hlock : (cancelTimer a event).timerLock = a.timerLock := by
    unfold cancelTimer
    split <;> rfl
  have hcancel : QueueInv a → QueueInv (cancelTimer a event) := by
    intro ha
    unfold cancelTimer
    split
    · have hlist : QueueInv { a with timerList := a.timerList.erase event } :=
        ha.congr (fun _ => rfl) rfl rfl rfl
      apply hlist.setEvent
      exact fun _ => rfl
    · apply ha.setEvent
      exact fun _ => rfl
  unfold coreAcquireTimerLock at h
  split at h
  · exact nomatch h
  obtain ⟨raised, hraise, rfl⟩ := map_eq_some_iff.1 h
  obtain ⟨rfl, -⟩ := coreRaiseTpl_eq hraise
  unfold coreReleaseTimerLock at h'
  split at h'
  · rw [hlock] at h'
    obtain ⟨hfs, hle, tpl, rfl⟩ := coreRestoreTpl_eq h'
    refine ⟨hfs, hle, ?_⟩
    exact (hcancel (hinv.congr (fun _ => rfl) rfl rfl rfl)).congr (fun _ => rfl) rfl rfl rfl
  · exact nomatch h'

variable {notifyTpl : Nat}

theorem checkNotify_level {type : EventType} {tpl : Nat} {notify function : Bool}
    (h : checkNotify type notifyTpl notify = some (tpl, function))
    (hnot : type.has (evtNotifyWait ||| evtNotifySignal) = true) : tpl < tplHighLevel := by
  rw [checkNotify, if_pos hnot] at h
  split at h
  · exact nomatch h
  next hval =>
    obtain ⟨⟩ := h
    exact Nat.lt_of_not_le fun hle => hval (.inr (.inr hle))

structure Specs (restores : Prop) (n : Nat) : Prop where
  restore : ∀ s c, QueueInv s → c ≤ tplHighLevel →
    Spec (Resume restores) (Good restores) n s [.restoreTpl c]
      fun s' => Calm s' ∧ s'.currentTpl = c
  quiet : ∀ s c, QueueInv s → c ≤ tplHighLevel → Idle c s →
    Spec (Resume restores) (Good restores) n s [.restoreTpl c]
      fun s' => Calm s' ∧ s'.currentTpl = c ∧ SameQueues s s'
  dispatch : ∀ s p, QueueInv s → p < tplHighLevel → Idle s.eventQueueLock.ownerTpl s →
    (restores → s.eventQueueLock.ownerTpl = p) →
    Spec (Resume restores) (Good restores) n s [.dispatch p] QueueInv
  user : ∀ s t, Calm s →
    Spec (Resume restores) (Good restores) n s [.user t]
      fun s' => Calm s' ∧ (restores → s'.currentTpl = t)

abbrev EventSpec (restores : Prop) := Spec (Resume restores) (Good restores)

variable {restores : Prop} {n : Nat} {s s' : EventState}

section Frames

variable {Q : EventState → Prop} {body : EventState → EventState}

theorem good_of_inv (h : QueueInv s) (hf : (∀ t, f ≠ .user t) ∧ ∀ e, f ≠ .notify e) :
    Good restores s f :=
  ⟨h, fun t ht => absurd ht (hf.1 t), fun e he => absurd he (hf.2 e)⟩

theorem good_user (hcalm : Calm s) (t : Nat) : Good restores s (.user t) :=
  ⟨hcalm.inv, fun _ _ => hcalm, by simp⟩

theorem spec_advance (hgood : Good restores s f) (huser : ∀ t, f ≠ .user t)
    (h : ∀ s' fs, advance s f = some (s', fs) → EventSpec restores n s' fs Q) :
    EventSpec restores (n + 1) s [f] Q := by
  refine spec_frame hgood ?_
  intro s' fs hresume
  cases hresume with
  | advance hadvance => exact h s' fs hadvance
  | call t | exit t => exact absurd rfl (huser t)

theorem Specs.locked (hn : Specs restores n) (h : locked s body frames = some (s', fs))
    (hlock : ∀ a, (body a).eventQueueLock = a.eventQueueLock)
    (hbody : ∀ tpl lock, QueueInv (body { s with currentTpl := tpl, eventQueueLock := lock }))
    (hframes : ∀ s'', Calm s'' → EventSpec restores n s'' frames Q) :
    EventSpec restores n s' fs Q := by
  obtain ⟨rfl, hle, tpl, lock, tpl', lock', rfl⟩ := locked_eq h hlock
  refine (hn.restore _ _ ((hbody tpl lock).setLevel tpl' lock') hle).cons ?_
  intro s'' hs''
  exact hframes s'' hs''.1

theorem Specs.lockedQuiet (hn : Specs restores n)
    (h : EventServices.locked s body frames = some (s', fs))
    (hlock : ∀ a, (body a).eventQueueLock = a.eventQueueLock)
    (hbody : ∀ tpl lock, QueueInv (body { s with currentTpl := tpl, eventQueueLock := lock }))
    (hidle : ∀ tpl lock, Idle s.currentTpl
      (body { s with currentTpl := tpl, eventQueueLock := lock }))
    (hframes : ∀ tpl lock s'', Calm s'' →
      SameQueues (body { s with currentTpl := tpl, eventQueueLock := lock }) s'' →
      EventSpec restores n s'' frames Q) :
    EventSpec restores n s' fs Q := by
  obtain ⟨rfl, hle, tpl, lock, tpl', lock', rfl⟩ := locked_eq h hlock
  refine (hn.quiet _ _ ((hbody tpl lock).setLevel tpl' lock') hle (hidle tpl lock)).cons ?_
  intro s'' hs''
  obtain ⟨hcalm, -, hsame⟩ := hs''
  exact hframes tpl lock s'' hcalm ⟨hsame.events, hsame.queue, hsame.registered⟩

theorem spec_inv (hinv : QueueInv s) (hf : (∀ t, f ≠ .user t) ∧ ∀ e, f ≠ .notify e)
    (h : ∀ s' fs, advance s f = some (s', fs) → EventSpec restores n s' fs Q) :
    EventSpec restores (n + 1) s [f] Q :=
  spec_advance (good_of_inv hinv hf) hf.1 h

theorem spec_section (hinv : QueueInv s) (hf : (∀ t, f ≠ .user t) ∧ ∀ e, f ≠ .notify e)
    (h : ∀ s' fs, advance s f = some (s', fs) → EventSpec restores n s' fs Q) :
    EventSpec restores n s [f] Q :=
  (spec_inv hinv hf h).mono (Nat.le_succ n)

theorem spec_returns (hcalm : Calm s) (status : EfiStatus) :
    EventSpec restores n s [.returns status] Calm := by
  refine spec_section hcalm.inv (by simp) ?_
  intro s' fs h
  obtain ⟨⟩ := h
  refine spec_nil ⟨?_, hcalm.idle, hcalm.level⟩
  exact hcalm.inv.congr (fun _ => rfl) rfl rfl rfl

variable (hn : Specs restores n) (hcalm : Calm s)

include hn hcalm

theorem Specs.signalTail : EventSpec restores n s [.signalTail] Calm := by
  refine spec_section hcalm.inv (by simp) ?_
  intro s' fs h
  refine hn.locked h (fun _ => rfl) (fun tpl lock => hcalm.inv.setLevel tpl lock) ?_
  intro s'' hcalm''
  exact spec_returns hcalm'' .success

theorem Specs.notifySignalList (event : Nat) :
    EventSpec restores n s [.notifySignalList event] Calm := by
  refine spec_section hcalm.inv (by simp) ?_
  intro s' fs h
  refine hn.locked h (fun _ => notifyAll_lock _ _)
    (fun tpl lock => (hcalm.inv.setLevel tpl lock).notifyGroup _) ?_
  intro s'' hcalm''
  exact spec_nil hcalm''

theorem Specs.checkSignal (event : Nat) : EventSpec restores n s [.checkSignal event] Calm := by
  refine spec_section hcalm.inv (by simp) ?_
  intro s' fs h
  simp only [advance] at h
  split at h
  · obtain ⟨⟩ := h
    exact spec_returns hcalm .notReady
  · refine hn.locked h (fun _ => rfl) ?_ ?_
    · intro tpl lock
      apply (hcalm.inv.setLevel tpl lock).setEvent
      exact fun _ => rfl
    · intro s'' hcalm''
      exact spec_returns hcalm'' .success

omit hn in
theorem spec_freeEvent (hunl : Unlinked s event) :
    EventSpec restores n s [.freeEvent event] Calm := by
  refine spec_section hcalm.inv (by simp) ?_
  intro s' fs h
  obtain ⟨⟩ := h
  apply spec_returns
  refine ⟨?_, hcalm.idle, hcalm.level⟩
  refine hcalm.inv.setUnlinked hunl { s.events event with signature := false } ?_ rfl rfl rfl
    rfl
  intro hsignature
  exact absurd hsignature Bool.false_ne_true

theorem Specs.closeEvent (event : Nat) : EventSpec restores n s [.closeEvent event] Calm := by
  refine spec_section hcalm.inv (by simp) ?_
  intro s' fs h
  refine hn.lockedQuiet h (fun _ => rfl)
    (fun tpl lock => (hcalm.inv.setLevel tpl lock).unlink event) ?_ ?_
  · intro tpl lock p hp
    have hnil := hcalm.idle p hp
    simp only [unlinkEvent, removeNotifyLink]
    split
    · simp [hnil]
    · exact hnil
  · intro tpl lock s'' hcalm'' hsame
    refine spec_freeEvent hcalm'' (hsame.unlinked ?_)
    exact (hcalm.inv.setLevel tpl lock).unlinkEvent_unlinked event

theorem Specs.coreSignalEvent (h : coreSignalEvent s event = some (s', fs)) :
    EventSpec restores n s' fs Calm := by
  have hreturns : ∀ s'', Calm s'' → EventSpec restores n s'' [.returns .success] Calm :=
    fun s'' hs'' => spec_returns hs'' .success
  have hcnt : ∀ tpl lock, QueueInv
      (({ s with currentTpl := tpl, eventQueueLock := lock } : EventState).setEvent event
        fun e => { e with signalCount := 1 }) := by
    intro tpl lock
    apply (hcalm.inv.setLevel tpl lock).setEvent
    exact fun _ => rfl
  unfold EventServices.coreSignalEvent at h
  split at h
  · obtain ⟨⟩ := h
    exact spec_returns hcalm .invalidParameter
  rename_i hev
  rw [Bool.not_eq_false, isEvent, Bool.and_eq_true] at hev
  simp only at h
  split at h
  · exact hn.locked h (fun _ => rfl) (fun tpl lock => hcalm.inv.setLevel tpl lock) hreturns
  split at h
  · exact hn.locked h (fun _ => rfl) hcnt hreturns
  rename_i hsig
  rw [Bool.not_eq_false] at hsig
  split at h
  · refine hn.locked h (fun _ => rfl) hcnt ?_
    intro s'' hs''
    refine (hn.notifySignalList hs'' event).cons ?_
    intro s''' hs'''
    exact hn.signalTail hs'''
  · refine hn.locked h (fun a => notify_frame.2.2) ?_ hreturns
    intro tpl lock
    refine (hcnt tpl lock).notify ?_ ?_
    · rw [setEvent_self]
      exact hev.2
    · rw [setEvent_self]
      exact has_of_and_eq hsig (by decide)

theorem Specs.coreCheckEvent (h : coreCheckEvent s event = some (s', fs)) :
    EventSpec restores n s' fs Calm := by
  unfold EventServices.coreCheckEvent at h
  split at h
  · obtain ⟨⟩ := h
    exact spec_returns hcalm .invalidParameter
  rename_i hev
  rw [not_or, Bool.not_eq_false, isEvent, Bool.and_eq_true] at hev
  split at h
  next hwait =>
    refine hn.locked h (fun a => notify_frame.2.2) ?_ fun s'' hs'' => hn.checkSignal hs'' event
    intro tpl lock
    exact (hcalm.inv.setLevel tpl lock).notify hev.1.2 (has_of_and_eq hwait.2 (by decide))
  · obtain ⟨⟩ := h
    exact hn.checkSignal hcalm event

theorem Specs.coreCloseEvent (h : coreCloseEvent s event = some (s', fs)) :
    EventSpec restores n s' fs Calm := by
  unfold EventServices.coreCloseEvent at h
  split at h
  · obtain ⟨⟩ := h
    exact spec_returns hcalm .invalidParameter
  split at h
  · obtain ⟨a, ha, hrel⟩ := bind_eq_some_iff.1 h
    obtain ⟨rfl, hle, hinv⟩ := cancelTimer_eq hcalm.inv ha hrel
    refine (hn.restore s' s.currentTpl hinv hle).cons ?_
    intro s'' hs''
    exact hn.closeEvent hs''.1 event
  · obtain ⟨⟩ := h
    exact hn.closeEvent hcalm event

theorem Specs.coreCreateEvent {type : EventType} {notify : Bool}
    {eventGroup : Option Guid} {memory : Option Nat}
    (h : coreCreateEvent s type notifyTpl notify eventGroup memory = some (s', fs)) :
    EventSpec restores n s' fs Calm := by
  unfold EventServices.coreCreateEvent at h
  split at h
  · obtain ⟨⟩ := h
    exact spec_returns hcalm .invalidParameter
  split at h
  · obtain ⟨⟩ := h
    exact spec_returns hcalm .invalidParameter
  rename_i type eventGroup hconv
  split at h
  · obtain ⟨⟩ := h
    exact spec_returns hcalm .invalidParameter
  · obtain ⟨⟩ := h
    exact spec_returns hcalm .outOfResources
  rename_i notifyTpl notify event hchk
  split at h
  · exact nomatch h
  rename_i hfree
  rw [not_or] at hfree
  have hunl := hcalm.inv.unlinked_of_closed hfree.2
  have hcre : Calm (allocateEvent s event (newEvent type notifyTpl notify eventGroup)) := by
    refine ⟨?_, hcalm.idle, hcalm.level⟩
    refine hcalm.inv.setUnlinked hunl _ ?_ rfl rfl rfl rfl
    intro _ hnot
    exact checkNotify_level hchk hnot
  split at h
  next hsig =>
    refine hn.locked h (fun _ => rfl) ?_ fun s'' hs'' => spec_returns hs'' .success
    intro tpl lock
    refine (hcre.inv.setLevel tpl lock).register ?_ hunl.registered
    change Registered (Function.update s.events event _ event)
    rw [Function.update_self]
    exact ⟨rfl, hsig, hsig⟩
  · obtain ⟨⟩ := h
    exact spec_returns hcre .success

theorem Specs.call {c : Call} (h : call s c = some (s', fs)) : EventSpec restores n s' fs Calm := by
  cases c with
  | createEvent type notifyTpl notify eventGroup memory =>
    exact hn.coreCreateEvent hcalm h
  | signalEvent event => exact hn.coreSignalEvent hcalm h
  | checkEvent event => exact hn.coreCheckEvent hcalm h
  | closeEvent event => exact hn.coreCloseEvent hcalm h
  | raiseTpl newTpl =>
    obtain ⟨raised, hraise, heq⟩ := map_eq_some_iff.1 h
    obtain ⟨⟩ := heq
    obtain ⟨rfl, hle, hval⟩ := coreRaiseTpl_eq hraise
    exact spec_nil ⟨hcalm.inv.setLevel newTpl _, Idle.mono hcalm.idle hle, hval⟩
  | restoreTpl newTpl =>
    obtain ⟨rfl, hval, tpl, rfl⟩ := coreRestoreTpl_eq h
    exact (hn.restore _ newTpl (hcalm.inv.setLevel tpl _) hval).imp fun s'' hs'' => hs''.1

end Frames

section Recursion

variable {fs : List Frame} {c p : Nat}

theorem advance_restoreTpl (hinv : QueueInv s) (h : advance s (.restoreTpl c) = some (s', fs)) :
    (fs = [] ∧ s' = { s with currentTpl := c } ∧ Idle c s) ∨
      ∃ p tpl lock, fs = [.dispatch p, .restoreTpl c] ∧ c < p ∧ p < tplHighLevel ∧ Idle p s ∧
        lock.ownerTpl = p ∧ s' = { s with currentTpl := tpl, eventQueueLock := lock } := by
  have htop : ∀ q, s.eventQueue q ≠ [] → q ≤ highBitSet64 s.eventPending :=
    fun q hq => le_highBitSet64 (hinv.pending q hq)
  simp only [advance] at h
  split at h
  next hpend =>
    obtain ⟨a, ha, hdispatch⟩ := bind_eq_some_iff.1 h
    obtain ⟨tpl, acquired, rfl⟩ := acquireLock_eq ha
    split at hdispatch
    · obtain ⟨⟩ := hdispatch
      refine .inr ⟨_, tpl, _, rfl, hpend.2, ?_, ?_, rfl, rfl⟩
      · exact hinv.bits _ (getLsbD_highBitSet64 hpend.1)
      · intro q hq
        by_contra hne
        exact absurd (htop q hne) (Nat.not_le.2 hq)
    · exact nomatch hdispatch
  next hpend =>
    obtain ⟨⟩ := h
    refine .inl ⟨rfl, rfl, ?_⟩
    intro q hq
    by_contra hne
    apply hpend
    refine ⟨?_, Nat.lt_of_lt_of_le hq (htop q hne)⟩
    intro hzero
    have hset := hinv.pending q hne
    rw [hzero] at hset
    simp at hset

theorem Calm.ofIdle (hinv : QueueInv s) (hc : c ≤ tplHighLevel) (hidle : Idle c s) :
    Calm { s with currentTpl := c } :=
  ⟨hinv.setLevel c _, hidle, hc⟩

theorem Specs.restore_succ (hn : Specs restores n) (hinv : QueueInv s) (hc : c ≤ tplHighLevel) :
    EventSpec restores (n + 1) s [.restoreTpl c] fun s' => Calm s' ∧ s'.currentTpl = c := by
  refine spec_inv hinv (by simp) ?_
  intro s' fs h
  rcases advance_restoreTpl hinv h with
    ⟨rfl, rfl, hidle⟩ | ⟨p, tpl, lock, rfl, -, hp, hidle, howner, rfl⟩
  · exact spec_nil ⟨Calm.ofIdle hinv hc hidle, rfl⟩
  · refine (hn.dispatch _ p (hinv.setLevel tpl lock) hp ?_ fun _ => howner).cons ?_
    · rw [howner]
      exact hidle
    · intro s'' hs''
      exact hn.restore s'' c hs'' hc

theorem advance_dispatch_nil (hnil : s.eventQueue p = [])
    (h : advance s (.dispatch p) = some (s', fs)) :
    coreReleaseEventLock { s with eventPending := s.eventPending &&& ~~~(pendingBit p) } [] =
      some (s', fs) := by
  simp only [advance] at h
  split at h
  · exact h
  next e l hqueue =>
    rw [hnil] at hqueue
    exact nomatch hqueue

section

variable (hn : Specs restores n)
include hn

theorem Specs.dispatchEmpty (hinv : QueueInv s) (hp : p < tplHighLevel)
    (hidle : Idle s.eventQueueLock.ownerTpl s) (hnil : s.eventQueue p = []) :
    EventSpec restores n s [.dispatch p] fun s' => QueueInv s' ∧ SameQueues s s' := by
  refine spec_section hinv (by simp) ?_
  intro s' fs h
  have hrel := advance_dispatch_nil hnil h
  obtain ⟨rfl, hle, tpl, lock, rfl⟩ := releaseLock_eq hrel
  refine (hn.quiet _ _ ((hinv.clear hp hnil).setLevel tpl lock) hle hidle).imp ?_
  intro s'' hs''
  obtain ⟨hcalm, -, hsame⟩ := hs''
  exact ⟨hcalm.inv, hsame.events, hsame.queue, hsame.registered⟩

theorem Specs.quiet_succ (hinv : QueueInv s) (hc : c ≤ tplHighLevel) (hidle : Idle c s) :
    EventSpec restores (n + 1) s [.restoreTpl c]
      fun s' => Calm s' ∧ s'.currentTpl = c ∧ SameQueues s s' := by
  refine spec_inv hinv (by simp) ?_
  intro s' fs h
  rcases advance_restoreTpl hinv h with
    ⟨rfl, rfl, hidle⟩ | ⟨p, tpl, lock, rfl, hcp, hp, hidle', howner, rfl⟩
  · exact spec_nil ⟨Calm.ofIdle hinv hc hidle, rfl, rfl, rfl, rfl⟩
  · refine (hn.dispatchEmpty (hinv.setLevel tpl lock) hp ?_ (hidle p hcp)).cons ?_
    · rw [howner]
      exact hidle'
    · intro s'' hs''
      obtain ⟨hinv'', hsame⟩ := hs''
      refine (hn.quiet s'' c hinv'' hc (hsame.idle hidle)).imp ?_
      intro s₃ hs₃
      obtain ⟨hcalm, htpl, hsame'⟩ := hs₃
      refine ⟨hcalm, htpl, ?_⟩
      exact SameQueues.trans ⟨hsame.events, hsame.queue, hsame.registered⟩ hsame'

theorem Specs.notify {e : Nat} (hcalm : Calm s) (hp : p < tplHighLevel)
    (hlev : restores → s.currentTpl = p) (he : restores → (s.events e).notifyTpl = p) :
    EventSpec restores n s [.notify e, .dispatchNext p] QueueInv := by
  have hst : Good restores s (.notify e) := by
    refine ⟨hcalm.inv, by simp, ?_⟩
    intro e' heq
    obtain rfl := Frame.notify.inj heq
    exact ⟨hcalm, fun hr => (hlev hr).trans (he hr).symm⟩
  have hrun : EventSpec restores n s [.notify e]
      fun s' => Calm s' ∧ (restores → s'.currentTpl = p) := by
    refine (spec_advance hst (by simp) ?_).mono (Nat.le_succ n)
    intro s' fs h
    obtain ⟨⟩ := h
    refine (hn.user s s.currentTpl hcalm).imp ?_
    intro s'' hs''
    exact ⟨hs''.1, fun hr => (hs''.2 hr).trans (hlev hr)⟩
  refine hrun.cons ?_
  intro s' hs'
  refine spec_section hs'.1.inv (by simp) ?_
  intro s'' fs h
  obtain ⟨a, ha, heq⟩ := map_eq_some_iff.1 h
  obtain ⟨⟩ := heq
  obtain ⟨tpl, acquired, rfl⟩ := acquireLock_eq ha
  exact hn.dispatch _ p (hs'.1.inv.setLevel tpl _) hp hs'.1.idle hs'.2

theorem Specs.dispatch_succ (hinv : QueueInv s) (hp : p < tplHighLevel)
    (hidle : Idle s.eventQueueLock.ownerTpl s)
    (howner : restores → s.eventQueueLock.ownerTpl = p) :
    EventSpec restores (n + 1) s [.dispatch p] QueueInv := by
  refine spec_inv hinv (by simp) ?_
  intro s' fs h
  cases hqueue : s.eventQueue p with
  | nil =>
    have hrel := advance_dispatch_nil hqueue h
    obtain ⟨rfl, hle, tpl, lock, rfl⟩ := releaseLock_eq hrel
    refine (hn.restore _ _ ((hinv.clear hp hqueue).setLevel tpl lock) hle).imp ?_
    exact fun s'' hs'' => hs''.1.inv
  | cons e l =>
    simp only [advance, hqueue] at h
    obtain ⟨rfl, hle, tpl, lock, rfl⟩ := releaseLock_eq h
    have hidle' : Idle s.eventQueueLock.ownerTpl (takeEvent s e) := by
      intro q hq
      change (s.eventQueue q).erase e = []
      rw [hidle q hq, erase_nil]
    refine (hn.quiet _ _ ((hinv.take e).setLevel tpl lock) hle hidle').cons ?_
    intro s'' hs''
    obtain ⟨hcalm, htpl, hsame⟩ := hs''
    refine hn.notify hcalm hp (fun hr => htpl.trans (howner hr)) ?_
    intro _
    rw [hsame.events]
    rw [takeEvent_notifyTpl]
    exact (hinv.queued p e (hqueue ▸ mem_cons_self)).level

theorem Specs.user_succ {t : Nat} (hcalm : Calm s) :
    EventSpec restores (n + 1) s [.user t] fun s' => Calm s' ∧ (restores → s'.currentTpl = t) := by
  refine spec_frame (good_user hcalm t) ?_
  intro s' fs hresume
  cases hresume with
  | advance h => exact nomatch h
  | call _ c h => exact (hn.call hcalm h).append fun s'' hs'' => hn.user s'' t hs''
  | exit _ h => exact spec_nil ⟨hcalm, h⟩

end

theorem specs (restores : Prop) (n : Nat) : Specs restores n := by
  induction n with
  | zero =>
    refine ⟨?_, ?_, ?_, ?_⟩
    · exact fun s c hinv _ => spec_zero (good_of_inv hinv (by simp))
    · exact fun s c hinv _ _ => spec_zero (good_of_inv hinv (by simp))
    · exact fun s p hinv _ _ _ => spec_zero (good_of_inv hinv (by simp))
    · exact fun s t hcalm => spec_zero (good_user hcalm t)
  | succ n hn =>
    exact ⟨fun s c hinv hc => hn.restore_succ hinv hc,
      fun s c hinv hc hidle => hn.quiet_succ hinv hc hidle,
      fun s p hinv hp hidle howner => hn.dispatch_succ hinv hp hidle howner,
      fun s t hcalm => hn.user_succ hcalm⟩

end Recursion

theorem initial_calm : Calm initial.state := by
  have hnil : ∀ tpl, initial.state.eventQueue tpl = [] := fun _ => rfl
  refine ⟨⟨?_, ?_, ?_, ?_, ?_, ?_, ?_⟩, fun p _ => hnil p, by decide⟩
  · exact fun _ => nodup_nil
  · exact fun tpl e he => absurd he not_mem_nil
  · exact fun tpl hne => absurd (hnil tpl) hne
  · exact fun tpl hset => by simp [initial] at hset
  · exact fun e hlive => absurd hlive Bool.false_ne_true
  · exact nodup_nil
  · exact fun e he => absurd he not_mem_nil

theorem initial_spec (n : Nat) :
    Spec (Resume False) (Good False) n initial.state initial.stack
      fun s' => Calm s' ∧ (False → s'.currentTpl = tplApplication) :=
  (specs False n).user _ _ initial_calm

theorem reachable_inv {c : Config EventState Frame} (h : Reachable c) : QueueInv c.state := by
  obtain ⟨s, stack⟩ := c
  cases stack with
  | nil => exact (Spec.returns initial_spec h).1.inv
  | cons f rest => exact (Spec.good initial_spec h).inv

/-- Every event is on one notification queue at most and only once, on the one of its
level, and the pending bit of a queue that is not empty is set. -/
structure QueuesSound (s : EventState) : Prop where
  once : ∀ p, (s.eventQueue p).Nodup
  oneQueue : ∀ e p q, e ∈ s.eventQueue p → e ∈ s.eventQueue q → p = q
  own : ∀ p, ∀ e ∈ s.eventQueue p, (s.events e).notifyTpl = p
  pending : ∀ p, s.eventQueue p ≠ [] → s.eventPending.getLsbD p = true

theorem reachable_queuesSound {c : Config EventState Frame} (h : Reachable c) :
    QueuesSound c.state := by
  have hinv := reachable_inv h
  refine ⟨hinv.nodup, ?_, ?_, hinv.pending⟩
  · intro e p q hp hq
    rw [← (hinv.queued p e hp).level, (hinv.queued q e hq).level]
  · intro p e he
    exact (hinv.queued p e he).level

def signalMasked : List Choice :=
  [.call (.createEvent evtNotifySignal 8 true none (some 1)), .advance, .advance,
    .call (.raiseTpl tplHighLevel), .call (.signalEvent 1), .advance, .advance]

def masked : Config EventState Frame :=
  (run signalMasked initial).getD initial

theorem masked_reachable : Reachable masked :=
  run_reaches False signalMasked rfl

theorem masked_queuesSound :
    masked.state.eventQueue 8 = [1] ∧ masked.state.eventPending.getLsbD 8 = true := by
  have hqueue : masked.state.eventQueue 8 = [1] := by decide
  have hsound : QueuesSound masked.state := reachable_queuesSound masked_reachable
  refine ⟨hqueue, hsound.pending 8 ?_⟩
  exact cons_ne_nil 1 []

/-- `CoreRestoreTpl` on its own, with notification functions that give back the level they
found: it gets by its assertions, and when it returns nothing above the new level is waiting.
Each notification starts at the level of its event, when none of a higher level is waiting. -/
theorem restoreTpl_dispatches {s : EventState} {t newTpl : Nat} {rest : List Frame}
    (h : Reachable ⟨s, .user t :: rest⟩) (hnew : newTpl ≤ s.currentTpl) :
    ∃ s₀, coreRestoreTpl s newTpl [] = some (s₀, [.restoreTpl newTpl]) ∧
      (∀ s', Reaches (Resume True) ⟨s₀, [.restoreTpl newTpl]⟩ ⟨s', []⟩ →
        s'.currentTpl = newTpl ∧ ∀ p, newTpl < p → s'.eventQueue p = []) ∧
      ∀ s' e stack, Reaches (Resume True) ⟨s₀, [.restoreTpl newTpl]⟩ ⟨s', .notify e :: stack⟩ →
        s'.currentTpl = (s'.events e).notifyTpl ∧
          ∀ p, (s'.events e).notifyTpl < p → s'.eventQueue p = [] := by
  have hcalm : Calm s := (Spec.good initial_spec h).user t rfl
  have hvalid : newTpl ≤ tplHighLevel := Nat.le_trans hnew hcalm.level
  have henter : ∃ s₀, coreRestoreTpl s newTpl [] = some (s₀, [.restoreTpl newTpl]) := by
    unfold coreRestoreTpl validTpl
    rw [if_neg (by simp [hvalid]; exact hnew)]
    split
    · exact ⟨_, rfl⟩
    · exact ⟨_, rfl⟩
  obtain ⟨s₀, henter⟩ := henter
  obtain ⟨-, -, tpl, hs₀⟩ := coreRestoreTpl_eq henter
  have hinv : QueueInv s₀ := hs₀ ▸ hcalm.inv.setLevel tpl s.eventQueueLock
  have hspec := fun n => (specs True n).restore s₀ newTpl hinv hvalid
  refine ⟨s₀, henter, ?_, ?_⟩
  · intro s' hrun
    obtain ⟨hcalm', htpl⟩ := Spec.returns hspec hrun
    exact ⟨htpl, htpl ▸ hcalm'.idle⟩
  · intro s' e stack hrun
    obtain ⟨hcalm', hlevel⟩ := (Spec.good hspec hrun).start e rfl
    exact ⟨hlevel trivial, hlevel trivial ▸ hcalm'.idle⟩

def notifyMasked : List Choice :=
  [.advance, .advance, .advance, .advance, .exit, .advance, .advance, .advance, .advance]

theorem masked_restoreTpl :
    ∃ s₀ s', coreRestoreTpl masked.state tplApplication [] =
        some (s₀, [.restoreTpl tplApplication]) ∧
      Reaches (Resume True) ⟨s₀, [.restoreTpl tplApplication]⟩ ⟨s', []⟩ ∧
      s'.currentTpl = tplApplication ∧ s'.eventQueue 8 = [] := by
  have hreach : Reachable ⟨masked.state, [.user tplApplication]⟩ := masked_reachable
  obtain ⟨s₀, henter, hreturn, -⟩ := restoreTpl_dispatches hreach
    (show tplApplication ≤ masked.state.currentTpl by decide)
  have hs₀ : s₀ = masked.state := (congrArg Prod.fst (some.inj henter)).symm
  have hrun : Reaches (Resume True) ⟨s₀, [.restoreTpl tplApplication]⟩
      ⟨((run notifyMasked ⟨masked.state, [.restoreTpl tplApplication]⟩).getD initial).state,
        []⟩ := by
    rw [hs₀]
    exact run_reaches True notifyMasked rfl
  obtain ⟨htpl, hidle⟩ := hreturn _ hrun
  exact ⟨s₀, _, henter, hrun, htpl, hidle 8 (by decide)⟩

end MuBasecore.EventRuns
