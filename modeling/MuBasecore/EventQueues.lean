import MuBasecore.EventServices

/-!
The notification queues: what the services keep of them, section by section, and
what holds of them at every point of every run.
-/

namespace MuBasecore.EventQueues

open EfiTypes EventServices Function EventState List BitVec

def Notifies (e : IEvent) : Prop :=
  e.type.has (evtNotifyWait ||| evtNotifySignal) = true

def linkage (e : IEvent) : Bool × EventType × Nat × Bool × Bool :=
  (e.signature, e.type, e.notifyTpl, e.notifyLink, e.signalLink)

structure Queued (e : IEvent) (tpl : Nat) : Prop where
  live : e.signature = true
  linked : e.notifyLink = true
  level : e.notifyTpl = tpl
  notifies : Notifies e

structure Registered (e : IEvent) : Prop where
  live : e.signature = true
  linked : e.signalLink = true
  signals : e.type.has evtNotifySignal = true

structure QueueInv (s : EventState) : Prop where
  nodup : ∀ tpl, (s.eventQueue tpl).Nodup
  queued : ∀ tpl, ∀ e ∈ s.eventQueue tpl, Queued (s.events e) tpl
  pending : ∀ tpl, s.eventQueue tpl ≠ [] → s.eventPending.getLsbD tpl = true
  bits : ∀ tpl, s.eventPending.getLsbD tpl = true → tpl < tplHighLevel
  levels : ∀ e, (s.events e).signature = true → Notifies (s.events e) →
    (s.events e).notifyTpl < tplHighLevel
  registeredNodup : s.eventSignalQueue.Nodup
  registered : ∀ e ∈ s.eventSignalQueue, Registered (s.events e)

def Idle (tpl : Nat) (s : EventState) : Prop :=
  ∀ p, tpl < p → s.eventQueue p = []

theorem has_of_and_eq {type flag mask : EventType} (h : type.has flag = true)
    (hmask : mask &&& flag = flag) : type.has mask = true := by
  simp only [EventType.has, bne_iff_ne, ne_eq] at h ⊢
  intro hzero
  apply h
  rw [← hmask, ← BitVec.and_assoc, hzero]
  exact zero_and

theorem Registered.notifies {e : IEvent} (h : Registered e) : Notifies e :=
  has_of_and_eq h.signals (by decide)

theorem pendingBit_getLsbD {tpl : Nat} (h : tpl < tplHighLevel) (i : Nat) :
    (pendingBit tpl).getLsbD i = decide (i = tpl) := by
  have hsml : ∀ tpl : Fin tplHighLevel, ∀ i : Fin 64,
      (pendingBit tpl).getLsbD i = decide (i.val = tpl.val) := by decide +kernel
  rcases Nat.lt_or_ge i 64 with hi | hi
  · exact hsml ⟨tpl, h⟩ ⟨i, hi⟩
  · rw [getLsbD_of_ge _ _ hi, eq_comm, decide_eq_false_iff_not]
    unfold tplHighLevel at h
    omega

variable {mask : BitVec 64}

theorem le_highBitSet64 {i : Nat} (h : mask.getLsbD i = true) : i ≤ highBitSet64 mask := by
  have hge : 2 ^ i ≤ mask.toNat := Nat.ge_two_pow_of_testBit h
  exact (Nat.le_log2 (by have := Nat.two_pow_pos i; omega)).2 hge

theorem getLsbD_highBitSet64 (h : mask ≠ 0) : mask.getLsbD (highBitSet64 mask) = true := by
  apply Nat.testBit_log2
  intro hzero
  exact h (eq_of_toNat_eq hzero)

section Links

variable {s s' : EventState} {e p : Nat}

section Keeps

variable (h : QueueInv s)
include h

theorem QueueInv.congr (hevs : ∀ e, linkage (s'.events e) = linkage (s.events e))
    (hq : s'.eventQueue = s.eventQueue) (hpend : s'.eventPending = s.eventPending)
    (hreg : s'.eventSignalQueue = s.eventSignalQueue) : QueueInv s' := by
  simp only [linkage, Prod.mk.injEq] at hevs
  refine ⟨?_, ?_, ?_, ?_, ?_, ?_, ?_⟩
  · rw [hq]
    exact h.nodup
  · intro tpl e he
    rw [hq] at he
    obtain ⟨hlive, htype, hlev, hlnk, -⟩ := hevs e
    obtain ⟨hlive', hlnk', hlev', hnot⟩ := h.queued tpl e he
    refine ⟨hlive.trans hlive', hlnk.trans hlnk', hlev.trans hlev', ?_⟩
    rw [Notifies, htype]
    exact hnot
  · rw [hq, hpend]
    exact h.pending
  · rw [hpend]
    exact h.bits
  · intro e
    obtain ⟨hlive, htype, hlev, -⟩ := hevs e
    rw [Notifies, hlive, htype, hlev]
    exact h.levels e
  · rw [hreg]
    exact h.registeredNodup
  · intro e he
    rw [hreg] at he
    obtain ⟨hlive, htype, -, -, hlnk⟩ := hevs e
    obtain ⟨hlive', hlnk', hsigs⟩ := h.registered e he
    exact ⟨hlive.trans hlive', hlnk.trans hlnk', htype ▸ hsigs⟩

theorem QueueInv.setEvent {f : IEvent → IEvent}
    (hf : ∀ e, linkage (f e) = linkage e) (e : Nat) : QueueInv (s.setEvent e f) := by
  refine h.congr ?_ rfl rfl rfl
  intro x
  rcases eq_or_ne x e with rfl | hx
  · rw [setEvent_self, hf]
  · rw [setEvent_of_ne f hx]

theorem QueueInv.setLevel (tpl : Nat) (lock : EfiLock) :
    QueueInv { s with currentTpl := tpl, eventQueueLock := lock } :=
  h.congr (fun _ => rfl) rfl rfl rfl

theorem QueueInv.not_mem_erase (e p : Nat) : e ∉ (s.eventQueue p).erase e :=
  (h.nodup p).not_mem_erase

theorem QueueInv.removed_eq (e : Nat) :
    (if (s.events e).notifyLink then removeNotifyLink s e else s).eventQueue =
      (removeNotifyLink s e).eventQueue := by
  cases hlink : (s.events e).notifyLink with
  | true => rfl
  | false =>
    funext p
    refine (erase_of_not_mem ?_).symm
    intro he
    rw [(h.queued p e he).linked] at hlink
    exact Bool.noConfusion hlink

end Keeps

theorem coreNotifyEvent_queue (h : QueueInv s) (e p : Nat) :
    (coreNotifyEvent s e).eventQueue p =
      (s.eventQueue p).erase e ++ if p = (s.events e).notifyTpl then [e] else [] := by
  simp only [coreNotifyEvent, setEvent, insertTail, h.removed_eq e]
  rcases eq_or_ne p (s.events e).notifyTpl with hp | hp
  · rw [hp, update_self, if_pos rfl]
    rfl
  · rw [update_of_ne hp, if_neg hp, append_nil]
    rfl

theorem notify_frame :
    (coreNotifyEvent s e).events = update s.events e { s.events e with notifyLink := true } ∧
      (coreNotifyEvent s e).eventSignalQueue = s.eventSignalQueue ∧
      (coreNotifyEvent s e).eventQueueLock = s.eventQueueLock := by
  cases hlink : (s.events e).notifyLink with
  | true => simp [coreNotifyEvent, setEvent, insertTail, removeNotifyLink, hlink]
  | false => simp [coreNotifyEvent, setEvent, insertTail, hlink]

theorem QueueInv.notify (h : QueueInv s) (hlive : (s.events e).signature = true)
    (hnot : Notifies (s.events e)) : QueueInv (coreNotifyEvent s e) := by
  have hlev := h.levels e hlive hnot
  have hbit : ∀ tpl, (coreNotifyEvent s e).eventPending.getLsbD tpl =
      (s.eventPending.getLsbD tpl || decide (tpl = (s.events e).notifyTpl)) := by
    intro tpl
    change (s.eventPending ||| pendingBit _).getLsbD tpl = _
    rw [getLsbD_or, pendingBit_getLsbD hlev]
  have hself : (coreNotifyEvent s e).events e = { s.events e with notifyLink := true } := by
    rw [notify_frame.1, update_self]
  have hoth : ∀ x, x ≠ e → (coreNotifyEvent s e).events x = s.events x := by
    intro x hx
    rw [notify_frame.1, update_of_ne hx]
  refine ⟨?_, ?_, ?_, ?_, ?_, ?_, ?_⟩
  · intro tpl
    rw [coreNotifyEvent_queue h]
    split
    · refine List.Nodup.append ((h.nodup tpl).erase e) (nodup_singleton e) ?_
      rw [disjoint_singleton]
      exact h.not_mem_erase e tpl
    · rw [append_nil]
      exact (h.nodup tpl).erase e
  · intro tpl x hx
    rw [coreNotifyEvent_queue h, mem_append] at hx
    rcases hx with hx | hx
    · have hne : x ≠ e := by
        rintro rfl
        exact h.not_mem_erase x tpl hx
      rw [hoth x hne]
      exact h.queued tpl x (mem_of_mem_erase hx)
    · split at hx
      next htpl =>
        obtain rfl := mem_singleton.1 hx
        rw [hself]
        exact ⟨hlive, rfl, htpl.symm, hnot⟩
      · exact absurd hx not_mem_nil
  · intro tpl hne
    rw [hbit]
    rcases eq_or_ne tpl (s.events e).notifyTpl with htpl | htpl
    · simp [htpl]
    · rw [coreNotifyEvent_queue h, if_neg htpl, append_nil] at hne
      have hq : s.eventQueue tpl ≠ [] := by
        intro hnil
        rw [hnil] at hne
        exact hne rfl
      rw [h.pending tpl hq, Bool.true_or]
  · intro tpl hset
    rw [hbit, Bool.or_eq_true, decide_eq_true_eq] at hset
    rcases hset with hset | rfl
    · exact h.bits tpl hset
    · exact hlev
  · intro x
    rcases eq_or_ne x e with rfl | hx
    · rw [hself]
      exact h.levels x
    · rw [hoth x hx]
      exact h.levels x
  · rw [notify_frame.2.1]
    exact h.registeredNodup
  · intro x hx
    rw [notify_frame.2.1] at hx
    obtain ⟨hlive', hlnk, hsigs⟩ := h.registered x hx
    rcases eq_or_ne x e with rfl | hne
    · rw [hself]
      exact ⟨hlive', hlnk, hsigs⟩
    · rw [hoth x hne]
      exact ⟨hlive', hlnk, hsigs⟩

theorem QueueInv.notifyAll {l : List Nat} (h : QueueInv s) (hl : ∀ e ∈ l, Registered (s.events e)) :
    QueueInv (l.foldl coreNotifyEvent s) := by
  induction l generalizing s with
  | nil => exact h
  | cons e l ih =>
    have he := hl e mem_cons_self
    refine ih (h.notify he.live he.notifies) ?_
    intro x hx
    obtain ⟨hlive, hlnk, hsigs⟩ := hl x (mem_cons_of_mem e hx)
    rw [notify_frame.1]
    rcases eq_or_ne x e with rfl | hne
    · rw [update_self]
      exact ⟨hlive, hlnk, hsigs⟩
    · rw [update_of_ne hne]
      exact ⟨hlive, hlnk, hsigs⟩

theorem notifyAll_lock (l : List Nat) (s : EventState) :
    (l.foldl coreNotifyEvent s).eventQueueLock = s.eventQueueLock := by
  induction l generalizing s with
  | nil => rfl
  | cons e l ih => exact (ih _).trans notify_frame.2.2

theorem QueueInv.notifyGroup (h : QueueInv s) (group : Guid) : QueueInv (notifyGroup s group) :=
  h.notifyAll fun e he => h.registered e (mem_filter.1 he).1

structure Unlinked (s : EventState) (e : Nat) : Prop where
  queue : ∀ tpl, e ∉ s.eventQueue tpl
  registered : e ∉ s.eventSignalQueue

section

variable (h : QueueInv s)
include h

theorem QueueInv.unlinked_of_closed (hclose : (s.events e).signature ≠ true) : Unlinked s e :=
  ⟨fun tpl he => hclose (h.queued tpl e he).live, fun he => hclose (h.registered e he).live⟩

theorem QueueInv.setUnlinked (he : Unlinked s e) (record : IEvent)
    (hlev : record.signature = true → Notifies record → record.notifyTpl < tplHighLevel)
    (hevs : s'.events = update s.events e record)
    (hq : s'.eventQueue = s.eventQueue) (hpend : s'.eventPending = s.eventPending)
    (hreg : s'.eventSignalQueue = s.eventSignalQueue) : QueueInv s' := by
  have hoth : ∀ x, x ≠ e → s'.events x = s.events x := by
    intro x hx
    rw [hevs, update_of_ne hx]
  refine ⟨?_, ?_, ?_, ?_, ?_, ?_, ?_⟩
  · rw [hq]
    exact h.nodup
  · intro tpl x hx
    rw [hq] at hx
    rw [hoth x fun heq => he.queue tpl (heq ▸ hx)]
    exact h.queued tpl x hx
  · rw [hq, hpend]
    exact h.pending
  · rw [hpend]
    exact h.bits
  · intro x
    rcases eq_or_ne x e with rfl | hx
    · rw [hevs, update_self]
      exact hlev
    · rw [hoth x hx]
      exact h.levels x
  · rw [hreg]
    exact h.registeredNodup
  · intro x hx
    rw [hreg] at hx
    rw [hoth x fun heq => he.registered (heq ▸ hx)]
    exact h.registered x hx

theorem QueueInv.register (he : Registered (s.events e)) (hnew : e ∉ s.eventSignalQueue) :
    QueueInv { s with eventSignalQueue := e :: s.eventSignalQueue } := by
  refine ⟨h.nodup, h.queued, h.pending, h.bits, h.levels, ?_, ?_⟩
  · exact nodup_cons.2 ⟨hnew, h.registeredNodup⟩
  · intro x hx
    rcases mem_cons.1 hx with rfl | hx
    · exact he
    · exact h.registered x hx

theorem QueueInv.sublist (hevs : s'.events = s.events)
    (hq : ∀ tpl, (s'.eventQueue tpl).Sublist (s.eventQueue tpl))
    (hpend : s'.eventPending = s.eventPending)
    (hreg : s'.eventSignalQueue.Sublist s.eventSignalQueue) : QueueInv s' := by
  refine ⟨?_, ?_, ?_, ?_, ?_, ?_, ?_⟩
  · intro tpl
    exact (h.nodup tpl).sublist (hq tpl)
  · intro tpl x hx
    rw [hevs]
    exact h.queued tpl x ((hq tpl).subset hx)
  · intro tpl hne
    rw [hpend]
    apply h.pending tpl
    intro hnil
    have hsub := hq tpl
    rw [hnil] at hsub
    exact hne (sublist_nil.1 hsub)
  · rw [hpend]
    exact h.bits
  · rw [hevs]
    exact h.levels
  · exact h.registeredNodup.sublist hreg
  · intro x hx
    rw [hevs]
    exact h.registered x (hreg.subset hx)

theorem QueueInv.unlink (e : Nat) : QueueInv (unlinkEvent s e) := by
  refine h.sublist rfl ?_ rfl ?_
  · intro tpl
    simp only [unlinkEvent]
    split
    · exact erase_sublist
    · exact List.Sublist.refl _
  · simp only [unlinkEvent]
    split
    · exact erase_sublist
    · exact List.Sublist.refl _

theorem QueueInv.unlinkEvent_unlinked (e : Nat) : Unlinked (unlinkEvent s e) e := by
  refine ⟨?_, ?_⟩
  · intro tpl he
    simp only [unlinkEvent] at he
    split at he
    · exact h.not_mem_erase e tpl he
    next hlink =>
      exact hlink (h.queued tpl e he).linked
  · intro he
    simp only [unlinkEvent] at he
    split at he
    · exact h.registeredNodup.not_mem_erase he
    next hlink =>
      exact hlink (h.registered e he).linked

theorem QueueInv.take (e : Nat) : QueueInv (takeEvent s e) := by
  have hrem : QueueInv (removeNotifyLink s e) :=
    h.sublist rfl (fun _ => erase_sublist) rfl (List.Sublist.refl _)
  have hoth : ∀ x, x ≠ e → (takeEvent s e).events x = s.events x :=
    fun x hx => setEvent_of_ne _ hx
  have hself : ∃ n, (takeEvent s e).events e =
      { s.events e with notifyLink := false, signalCount := n } :=
    ⟨_, setEvent_self _ _⟩
  obtain ⟨n, hself⟩ := hself
  refine ⟨hrem.nodup, ?_, hrem.pending, hrem.bits, ?_, hrem.registeredNodup, ?_⟩
  · intro tpl x hx
    rw [hoth x fun heq => h.not_mem_erase e tpl (heq ▸ hx)]
    exact hrem.queued tpl x hx
  · intro x
    rcases eq_or_ne x e with rfl | hx
    · rw [hself]
      exact h.levels x
    · rw [hoth x hx]
      exact h.levels x
  · intro x hx
    obtain ⟨hlive, hlnk, hsigs⟩ := h.registered x hx
    rcases eq_or_ne x e with rfl | hne
    · rw [hself]
      exact ⟨hlive, hlnk, hsigs⟩
    · rw [hoth x hne]
      exact ⟨hlive, hlnk, hsigs⟩

end

theorem takeEvent_notifyTpl : ((takeEvent s e).events e).notifyTpl = (s.events e).notifyTpl := by
  rw [takeEvent, setEvent_self]
  rfl

theorem QueueInv.clear (h : QueueInv s) (hp : p < tplHighLevel) (hempty : s.eventQueue p = []) :
    QueueInv { s with eventPending := s.eventPending &&& ~~~(pendingBit p) } := by
  have hbit : ∀ i, (s.eventPending &&& ~~~(pendingBit p)).getLsbD i =
      (s.eventPending.getLsbD i && (decide (i < 64) && !decide (i = p))) := by
    intro i
    rw [getLsbD_and, getLsbD_not, pendingBit_getLsbD hp]
  refine ⟨h.nodup, h.queued, ?_, ?_, h.levels, h.registeredNodup, h.registered⟩
  · intro tpl hne
    have hset := h.pending tpl hne
    have htpl : tpl ≠ p := by
      rintro rfl
      exact hne hempty
    have hlt : tpl < 64 := Nat.lt_trans (h.bits tpl hset) (by decide)
    rw [hbit, hset, decide_eq_true hlt, decide_eq_false htpl]
    rfl
  · intro tpl hset
    rw [hbit, Bool.and_eq_true] at hset
    exact h.bits tpl hset.1

end Links

end MuBasecore.EventQueues
