import MuBasecore.TimerRuns

/-!
When `CoreCheckTimers` returns. A late periodic timer is armed for the current time and comes
again in the same loop; it leaves it unless the sum of that time and its period wraps.
-/

namespace MuBasecore.TimerReturns

open EfiTypes Word64 EventServices TimerServices TimerRuns List

/-- The timer database as `CoreInsertEventTimer` keeps it. -/
structure Sorted (s : EventState) : Prop where
  once : s.timerList.Nodup
  sorted : s.timerList.Pairwise fun a b => triggerTime s a ≤ triggerTime s b

/-- A due periodic timer is armed for a later time now or when it comes again. -/
def Moves (now : Nat) (s : EventState) (e : Nat) : Prop :=
  triggerTime s e ≤ now → period s e ≠ 0 →
    now < add64 (triggerTime s e) (period s e) ∨ now < add64 now (period s e)

instance (now : Nat) (s : EventState) (e : Nat) : Decidable (Moves now s e) :=
  inferInstanceAs (Decidable (_ → _))

/-- How often the loop still meets a timer that moves. -/
def rounds (now : Nat) (s : EventState) (e : Nat) : Nat :=
  if now < triggerTime s e then 0
  else if period s e = 0 ∨ now < add64 (triggerTime s e) (period s e) then 1
  else 2

variable {s s' : EventState} {event now fuel : Nat} {rest : List Nat}

structure Expired (now event : Nat) (rest : List Nat) (s s' : EventState) : Prop where
  sorted : Sorted s'
  other : ∀ e, e ≠ event → triggerTime s' e = triggerTime s e
  same : ∀ e, period s' e = period s e
  list : period s event = 0 ∧ s'.timerList = rest ∨
    period s event ≠ 0 ∧ s'.timerList.Perm (event :: rest) ∧
      triggerTime s' event = nextTrigger s event now

theorem expireTimer_expired (hs : Sorted s) (hlist : s.timerList = event :: rest) (now : Nat) :
    Expired now event rest s (expireTimer s event now) := by
  have honce := hs.once
  have hsorted := hs.sorted
  rw [hlist] at honce hsorted
  have hnot : event ∉ rest := (nodup_cons.1 honce).1
  have hrest : ∀ {s' : EventState}, Without event s s' → s'.timerList = rest ∧
      (∀ e, e ≠ event → triggerTime s' e = triggerTime s e) ∧
      rest.Pairwise fun a b => triggerTime s' a ≤ triggerTime s' b := by
    intro s' hw
    have htime : ∀ e, e ≠ event → triggerTime s' e = triggerTime s e := by
      intro e hne
      rw [triggerTime, hw.timer e hne, triggerTime]
    refine ⟨by rw [hw.list, hlist, erase_cons_head], htime, ?_⟩
    refine (pairwise_cons.1 hsorted).2.imp_of_mem fun ha hb hab => ?_
    rwa [htime _ (ne_of_mem_of_not_mem ha hnot), htime _ (ne_of_mem_of_not_mem hb hnot)]
  rcases expireTimer_cases s event now with ⟨hzero, hw⟩ | ⟨hne, s₁, hw, hnext, -, -, heq⟩
  · obtain ⟨htail, hoth, hpair⟩ := hrest hw
    refine ⟨⟨?_, ?_⟩, hoth, period_expireTimer event now, .inl ⟨hzero, htail⟩⟩
    · rw [htail]
      exact (nodup_cons.1 honce).2
    · rwa [htail]
  · obtain ⟨htail, hoth, hpair⟩ := hrest hw
    have htime : ∀ e, triggerTime (expireTimer s event now) e = triggerTime s₁ e := by
      intro e
      rw [heq, coreInsertEventTimer]
      rcases eq_or_ne e event with rfl | hne
      · rw [triggerTime, setEvent_self, triggerTime]
      · rw [triggerTime, setEvent_of_ne _ hne, triggerTime]
    have htimers : (expireTimer s event now).timerList =
        rest.orderedInsert (fun a b => triggerTime s₁ a < triggerTime s₁ b) event := by
      rw [heq, ← htail]
      rfl
    have hperm : (expireTimer s event now).timerList.Perm (event :: rest) := by
      rw [htimers]
      exact perm_orderedInsert _ event rest
    refine ⟨⟨hperm.nodup_iff.2 honce, ?_⟩, fun e he => (htime e).trans (hoth e he),
      period_expireTimer event now, .inr ⟨hne, hperm, (htime event).trans hnext⟩⟩
    simp only [htime]
    rw [htimers]
    refine pairwise_orderedInsert (fun _ _ => le_trans) (fun b _ => ?_) hpair
    split <;> omega

section

variable (h : Expired now event rest s s') (hle : triggerTime s event ≤ now)
include h hle

theorem Expired.moves_iff (e : Nat) : Moves now s' e ↔ Moves now s e := by
  rw [Moves, Moves, h.same]
  rcases eq_or_ne e event with rfl | hne
  · rcases h.list with ⟨hzero, -⟩ | ⟨-, -, hnext⟩
    · simp [hzero]
    · rw [hnext, nextTrigger]
      split <;> omega
  · rw [h.other e hne]

theorem Expired.rounds_lt (hnot : event ∉ rest) (hmoves : Moves now s event) :
    (s'.timerList.map (rounds now s')).sum < ((event :: rest).map (rounds now s)).sum := by
  have hsame : rest.map (rounds now s') = rest.map (rounds now s) := by
    refine map_congr_left fun e he => ?_
    rw [rounds, rounds, h.same, h.other e (ne_of_mem_of_not_mem he hnot)]
  rcases h.list with ⟨hzero, htail⟩ | ⟨hne, hperm, hnext⟩
  · rw [htail, hsame, map_cons, sum_cons, rounds, if_neg (by omega), if_pos (.inl hzero)]
    omega
  · rw [(hperm.map _).sum_nat, map_cons, map_cons, hsame, sum_cons, sum_cons]
    refine Nat.add_lt_add_right ?_ _
    have hmoves := hmoves hle hne
    rw [rounds, rounds, h.same, hnext, nextTrigger]
    split_ifs <;> omega

end

theorem checkTimersLoop_returns (hs : Sorted s) (hmoves : ∀ e ∈ s.timerList, Moves now s e)
    (hfuel : (s.timerList.map (rounds now s)).sum < fuel) :
    ∃ s' l, checkTimersLoop fuel s now = some (s', l) ∧
      ∀ e ∈ s'.timerList, now < triggerTime s' e := by
  induction fuel generalizing s with
  | zero => omega
  | succ fuel ih =>
    rw [checkTimersLoop]
    cases hlist : s.timerList with
    | nil => exact ⟨s, [], rfl, by simp [hlist]⟩
    | cons event rest =>
      have hsorted := hs.sorted
      have honce := hs.once
      rw [hlist] at hsorted honce hmoves hfuel
      dsimp only
      split
      next hlater =>
        refine ⟨s, [], rfl, fun e he => ?_⟩
        rw [hlist] at he
        rcases mem_cons.1 he with rfl | he
        · exact hlater
        · exact hlater.trans_le ((pairwise_cons.1 hsorted).1 e he)
      next hdue =>
        have hle := Nat.le_of_not_lt hdue
        have hexp := expireTimer_expired hs hlist now
        have hlt := hexp.rounds_lt hle (nodup_cons.1 honce).1 (hmoves _ mem_cons_self)
        have hmoves' : ∀ e ∈ (expireTimer s event now).timerList,
            Moves now (expireTimer s event now) e := by
          intro e he
          refine (hexp.moves_iff hle e).2 (hmoves e ?_)
          rcases hexp.list with ⟨-, htail⟩ | ⟨-, hperm, -⟩
          · exact mem_cons_of_mem _ (htail ▸ he)
          · exact hperm.mem_iff.1 he
        obtain ⟨s', l, hrun, hafter⟩ := ih hexp.sorted hmoves' (by omega)
        exact ⟨s', event :: l, by rw [hrun, Option.map_some], hafter⟩

theorem checkTimersLoop_stuck {e : Nat} (hs : Sorted s) (he : e ∈ s.timerList)
    (hstuck : ¬ Moves now s e) (fuel : Nat) : checkTimersLoop fuel s now = none := by
  induction fuel generalizing s with
  | zero => rfl
  | succ fuel ih =>
    rw [checkTimersLoop]
    obtain ⟨event, rest, hlist⟩ := exists_cons_of_ne_nil (ne_nil_of_mem he)
    have hlate : triggerTime s e ≤ now ∧ period s e ≠ 0 := by
      rw [Moves] at hstuck
      tauto
    have hsorted := hs.sorted
    rw [hlist] at hsorted he ⊢
    dsimp only
    have hle : triggerTime s event ≤ now := by
      rcases mem_cons.1 he with rfl | hrest
      · exact hlate.1
      · exact le_trans ((pairwise_cons.1 hsorted).1 e hrest) hlate.1
    have hexp := expireTimer_expired hs hlist now
    rw [if_neg (not_lt.2 hle), ih hexp.sorted ?_ ?_]
    · rfl
    · rcases hexp.list with ⟨hzero, htail⟩ | ⟨-, hperm, -⟩
      · rw [htail]
        exact (mem_cons.1 he).resolve_left fun heq => hlate.2 (heq ▸ hzero)
      · exact hperm.mem_iff.2 he
    · rwa [hexp.moves_iff hle]

/-- `CoreCheckTimers` returns, and leaves no timer that is due, just if every due periodic timer
moves. -/
theorem coreCheckTimers_returns_iff (hs : Sorted s) :
    (∃ fuel s' l, coreCheckTimers fuel s = some (s', l) ∧
        ∀ e ∈ s'.timerList, s.systemTime < triggerTime s' e) ↔
      ∀ e ∈ s.timerList, Moves s.systemTime s e := by
  constructor
  · rintro ⟨fuel, s', l, hrun, -⟩ e he
    by_contra hstuck
    rw [coreCheckTimers, checkTimersLoop_stuck hs he hstuck fuel] at hrun
    cases hrun
  · intro hmoves
    exact ⟨_, checkTimersLoop_returns hs hmoves (Nat.lt_succ_self _)⟩

/-- Ten units are over twice. -/
theorem everyTen_returns : ∃ t : Timers, Run Fits 1 t ∧ t.state.systemTime = 25 ∧
    ∃ fuel s' l, coreCheckTimers fuel t.state = some (s', l) ∧
      ∀ e ∈ s'.timerList, t.state.systemTime < triggerTime s' e := by
  have hcreate : Run Fits 1 _ := .call (.createEvent 2 evtTimer 0 false none) .start trivial rfl
  have harm : Run Fits 1 _ :=
    .call (.setTimer 2 timerPeriodic 10 0) hcreate (fun _ _ => by decide) rfl
  have htick : Run Fits 1 _ := .call (.timerTick 25) harm trivial rfl
  exact ⟨_, htick, by decide,
    (coreCheckTimers_returns_iff ⟨by decide, by decide⟩).2 (by decide)⟩

/-- A timer with the longest period, armed at time 2, keeps the loop going. -/
theorem longestPeriod_stuck : ∃ t : Timers, Run (fun _ _ => True) 1 t ∧ t.state.systemTime = 2 ∧
    ∀ fuel, coreCheckTimers fuel t.state = none := by
  have hcreate : Run (fun _ _ => True) 1 _ :=
    .call (.createEvent 2 evtTimer 0 false none) .start trivial rfl
  have htick : Run (fun _ _ => True) 1 _ := .call (.timerTick 2) hcreate trivial rfl
  have harm : Run (fun _ _ => True) 1 _ :=
    .call (.setTimer 2 timerPeriodic (2 ^ 64 - 1) 0) htick trivial rfl
  exact ⟨_, harm, by decide,
    checkTimersLoop_stuck ⟨by decide, by decide⟩ mem_cons_self (by decide)⟩

end MuBasecore.TimerReturns
