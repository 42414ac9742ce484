import MuBasecore.VariableReclaim

/-!
`Reclaim` on the records of a store: what the buffer holds after each of its loops, and
the records of the store that it leaves behind.
-/

namespace MuBasecore.ReclaimRecords

open ByteMemory EfiTypes RecordLog SlotBuffer VariableFormat VariableLookup VariableReclaim Bool
open Function VariableRecord List

variable {a : Nat} {l : List Nat} {new : NewVariable} {updating : Option Nat}

/-- The second loop of `Reclaim` on records. -/
def reinstalled (kept : List VariableRecord) : List VariableRecord → List VariableRecord
  | [] => kept
  | r :: rs =>
    if r.inDeleted ∧ kept.any (hasKey r.name r.guid) = false then
      reinstalled (kept ++ [{ r with state := varAdded }]) rs
    else reinstalled kept rs

/-- The buffer holds the records, and `0xff` in its free part. -/
structure Holds (auth : Bool) (size : Nat) (buffer : ValidBuffer) (rs : List VariableRecord) :
    Prop where
  log : ∃ l, StoreLog auth buffer.bytes size l buffer.currPtr ∧
    l.map (variableRecord auth buffer.bytes) = rs
  free : ∀ i, buffer.currPtr ≤ i → buffer.bytes i = 0xff

variable {n x : Nat} {result : ReclaimResult} {updating₂ : Option Nat} {auth : Bool} {size : Nat}
  {buffer : ValidBuffer} {rs : List VariableRecord}

theorem holds_empty (auth : Bool) (size : Nat) (m : Memory) :
    Holds auth size (emptyBuffer m) [] := by
  have hfree : ∀ i, getStartPointer ≤ i → (emptyBuffer m).bytes i = 0xff := by
    intro i hi
    rw [getStartPointer_eq] at hi
    exact if_neg (by rw [sizeOfVariableStoreHeader]; omega)
  refine ⟨⟨[], ?_, rfl⟩, hfree⟩
  exact .nil fun _ => format_length_erased (hfree _ le_rfl)

section Held

variable (h : Holds auth size buffer rs)
include h

theorem Holds.dvd_currPtr : 4 ∣ buffer.currPtr := by
  obtain ⟨l, hlog, _⟩ := h.log
  exact hlog.dvd (dvd_startPtr auth)

theorem Holds.append {src : Memory} (ha : 4 ∣ a)
    (hst : startId src a = variableData) {buffer' : ValidBuffer}
    (hcurr : buffer'.currPtr = buffer.currPtr + variableSize auth src a)
    (hstop : buffer'.currPtr ≤ size)
    (hnew : ∀ i < variableSize auth src a, buffer'.bytes (buffer.currPtr + i) = src (a + i))
    (hold : ∀ i, i < buffer.currPtr ∨ buffer'.currPtr ≤ i → buffer'.bytes i = buffer.bytes i) :
    Holds auth size buffer' (rs ++ [variableRecord auth src a]) := by
  obtain ⟨l, hlog, hrs⟩ := h.log
  have hdvd := h.dvd_currPtr
  have hfree : ∀ i, buffer'.currPtr ≤ i → buffer'.bytes i = 0xff := by
    intro i hi
    rw [hold i (.inr hi)]
    exact h.free i (by omega)
  have hlen : (storeFormat auth).length buffer'.bytes buffer.currPtr =
      some (variableSize auth src a) :=
    (storeFormat auth).length_copy ha hdvd (format_length ha hst) hnew
  have hpos := (storeFormat auth).length_pos hlen
  have hend : size ≤ getEndPointer size := le_headerAlign size
  have hagree : ∀ i, getStartPointer ≤ i → i < buffer.currPtr →
      buffer'.bytes i = buffer.bytes i := fun i _ hi => hold i (.inl hi)
  refine ⟨⟨l ++ [buffer.currPtr], ?_, ?_⟩, hfree⟩
  · apply hlog.append
    · intro x hx
      exact hlog.length_eq_of_agree (dvd_startPtr auth) hagree hx
    · refine .cons (by omega) hlen ?_
      rw [← hcurr]
      exact .nil fun _ => format_length_erased (hfree _ le_rfl)
  · rw [map_append, map_singleton, record_copy hnew, ← hrs]
    congr 1
    apply map_congr_left
    intro x hx
    apply record_copy
    intro i hi
    obtain ⟨hx28, _, n, hn, hlast⟩ := hlog.of_mem hx
    have hxn := ((format_length_iff (hlog.dvd_of_mem (dvd_startPtr auth) hx)).1 hn).2
    exact hold _ (.inl (by omega))

section

variable (vol : Bool) (isUser : Memory → Nat → Bool) {m : Memory} (ha : 4 ∣ a)
  (hst : startId m a = variableData)
include ha hst

theorem Holds.install_none (hstop : buffer.currPtr + variableSize auth m a ≤ size) :
    Holds auth size (buffer.install vol isUser m a (variableSize auth m a) none)
      (rs ++ [variableRecord auth m a]) := by
  apply h.append ha hst rfl hstop
  · intro i hi
    exact copyBytes_add hi
  · intro i hi
    exact copyBytes_of_not hi

theorem Holds.install_some {s : Byte} (hn : n = variableSize auth (setState m a s) a)
    (hstop : buffer.currPtr + n ≤ size) :
    Holds auth size (buffer.install vol isUser m a n (some s))
      (rs ++ [variableRecord auth (setState m a s) a]) := by
  subst hn
  have hheader := le_variableSize auth (setState m a s) a
  have hheaderSize := headerSize_eq auth
  apply h.append ha (by rw [startId_setState, hst]) rfl hstop
  · intro i hi
    change update _ _ _ _ = _
    by_cases h2 : i = 2
    · rw [h2, update_self, setState, update_self]
    · rw [update_of_ne (by omega), copyBytes_add hi,
        setState_of_ne s (by omega)]
  · intro i hi
    change i < _ ∨ buffer.currPtr + variableSize auth (setState m a s) a ≤ i at hi
    change update _ _ _ _ = _
    rw [update_of_ne (by omega), copyBytes_of_not hi]

end

theorem Holds.foundAdded_eq (m : Memory) (x : Nat) :
    foundAdded auth m size x buffer =
      rs.any (hasKey (variableRecord auth m x).name (variableRecord auth m x).guid) := by
  obtain ⟨l, hlog, rfl⟩ := h.log
  rw [foundAdded, variableOffsets, hlog.walkStore_eq, any_map]
  congr 1
  funext y
  simp only [comp_apply, hasKey, variableRecord]
  rw [Bool.eq_iff_iff, and_eq_true, and_eq_true, and_eq_true, beq_iff_eq,
    beq_iff_eq, beq_iff_eq, beq_iff_eq]
  constructor
  · rintro ⟨⟨hguid, hsize⟩, hname⟩
    exact ⟨hguid, by rw [hname, hsize]⟩
  · rintro ⟨hguid, hname⟩
    have hsize : nameSizeOfVariable auth buffer.bytes y = nameSizeOfVariable auth m x := by
      have := congrArg length hname
      rwa [length_slotRange, length_slotRange] at this
    exact ⟨⟨hguid, hsize⟩, by rw [hname, hsize]⟩

end Held

variable {vol : Bool}

section Loops

variable (auth : Bool) (m : Memory)

def spaceOf (p : VariableRecord → Bool) (l : List Nat) : Nat :=
  ((l.filter fun x => p (variableRecord auth m x)).map (variableSize auth m)).sum

variable {auth m}

theorem spaceOf_cons (p : VariableRecord → Bool) :
    spaceOf auth m p (x :: l) =
      (if p (variableRecord auth m x) then variableSize auth m x else 0) + spaceOf auth m p l := by
  by_cases hp : p (variableRecord auth m x) <;> simp [spaceOf, hp]

section

variable (isUser : Memory → Nat → Bool) (hl : ∀ x ∈ l, 4 ∣ x ∧ startId m x = variableData)
  (h : Holds auth size buffer rs)
include hl h

theorem reinstallAdded_holds (hspc : buffer.currPtr + spaceOf auth m added l ≤ size) :
    Holds auth size (reinstallAdded auth vol isUser m updating l buffer)
        (rs ++ ((l.filter (some · ≠ updating)).map (variableRecord auth m)).filter added) ∧
      (reinstallAdded auth vol isUser m updating l buffer).currPtr ≤
        buffer.currPtr + spaceOf auth m added l := by
  induction l generalizing buffer rs with
  | nil => simpa [reinstallAdded, spaceOf] using h
  | cons x l ih =>
    obtain ⟨⟨hx, hst⟩, hl'⟩ := forall_mem_cons.1 hl
    rw [spaceOf_cons] at hspc ⊢
    rw [reinstallAdded, nextPtr_sub hx]
    by_cases hadd : variableState m x = varAdded
    · have hadd' : (variableRecord auth m x).added := beq_iff_eq.2 hadd
      rw [if_pos hadd'] at hspc ⊢
      by_cases hupd : some x = updating
      · rw [if_neg fun hc => hc.1 hupd, filter_cons_of_neg (by simp [hupd])]
        obtain ⟨hhold, hcurr⟩ := ih hl' h (by omega)
        exact ⟨hhold, by omega⟩
      · rw [if_pos ⟨hupd, hadd⟩, filter_cons_of_pos (by simp [hupd]), map_cons,
          filter_cons_of_pos hadd', append_cons]
        have hstep := h.install_none vol isUser hx hst (by omega)
        obtain ⟨hhold, hcurr⟩ := ih hl' hstep
          (by change buffer.currPtr + variableSize auth m x + _ ≤ _; omega)
        refine ⟨hhold, ?_⟩
        change _ ≤ buffer.currPtr + variableSize auth m x + _ at hcurr
        omega
    · have hadd' : ¬ (variableRecord auth m x).added := fun hc => hadd (beq_iff_eq.1 hc)
      rw [if_neg hadd', zero_add] at hspc ⊢
      rw [if_neg fun hc => hadd hc.2]
      obtain ⟨hhold, hcurr⟩ := ih hl' h hspc
      refine ⟨?_, hcurr⟩
      by_cases hupd : some x = updating
      · rwa [filter_cons_of_neg (by simp [hupd])]
      · rwa [filter_cons_of_pos (by simp [hupd]), map_cons,
          filter_cons_of_neg hadd']

theorem reinstallInDeleted_holds (hspc : buffer.currPtr + spaceOf auth m inDeleted l ≤ size) :
    Holds auth size (reinstallInDeleted auth vol isUser m size updating updating₂ l buffer)
        (reinstalled rs ((l.filter fun x => some x ≠ updating ∧ some x ≠ updating₂).map
          (variableRecord auth m))) ∧
      (reinstallInDeleted auth vol isUser m size updating updating₂ l
        buffer).currPtr ≤ buffer.currPtr + spaceOf auth m inDeleted l := by
  induction l generalizing buffer rs with
  | nil => simpa [reinstallInDeleted, spaceOf, reinstalled] using h
  | cons x l ih =>
    obtain ⟨⟨hx, hst⟩, hl'⟩ := forall_mem_cons.1 hl
    rw [spaceOf_cons] at hspc ⊢
    rw [reinstallInDeleted, nextPtr_sub hx]
    by_cases hupd : some x ≠ updating ∧ some x ≠ updating₂
    · rw [filter_cons_of_pos (by simp [hupd]), map_cons, reinstalled,
        h.foundAdded_eq m x]
      by_cases hkeep : (variableRecord auth m x).inDeleted ∧
          rs.any (hasKey (variableRecord auth m x).name (variableRecord auth m x).guid) = false
      · have hstt : variableState m x = varInDeleted := beq_iff_eq.1 hkeep.1
        rw [if_pos hkeep, if_pos ⟨hupd.1, hupd.2, hstt, hkeep.2⟩]
        rw [if_pos hkeep.1] at hspc ⊢
        have hval : variableState m x ≠ 0xff := by
          rw [hstt]
          decide
        have hstep := h.install_some vol isUser hx hst
          (variableSize_setState (show varAdded ≠ 0xff by decide) hval).symm (by omega)
        rw [record_setState (by decide) hval] at hstep
        obtain ⟨hhold, hcurr⟩ := ih hl' hstep
          (by change buffer.currPtr + variableSize auth m x + _ ≤ _; omega)
        refine ⟨hhold, ?_⟩
        change _ ≤ buffer.currPtr + variableSize auth m x + _ at hcurr
        omega
      · rw [if_neg hkeep, if_neg fun hc => hkeep ⟨beq_iff_eq.2 hc.2.2.1, hc.2.2.2⟩]
        obtain ⟨hhold, hcurr⟩ := ih hl' h (by omega)
        exact ⟨hhold, by omega⟩
    · rw [filter_cons_of_neg (by simpa using hupd),
        if_neg fun hc => hupd ⟨hc.1, hc.2.1⟩]
      obtain ⟨hhold, hcurr⟩ := ih hl' h (by omega)
      exact ⟨hhold, by omega⟩

end

end Loops

variable {m : Memory}

def LiveInside (auth : Bool) (m : Memory) (size : Nat) : Prop :=
  ∀ x ∈ variableOffsets auth m size, (variableRecord auth m x).live →
    x + variableSize auth m x ≤ size

theorem spaceOf_live :
    spaceOf auth m live l = spaceOf auth m added l + spaceOf auth m inDeleted l := by
  induction l with
  | nil => rfl
  | cons x l ih =>
    rw [spaceOf_cons, spaceOf_cons, spaceOf_cons, ih]
    by_cases hadd : (variableRecord auth m x).added
    · have hdel := not_inDeleted hadd
      rw [if_pos (by simp [live, hadd]), if_pos hadd, if_neg hdel]
      omega
    · by_cases hdel : (variableRecord auth m x).inDeleted
      · rw [if_pos (by simp [live, hdel]), if_neg hadd, if_pos hdel]
        omega
      · rw [if_neg (by simp [live, hadd, hdel]), if_neg hadd, if_neg hdel]
        omega

theorem spaceOf_live_le {stop e : Nat} (ha : 4 ∣ a) (h : Log (storeFormat auth) m stop a l e)
    (hinside : ∀ x ∈ l, (variableRecord auth m x).live → x + variableSize auth m x ≤ size) :
    a + spaceOf auth m live l ≤ max a size := by
  induction h with
  | nil =>
    change _ + 0 ≤ _
    omega
  | @cons a n e l hstop hn hlog ih =>
    have hsize := ((format_length_iff ha).1 hn).2
    have hrest := ih (Nat.dvd_add ha ((storeFormat auth).dvd_length ha hn))
      fun x hx => hinside x (mem_cons_of_mem _ hx)
    rw [spaceOf_cons]
    by_cases hlive : (variableRecord auth m a).live
    · have hin := hinside a mem_cons_self hlive
      rw [if_pos hlive]
      omega
    · rw [if_neg hlive]
      omega

theorem variableOffsets_dvd (hx : x ∈ variableOffsets auth m size) :
    4 ∣ x ∧ startId m x = variableData := by
  have hlog := storeLog_walk auth m size
  have hdvd := hlog.dvd_of_mem (dvd_startPtr auth) hx
  obtain ⟨_, _, n, hn, _⟩ := hlog.of_mem hx
  exact ⟨hdvd, ((format_length_iff hdvd).1 hn).1⟩

/-- The records that `Reclaim` keeps. -/
def keptRecords (auth : Bool) (m : Memory) (size : Nat)
    (updating updatingInDeleted : Option Nat) : List VariableRecord :=
  reinstalled
    ((((variableOffsets auth m size).filter (some · ≠ updating)).map
      (variableRecord auth m)).filter VariableRecord.added)
    (((variableOffsets auth m size).filter fun x =>
      some x ≠ updating ∧ some x ≠ updatingInDeleted).map (variableRecord auth m))

theorem keptVariables_holds (vol : Bool) (isUser : Memory → Nat → Bool)
    (updating updating₂ : Option Nat) (hst : getStartPointer ≤ size)
    (hinside : LiveInside auth m size) :
    Holds auth size (keptVariables auth vol isUser m size updating updating₂)
        (keptRecords auth m size updating updating₂) ∧
      (keptVariables auth vol isUser m size updating updating₂).currPtr ≤ size := by
  have hlog := storeLog_walk auth m size
  have hspc := spaceOf_live_le (dvd_startPtr auth) hlog hinside
  rw [spaceOf_live] at hspc
  have hoffs : ∀ x ∈ variableOffsets auth m size, 4 ∣ x ∧ startId m x = variableData :=
    fun x hx => variableOffsets_dvd hx
  obtain ⟨hadd, hcurr⟩ := reinstallAdded_holds isUser hoffs
    (holds_empty auth size m) (by change getStartPointer + _ ≤ _; omega)
  change _ ≤ getStartPointer + _ at hcurr
  obtain ⟨hdel, hcurr'⟩ := reinstallInDeleted_holds isUser hoffs hadd (by omega)
  exact ⟨hdel, by rw [keptVariables]; omega⟩

theorem Holds.layout (h : Holds auth size buffer rs) (hcurr : buffer.currPtr ≤ size) (m : Memory) :
    ∃ l, StoreLayout auth (buffer.result m size).store size l buffer.currPtr ∧
      l.map (variableRecord auth (buffer.result m size).store) = rs := by
  obtain ⟨l, hlog, hrs⟩ := h.log
  have hlay : StoreLayout auth buffer.bytes size l buffer.currPtr :=
    ⟨hlog, hcurr, fun i hi _ => h.free i hi⟩
  have hstore : ∀ i, i < size → (buffer.result m size).store i = buffer.bytes i :=
    fun i hi => if_pos hi
  refine ⟨l, hlay.congr hstore, ?_⟩
  rw [← hrs]
  exact map_congr_left fun x hx => hlay.record_congr hstore hx

theorem reclaim_some (vol : Bool) (isUser : Memory → Nat → Bool)
    (limits : SpaceLimits) (updating updating₂ : Option Nat)
    (hst : getStartPointer ≤ size) (hinside : LiveInside auth m size)
    (hnew : startId new.memory 0 = variableData)
    (hsize : new.size = variableSize auth (setState new.memory 0 varAdded) 0)
    (h : reclaim auth vol isUser limits m size updating updating₂ (some new) = .ok result) :
    ∃ l, StoreLayout auth result.store size l result.lastVariableOffset ∧
      l.map (variableRecord auth result.store) =
        keptRecords auth m size updating updating₂ ++
          [variableRecord auth (setState new.memory 0 varAdded) 0] := by
  obtain ⟨hhold, hcurr⟩ :=
    keptVariables_holds vol isUser updating updating₂ hst hinside
  simp only [reclaim, installNewVariable] at h
  split at h
  · cases h
  next hroom =>
    split at h
    · cases h
    · cases h
      have hinst := hhold.install_some vol isUser (s := varAdded) (dvd_zero 4) hnew hsize (by omega)
      have hcurr' : _ + new.size ≤ size := Nat.le_of_not_lt hroom
      exact hinst.layout hcurr' m

theorem reclaim_error (isUser : Memory → Nat → Bool) (limits : SpaceLimits) {status : EfiStatus}
    (h : reclaim auth vol isUser limits m size updating updating₂
      (some new) = .error status) : status = .outOfResources := by
  simp only [reclaim, installNewVariable] at h
  split at h
  · cases h
    rfl
  · split at h
    · cases h
      rfl
    · cases h

variable {isUser : Memory → Nat → Bool}

structure Accounted (buffer : ValidBuffer) : Prop where
  currPtr : buffer.currPtr = getStartPointer + buffer.totals.hwErr + buffer.totals.common
  dvd : 4 ∣ buffer.totals.hwErr

theorem Accounted.install (h : Accounted buffer) (hn : 4 ∣ n) (s : Option Byte) :
    Accounted (buffer.install false isUser m a n s) := by
  have hcurr := h.currPtr
  have hdvd := h.dvd
  constructor
  all_goals
    simp only [ValidBuffer.install, TotalSizes.count, false_eq_true, if_false]
    split <;> simp only <;> omega

theorem dvd_next_sub (hx : 4 ∣ x) : 4 ∣ getNextVariablePtr auth m x - x :=
  Nat.dvd_sub (dvd_headerAlign _) hx

theorem Accounted.reinstallAdded (h : Accounted buffer) (hl : ∀ x ∈ l, 4 ∣ x) :
    Accounted (reinstallAdded auth false isUser m updating l buffer) := by
  induction l generalizing buffer with
  | nil => exact h
  | cons x l ih =>
    rw [VariableReclaim.reinstallAdded]
    obtain ⟨hx, hl'⟩ := forall_mem_cons.1 hl
    split
    · exact ih (h.install (dvd_next_sub hx) none) hl'
    · exact ih h hl'

theorem Accounted.reinstallInDeleted (h : Accounted buffer) (hl : ∀ x ∈ l, 4 ∣ x) :
    Accounted (reinstallInDeleted auth false isUser m size updating updating₂ l buffer) := by
  induction l generalizing buffer with
  | nil => exact h
  | cons x l ih =>
    rw [VariableReclaim.reinstallInDeleted]
    obtain ⟨hx, hl'⟩ := forall_mem_cons.1 hl
    split
    · exact ih (h.install (dvd_next_sub hx) _) hl'
    · exact ih h hl'

theorem keptVariables_accounted :
    Accounted (keptVariables auth false isUser m size updating updating₂) := by
  have hoffs : ∀ x ∈ variableOffsets auth m size, 4 ∣ x :=
    fun x hx => (variableOffsets_dvd hx).1
  have hnil : Accounted (emptyBuffer m) := ⟨rfl, dvd_zero 4⟩
  exact (hnil.reinstallAdded hoffs).reinstallInDeleted hoffs

theorem reclaim_totals {limits : SpaceLimits} (hnew : 4 ∣ new.size)
    (h : reclaim auth false isUser limits m size updating updating₂ (some new) = .ok result) :
    result.lastVariableOffset = getStartPointer + result.totals.hwErr + result.totals.common ∧
      4 ∣ result.totals.hwErr ∧ result.totals.hwErr ≤ limits.hwErrStorageSize := by
  simp only [reclaim, installNewVariable] at h
  split at h
  · cases h
  · split at h
    · cases h
    next hquota =>
      cases h
      have haccounted : Accounted ((keptVariables auth false isUser m size updating
          updating₂).install false isUser new.memory 0 new.size (some varAdded)) :=
        (keptVariables_accounted).install hnew _
      refine ⟨haccounted.currPtr, haccounted.dvd, ?_⟩
      by_contra hle
      exact hquota ⟨by simp, .inl (Nat.lt_of_not_le hle)⟩

end MuBasecore.ReclaimRecords
