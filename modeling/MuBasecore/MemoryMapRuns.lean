import MuBasecore.MemoryMapLayout

/-!
What the page services do to the memory map as a whole. A service never gives up
memory that is in the map, takes up only memory that was waiting for promotion,
and, unless it is asked to free pages, leaves the label of every allocated byte
alone. The two levels at which the services run keep these properties, and so do
whole runs of calls.
-/

namespace MuBasecore.MemoryMapRuns

open EfiTypes Word64 SegmentSet GcdMap GcdSpace MemoryTypes MemoryMap PageServices MemoryMapLayout
open Option hiding mem_map
open List

variable {e : MemoryMapEntry} {fuel memory n : Nat} {status : EfiStatus}
  {memoryType : EfiMemoryType}

def territory (p : Platform) (s : MemoryState) : List (Segment MemoryLabel) :=
  segments s.memoryMap ++ reserve p s.gcd.memorySpaceMap

def Allocated (k : MemoryLabel) : Prop :=
  k.1 ≠ .conventionalMemory

/-- No memory is lost or made up, and bytes with a label in `Q` keep it. Where these are all
the allocated bytes, memory of the map that is free afterwards was free with the same
attributes. -/
structure Tracks (p : Platform) (Q : MemoryLabel → Prop) (s s' : MemoryState) : Prop where
  owned : ∀ n, Covers (territory p s') n ↔ Covers (territory p s) n
  grows : ∀ n, Covers (segments s.memoryMap) n → Covers (segments s'.memoryMap) n
  kept : ∀ n k, Q k → Holds (segments s.memoryMap) n k → Holds (segments s'.memoryMap) n k
  free : (∀ k, Allocated k → Q k) → ∀ n k, ¬ Allocated k → Holds (segments s'.memoryMap) n k →
    Covers (segments s.memoryMap) n → Holds (segments s.memoryMap) n k

structure Keeps (p : Platform) (Q : MemoryLabel → Prop) (s s' : MemoryState) : Prop
    extends Tracks p Q s s' where
  locked : s'.gcdMemoryLocked = s.gcdMemoryLocked
  gcd_eq : s.gcdMemoryLocked = true → s'.gcd = s.gcd

/-- The conversion changes no memory with a label in `Q`, and makes no free memory if these
are all the labels of allocated memory. -/
structure Spares (c : Conversion) (Q : MemoryLabel → Prop) : Prop where
  old : ∀ e last, c.allowed e last = true → ¬ Q (e.type, e.attributes)
  new : (∀ k, Allocated k → Q k) → ∀ e start last, (c.range e start last).type ≠ .conventionalMemory

structure LevelKeeps (p : Platform) (level : Level) : Prop where
  free : ∀ {s s'}, Sound p s → level.coreFreeMemoryMapStack s = some s' →
    Sound p s' ∧ Keeps p Allocated s s'
  promote : ∀ {s promoted s'}, Sound p s →
    level.promoteMemoryResource s = some (promoted, s') → Sound p s' ∧ Keeps p Allocated s s'

/-- A relation around the promotion of memory, and around what the page services do
besides it and the conversion of pages. -/
structure Walk (level : Level) (R : MemoryState → MemoryState → Prop) : Prop where
  refl : ∀ s, R s s
  trans : ∀ {s s₁ s'}, R s s₁ → R s₁ s' → R s s'
  base : ∀ (s : MemoryState) start, R s { s with defaultBaseAddress := start }
  promote : ∀ {s promoted s'}, level.promoteMemoryResource s = some (promoted, s') → R s s'

variable {p : Platform} {level : Level} {R : MemoryState → MemoryState → Prop} {s s' : MemoryState}
  {start pages : Nat}

theorem Walk.findFreePages (hR : Walk level R) {r : PageRequest}
    (h : findFreePages level r fuel s = some (start, s')) : R s s' := by
  induction fuel generalizing s with
  | zero => simp [PageServices.findFreePages] at h
  | succ fuel ih =>
    rw [PageServices.findFreePages] at h
    split at h
    · obtain ⟨⟩ := h
      exact hR.refl _
    split at h
    · obtain ⟨⟩ := h
      split
      · exact hR.base _ _
      · exact hR.refl _
    split at h
    · obtain ⟨⟩ := h
      exact hR.refl _
    split at h
    · simp at h
    next hprom =>
      obtain ⟨⟩ := h
      exact hR.promote hprom
    next hprom => exact hR.trans (hR.promote hprom) (ih h)

theorem Walk.poolPages (hR : Walk level R) {align : Nat}
    (hconv : ∀ {start pages s status s'}, coreConvertPagesEx level (.toType memoryType) start pages
      s = some (status, s') → R s s')
    (h : coreAllocatePoolPages p level memoryType pages align s = some (start, s')) : R s s' := by
  unfold coreAllocatePoolPages at h
  dsimp only at h
  split at h
  · simp at h
  rename_i hfind
  split at h
  · obtain ⟨⟩ := h
    exact hR.findFreePages hfind
  split at h
  · simp at h
  rename_i hcall
  obtain ⟨⟩ := h
  exact hR.trans (hR.findFreePages hfind) (hconv hcall)

variable {s s₁ s' : MemoryState}

section Relations

variable {Q Q' : MemoryLabel → Prop}

theorem Tracks.refl (p : Platform) (Q : MemoryLabel → Prop) (s : MemoryState) : Tracks p Q s s :=
  ⟨fun _ => Iff.rfl, fun _ hn => hn, fun _ _ _ hn => hn, fun _ _ _ _ hn _ => hn⟩

theorem Tracks.trans (h : Tracks p Q s s₁) (h' : Tracks p Q s₁ s') : Tracks p Q s s' := by
  refine ⟨?_, ?_, ?_, ?_⟩
  · intro n
    exact (h'.owned n).trans (h.owned n)
  · intro n hn
    exact h'.grows n (h.grows n hn)
  · intro n k hk hn
    exact h'.kept n k hk (h.kept n k hk hn)
  · intro hall n k hk hn hcov
    exact h.free hall n k hk (h'.free hall n k hk hn (h.grows n hcov)) hcov

theorem Keeps.refl (p : Platform) (Q : MemoryLabel → Prop) (s : MemoryState) : Keeps p Q s s :=
  ⟨Tracks.refl p Q s, rfl, fun _ => rfl⟩

theorem Keeps.trans (h : Keeps p Q s s₁) (h' : Keeps p Q s₁ s') : Keeps p Q s s' := by
  refine ⟨h.toTracks.trans h'.toTracks, h'.locked.trans h.locked, ?_⟩
  intro hlock
  rw [h'.gcd_eq (h.locked.trans hlock), h.gcd_eq hlock]

theorem Keeps.mono (h : Keeps p Q s s') (hQ : ∀ k, Q' k → Q k) : Keeps p Q' s s' :=
  ⟨⟨h.owned, h.grows, fun n k hk => h.kept n k (hQ k hk),
    fun hall => h.free fun k hk => hQ k (hall k hk)⟩, h.locked, h.gcd_eq⟩

theorem keeps_of_perm (s' : MemoryState) (hsnd : Sound p s)
    (hmap : (segments s'.memoryMap).Perm (segments s.memoryMap)) (hgcd : s'.gcd = s.gcd)
    (hlock : s'.gcdMemoryLocked = s.gcdMemoryLocked) : Sound p s' ∧ Keeps p Q s s' := by
  refine ⟨?_, ⟨⟨?_, ?_, ?_, ?_⟩, hlock, fun _ => hgcd⟩⟩
  · unfold Sound
    rw [hgcd]
    exact hsnd.perm hmap.symm (List.Perm.refl _)
  · intro n
    unfold territory
    rw [hgcd, covers_append, covers_append, covers_perm hmap]
  · intro n
    exact (covers_perm hmap).2
  · intro n k _
    exact (holds_perm hmap).mpr
  · intro _ n k _ hn _
    exact (holds_perm hmap).mp hn

end Relations

variable {last pages start : Nat} {before behind : List MemoryMapEntry} {Q : MemoryLabel → Prop}

section Convert

variable {c : Conversion} {last' : Nat}

theorem convertRange_keeps (hsnd : Sound p s) (hspare : Spares c Q)
    (halw : c.allowed e.toMemoryRange last' = true)
    (hmap : s.memoryMap = before ++ e :: behind) (hst : e.startAddress ≤ start)
    (hle : start ≤ last) (hlast : last ≤ e.endAddress) (hstartDvd : efiPageSize ∣ start)
    (hlastDvd : efiPageSize ∣ last + 1)
    (hpull : pullRange before e behind start last
      (c.updateStatistics e.toMemoryRange start pages s) = some s₁)
    (hadd : coreAddRange (c.range e.toMemoryRange start last) s₁ = some s') :
    Sound p s' ∧ Keeps p Q s s' := by
  obtain ⟨hsnd', hgcd, hlock, hhold⟩ :=
    convertRange_sound hsnd hmap hst hle hlast hstartDvd hlastDvd hpull hadd
  have hcov : ∀ n, start ≤ n ∧ n ≤ last →
      Holds (segments s.memoryMap) n (e.type, e.attributes) := by
    intro n hn
    refine ⟨rangeSegment e.toMemoryRange, ?_, ?_, rfl⟩
    · simp [hmap]
    · change e.startAddress ≤ n ∧ n ≤ e.endAddress
      omega
  have hcvr : ∀ n, Covers (segments s'.memoryMap) n ↔ Covers (segments s.memoryMap) n := by
    intro n
    simp only [covers_iff_holds, hhold]
    constructor
    · rintro ⟨k, ⟨hn, -⟩ | ⟨-, hk⟩⟩
      · exact ⟨_, hcov n hn⟩
      · exact ⟨k, hk⟩
    · rintro ⟨k, hk⟩
      by_cases hn : start ≤ n ∧ n ≤ last
      · exact ⟨_, .inl ⟨hn, rfl⟩⟩
      · exact ⟨k, .inr ⟨hn, hk⟩⟩
  refine ⟨hsnd', ⟨⟨?_, fun n => (hcvr n).2, ?_, ?_⟩, hlock, fun _ => hgcd⟩⟩
  · intro n
    unfold territory
    rw [hgcd, covers_append, covers_append, hcvr]
  · intro n k hk hn
    refine (hhold n k).2 (.inr ⟨?_, hn⟩)
    intro hin
    apply hspare.old _ _ halw
    rw [holds_unique hsnd.laid.apart (hcov n hin) hn]
    exact hk
  · intro hall n k hk hn _
    rcases (hhold n k).1 hn with ⟨-, rfl⟩ | ⟨-, hn⟩
    · exact absurd (hspare.new hall e.toMemoryRange start last) hk
    · exact hn

theorem covers_eq_true (h : e.covers start = true) :
    e.startAddress ≤ start ∧ start < e.endAddress := by
  simpa [MemoryMapEntry.covers] using h

theorem convertLoop_keeps
    (hlev : LevelKeeps p level) (hspare : Spares c Q) (hQ : ∀ k, Q k → Allocated k)
    (hsnd : Sound p s) (hstartDvd : efiPageSize ∣ start) (hlastDvd : efiPageSize ∣ last + 1)
    (h : MemoryMap.convertLoop level c pages last fuel start s = some (status, s')) :
    Sound p s' ∧ Keeps p Q s s' := by
  induction fuel generalizing start s with
  | zero => simp [MemoryMap.convertLoop] at h
  | succ fuel ih =>
    rw [MemoryMap.convertLoop] at h
    split at h
    swap
    · obtain ⟨⟩ := h
      exact ⟨hsnd, Keeps.refl p Q _⟩
    rename_i hlt
    split at h
    · obtain ⟨⟩ := h
      exact ⟨hsnd, Keeps.refl p Q _⟩
    rename_i before e behind hspl
    obtain ⟨hmap, hcvr⟩ := splitFirst_eq_some hspl
    obtain ⟨hst, hend⟩ := covers_eq_true hcvr
    split at h
    · obtain ⟨⟩ := h
      exact ⟨hsnd, Keeps.refl p Q _⟩
    rename_i halw
    have halw : c.allowed e.toMemoryRange last = true := by simpa using halw
    have he : (rangeSegment e.toMemoryRange).Fits efiPageSize memoryEnd :=
      hsnd.fits _ (by simp [hmap])
    dsimp only at h
    generalize hrangeEnd : (if e.endAddress < last then e.endAddress else last) = rangeEnd at h
    have hle : start ≤ rangeEnd ∧ rangeEnd ≤ e.endAddress := by
      rw [← hrangeEnd]
      split <;> omega
    have hrangeDvd : efiPageSize ∣ rangeEnd + 1 := by
      rw [← hrangeEnd]
      split
      · exact he.last_dvd
      · exact hlastDvd
    split at h
    · simp at h
    rename_i s₁ hpull
    split at h
    · simp at h
    rename_i s₂ hadd
    split at h
    · simp at h
    rename_i s₃ hfree
    obtain ⟨hsnd₂, hkeep₂⟩ := convertRange_keeps hsnd hspare halw hmap hst
      hle.1 hle.2 hstartDvd hrangeDvd hpull hadd
    obtain ⟨hsnd₃, hkeeps₃⟩ := hlev.free hsnd₂ hfree
    have hnextDvd : efiPageSize ∣ add64 rangeEnd 1 :=
      (Nat.dvd_mod_iff (by decide)).2 hrangeDvd
    obtain ⟨hsnd', hkeep'⟩ := ih hsnd₃ hnextDvd h
    exact ⟨hsnd', (hkeep₂.trans (hkeeps₃.mono hQ)).trans hkeep'⟩

theorem lastByte_dvd (hst : efiPageSize ∣ start) :
    efiPageSize ∣ lastByte start (shl64 pages efiPageShift) + 1 := by
  unfold lastByte sub64 add64 shl64 efiPageShift
  unfold efiPageSize at *
  omega

theorem convertPages_keeps
    (hlev : LevelKeeps p level) (hspare : Spares c Q) (hQ : ∀ k, Q k → Allocated k)
    (hsnd : Sound p s) (h : coreConvertPagesEx level c start pages s = some (status, s')) :
    Sound p s' ∧ Keeps p Q s s' := by
  unfold coreConvertPagesEx at h
  dsimp only at h
  split at h
  · obtain ⟨⟩ := h
    exact ⟨hsnd, Keeps.refl p Q s⟩
  next hval =>
    have hst : efiPageSize ∣ start := by
      apply Nat.dvd_of_mod_eq_zero
      by_contra hmod
      exact hval (.inr (.inl hmod))
    exact convertLoop_keeps hlev hspare hQ hsnd hst (lastByte_dvd hst) h

theorem spares_allocated {newType : EfiMemoryType} (hnew : newType ≠ .conventionalMemory) :
    Spares (.toType newType) Allocated := by
  refine ⟨?_, fun _ _ _ _ => hnew⟩
  intro e last halw hallocated
  simp only [Conversion.allowed, Bool.and_eq_true, bne_iff_ne, beq_eq_false_iff_ne.2 hnew]
    at halw
  apply hallocated
  simpa using halw.2

theorem spares_none (c : Conversion) : Spares c fun _ => False :=
  ⟨fun _ _ _ h => h, fun hall => (hall (.loaderData, 0) (by simp [Allocated])).elim⟩

end Convert

variable {free : MemoryState → Option MemoryState} {promoted : Bool}

theorem reserve_append (xs ys : List GcdMapEntry) :
    reserve p (xs ++ ys) = reserve p xs ++ reserve p ys := by
  simp [reserve]

theorem reserve_cons_of_promotable {e : GcdMapEntry} (es : List GcdMapEntry)
    (he : promotable p e = true) :
    reserve p (e :: es) = rangeSegment (promotedRange (promoteEntry p e)) :: reserve p es := by
  simp [reserve, he]

theorem reserve_cons_promoteEntry (e : GcdMapEntry) (es : List GcdMapEntry) :
    reserve p (promoteEntry p e :: es) = reserve p es := by
  have hnot : promotable p (promoteEntry p e) = false := by
    unfold promotable promoteEntry
    split <;> simp
  simp [reserve, hnot]

theorem promote_tracks {done es : List GcdMapEntry} {e : GcdMapEntry} (hsnd : Sound p s)
    (he : promotable p e = true) (hgcd : s.gcd.memorySpaceMap = done ++ e :: es)
    (h : coreAddRange (promotedRange (promoteEntry p e))
      { s with gcd := s.gcd.setMap .memory (done ++ promoteEntry p e :: es) } = some s') :
    Sound p s' ∧ Tracks p Allocated s s' ∧ s'.gcdMemoryLocked = s.gcdMemoryLocked ∧
      s'.gcd.memorySpaceMap = done ++ promoteEntry p e :: es := by
  have hresv : (reserve p s.gcd.memorySpaceMap).Perm
      (rangeSegment (promotedRange (promoteEntry p e)) ::
        reserve p (done ++ promoteEntry p e :: es)) := by
    rw [hgcd, reserve_append, reserve_append, reserve_cons_of_promotable es he,
      reserve_cons_promoteEntry]
    exact perm_middle
  obtain ⟨hsnd', hgcd', hlock, hhold⟩ :=
    coreAddRange_sound
      (s := { s with gcd := s.gcd.setMap .memory (done ++ promoteEntry p e :: es) })
      (hsnd.perm (List.Perm.refl _) hresv) h
  have hmap : s'.gcd.memorySpaceMap = done ++ promoteEntry p e :: es := by
    rw [hgcd']
    rfl
  have hcvr : ∀ n, Covers (segments s'.memoryMap) n ↔
      Covers (rangeSegment (promotedRange (promoteEntry p e)) :: segments s.memoryMap) n := by
    intro n
    simp only [covers_iff_holds, hhold]
  refine ⟨hsnd', ⟨?_, ?_, ?_, ?_⟩, hlock, hmap⟩
  · intro n
    unfold territory
    rw [covers_append, covers_append, covers_perm hresv, hcvr, covers_cons, covers_cons, hmap]
    tauto
  · intro n hn
    exact (hcvr n).2 (covers_cons.2 (.inr hn))
  · intro n k _ hn
    exact (hhold n k).2 (holds_cons.2 (.inr hn))
  · intro _ n k _ hn hcov
    refine (holds_cons.1 ((hhold n k).1 hn)).resolve_left ?_
    rintro ⟨hin, -⟩
    obtain ⟨d, hd, hdn⟩ := hcov
    have hap := (pairwise_append.1 hsnd.spread.apart).2.2 d hd _
      (hresv.mem_iff.2 mem_cons_self)
    simp only [Segment.Apart, Segment.Has] at hap hdn hin
    omega

theorem promoteLoop_tracks (done : List GcdMapEntry) {rest : List GcdMapEntry} {promoted' : Bool}
    (hfree : ∀ {s s'}, Sound p s → free s = some s' → Sound p s' ∧ Keeps p Allocated s s')
    (hsnd : Sound p s) (hlock : s.gcdMemoryLocked = true)
    (hgcd : s.gcd.memorySpaceMap = done ++ rest)
    (h : promoteLoop p free done rest promoted s = some (promoted', s')) :
    Sound p s' ∧ Tracks p Allocated s s' := by
  induction rest generalizing done promoted s with
  | nil =>
    simp only [promoteLoop, some.injEq, Prod.mk.injEq] at h
    rw [← h.2]
    exact ⟨hsnd, Tracks.refl p Allocated s⟩
  | cons e es ih =>
    rw [promoteLoop] at h
    split at h
    next he =>
      dsimp only at h
      split at h
      · simp at h
      rename_i s₁ hadd
      split at h
      · simp at h
      rename_i s₂ hfree₂
      obtain ⟨hsnd₁, htracks₁, hlock₁, hgcd₁⟩ := promote_tracks hsnd he hgcd hadd
      obtain ⟨hsnd₂, hkeep₂⟩ := hfree hsnd₁ hfree₂
      have hlock₁ : s₁.gcdMemoryLocked = true := hlock₁.trans hlock
      have hgcd₂ : s₂.gcd.memorySpaceMap = done ++ [promoteEntry p e] ++ es := by
        rw [hkeep₂.gcd_eq hlock₁, hgcd₁, append_assoc, singleton_append]
      obtain ⟨hsnd', htracks'⟩ := ih _ hsnd₂ (hkeep₂.locked.trans hlock₁) hgcd₂ h
      exact ⟨hsnd', (htracks₁.trans hkeep₂.toTracks).trans htracks'⟩
    · refine ih _ hsnd hlock ?_ h
      rw [hgcd, append_assoc, singleton_append]

theorem promote_keeps
    (hfree : ∀ {s s'}, Sound p s → free s = some s' → Sound p s' ∧ Keeps p Allocated s s')
    (hsnd : Sound p s) (h : promoteMemoryResource p free s = some (promoted, s')) :
    Sound p s' ∧ Keeps p Allocated s s' := by
  unfold promoteMemoryResource at h
  split at h
  · simp at h
  rename_i hunlocked
  split at h
  · simp at h
  rename_i promoted₁ s₁ hloop
  obtain ⟨⟩ := h
  obtain ⟨hsnd', htracks⟩ := promoteLoop_tracks [] hfree
    (s := { s with gcdMemoryLocked := true }) hsnd rfl rfl hloop
  refine ⟨hsnd', ⟨⟨htracks.owned, htracks.grows, htracks.kept, htracks.free⟩, ?_, ?_⟩⟩
  · simpa using hunlocked
  · intro hlock
    exact absurd hlock hunlocked

theorem keeps_walk (hlev : LevelKeeps p level) (hQ : ∀ k, Q k → Allocated k) :
    Walk level fun s s' => Sound p s → Sound p s' ∧ Keeps p Q s s' where
  refl s hsnd := ⟨hsnd, Keeps.refl p Q s⟩
  trans h h' hsnd := by
    obtain ⟨hsnd₁, hkeep₁⟩ := h hsnd
    obtain ⟨hsnd', hkeep'⟩ := h' hsnd₁
    exact ⟨hsnd', hkeep₁.trans hkeep'⟩
  base s start hsnd := keeps_of_perm _ hsnd (List.Perm.refl _) rfl rfl
  promote h hsnd := (hlev.promote hsnd h).imp_right fun hkeep => hkeep.mono hQ

theorem findFreePages_keeps {r : PageRequest} (hlev : LevelKeeps p level)
    (hsnd : Sound p s) (h : findFreePages level r fuel s = some (start, s')) :
    Sound p s' ∧ Keeps p Allocated s s' :=
  (keeps_walk hlev fun _ hk => hk).findFreePages h hsnd

theorem poolPages_keeps {poolType : EfiMemoryType}
    {align : Nat} (hlev : LevelKeeps p level) (hspare : Spares (.toType poolType) Q)
    (hQ : ∀ k, Q k → Allocated k) (hsnd : Sound p s)
    (h : coreAllocatePoolPages p level poolType pages align s = some (start, s')) :
    Sound p s' ∧ Keeps p Q s s' :=
  (keeps_walk hlev hQ).poolPages (fun h hsnd => convertPages_keeps hlev hspare hQ hsnd h) h hsnd

theorem nestedLevel_keeps (p : Platform) : LevelKeeps p (nestedLevel p) := by
  have hfree : ∀ {s s'}, Sound p s → some s = some s' → Sound p s' ∧ Keeps p Allocated s s' := by
    rintro s s' hsnd ⟨⟩
    exact ⟨hsnd, Keeps.refl p Allocated s⟩
  exact ⟨hfree, promote_keeps hfree⟩

theorem allocateEntry_keeps (hsnd : Sound p s)
    (h : allocateMemoryMapEntry p s = some s') : Sound p s' ∧ Keeps p Allocated s s' := by
  unfold allocateMemoryMapEntry at h
  split at h
  · obtain ⟨⟩ := h
    exact keeps_of_perm _ hsnd (List.Perm.refl _) rfl rfl
  split at h
  · simp at h
  rename_i start s₁ halloc
  split at h
  · simp at h
  obtain ⟨⟩ := h
  obtain ⟨hsnd₁, hkeep₁⟩ :=
    poolPages_keeps (nestedLevel_keeps p) (spares_allocated (by decide))
      (fun _ hk => hk) hsnd halloc
  obtain ⟨hsnd', hkeep'⟩ := keeps_of_perm (Q := Allocated)
    { s₁ with freeEntries := s₁.freeEntries + entriesPerPage - 1 } hsnd₁ (List.Perm.refl _)
    rfl rfl
  exact ⟨hsnd', hkeep₁.trans hkeep'⟩

theorem insertFromPages_perm (e : MemoryMapEntry) (es : List MemoryMapEntry) :
    (insertFromPages e es).Perm (e :: es) := by
  induction es with
  | nil => exact List.Perm.refl _
  | cons d ds ih =>
    rw [insertFromPages]
    split
    · exact List.Perm.refl _
    · exact (ih.cons d).trans (List.Perm.swap e d ds)

theorem moveFromStack_perm :
    (segments (insertFromPages { e with slot := none } (before ++ behind))).Perm
      (segments (before ++ e :: behind)) := by
  have hins := insertFromPages_perm { e with slot := none } (before ++ behind)
  have hmid : (before ++ e :: behind).Perm (e :: (before ++ behind)) := perm_middle
  exact (hins.map _).trans (hmid.map fun e => rangeSegment e.toMemoryRange).symm

theorem freeMapStackLoop_keeps (hsnd : Sound p s)
    (h : freeMapStackLoop p fuel s = some s') : Sound p s' ∧ Keeps p Allocated s s' := by
  induction fuel generalizing s with
  | zero => simp [freeMapStackLoop] at h
  | succ fuel ih =>
    rw [freeMapStackLoop] at h
    split at h
    · obtain rfl := some.inj h
      exact ⟨hsnd, Keeps.refl p Allocated s⟩
    split at h
    · simp at h
    rename_i s₁ halloc
    obtain ⟨hsnd₁, hkeep₁⟩ := allocateEntry_keeps hsnd halloc
    dsimp only at h
    split at h
    next before e behind hspl =>
      obtain ⟨hmap, -⟩ := splitFirst_eq_some hspl
      obtain ⟨hsnd₂, hkeep₂⟩ := keeps_of_perm (Q := Allocated)
        { s₁ with
          memoryMap := insertFromPages { e with slot := none } (before ++ behind)
          mapDepth := s₁.mapDepth - 1 } hsnd₁ (hmap ▸ moveFromStack_perm) rfl rfl
      obtain ⟨hsnd', hkeep'⟩ := ih hsnd₂ h
      exact ⟨hsnd', (hkeep₁.trans hkeep₂).trans hkeep'⟩
    · obtain ⟨hsnd₂, hkeep₂⟩ := keeps_of_perm (Q := Allocated)
        { s₁ with freeEntries := s₁.freeEntries + 1, mapDepth := s₁.mapDepth - 1 } hsnd₁
        (List.Perm.refl _) rfl rfl
      obtain ⟨hsnd', hkeep'⟩ := ih hsnd₂ h
      exact ⟨hsnd', (hkeep₁.trans hkeep₂).trans hkeep'⟩

theorem outerLevel_keeps (p : Platform) : LevelKeeps p (outerLevel p) :=
  ⟨freeMapStackLoop_keeps, promote_keeps freeMapStackLoop_keeps⟩

variable {type : EfiAllocateType} {memory' : Nat}

/-- The addresses that a call adds. -/
def Adds : MemoryCall → Nat → Prop
  | .addMemoryDescriptor type start numberOfPages _, n =>
    start % efiPageSize = 0 ∧ type.valid = true ∧ start ≤ n ∧
      n < start + numberOfPages * efiPageSize
  | _, _ => False

/-- What the callers of `CoreAddMemoryDescriptor` promise: the range is not empty,
ends where memory ends, and is neither in the map nor memory that is waiting for
promotion. -/
def Promised (p : Platform) (s : MemoryState) (call : MemoryCall) : Prop :=
  match call with
  | .addMemoryDescriptor _ start numberOfPages _ =>
    0 < numberOfPages ∧ start + numberOfPages * efiPageSize ≤ memoryEnd ∧
      ∀ n, Adds call n → ¬ Covers (territory p s) n
  | _ => True

/-- The ways through `CoreInternalAllocatePages`: it refuses the request at once,
converts the pages at the given address, or converts pages that it has found. -/
theorem allocatePages_cases
    (h : coreInternalAllocatePages p type memoryType pages memory s = some (status, memory', s')) :
    let pages' := roundPages (p.arch.granularity memoryType) pages
    (status.isError = true ∧ s' = s) ∨
      notAllocatable memoryType = false ∧
        (type = .allocateAddress ∧ memory' = memory ∧ memory % p.arch.granularity memoryType = 0 ∧
            checkAllocateAddress p memoryType memory pages' s = .success ∧
            convertOrPromote p memory pages' memoryType s = some (status, s') ∨
          type ≠ .allocateAddress ∧ ∃ start s₁,
            findFreePages (outerLevel p)
                { maxAddress :=
                    if type = .allocateMaxAddress then memory else p.arch.maxAllocAddress
                  numberOfPages := pages'
                  newType := memoryType
                  alignment := p.arch.granularity memoryType } (promoteFuel s) s =
              some (start, s₁) ∧
            (start = 0 ∧ status.isError = true ∧ s' = s₁ ∨
              start ≠ 0 ∧ memory' = (if status.isError then memory else start) ∧
                convertOrPromote p start pages' memoryType s₁ = some (status, s'))) := by
  unfold coreInternalAllocatePages at h
  dsimp only at h ⊢
  split at h
  · obtain ⟨⟩ := h
    exact .inl ⟨rfl, rfl⟩
  split at h
  · obtain ⟨⟩ := h
    exact .inl ⟨rfl, rfl⟩
  rename_i hallocatable
  split at h
  · obtain ⟨⟩ := h
    exact .inl ⟨rfl, rfl⟩
  rename_i haln
  split at h
  next htype =>
    split at h
    next herr =>
      simp only [some.injEq, Prod.mk.injEq] at h
      exact .inl ⟨h.1 ▸ herr, h.2.2.symm⟩
    rename_i hchk
    split at h
    · simp at h
    rename_i status₁ s₁ hconv
    obtain ⟨⟩ := h
    refine .inr ⟨by simpa using hallocatable, .inl ⟨htype, rfl, ?_, ?_, hconv⟩⟩
    · by_contra hne
      exact haln ⟨htype, hne⟩
    · simpa using hchk
  rename_i htype
  split at h
  · simp at h
  rename_i start s₁ hfind
  refine .inr ⟨by simpa using hallocatable, .inr ⟨htype, start, s₁, hfind, ?_⟩⟩
  split at h
  next hzero =>
    simp only [some.injEq, Prod.mk.injEq] at h
    exact .inl ⟨hzero, by rw [← h.1]; rfl, h.2.2.symm⟩
  rename_i hne
  split at h
  · simp at h
  rename_i status₂ s₂ hconv
  obtain ⟨⟩ := h
  exact .inr ⟨hne, rfl, hconv⟩

section

variable (hR : Walk (outerLevel p) R)
  (hconvert : ∀ {start pages s status s'},
    coreConvertPages p start pages memoryType s = some (status, s') → R s s')

include hR hconvert

theorem Walk.convertOrPromote
    (h : convertOrPromote p start pages memoryType s = some (status, s')) : R s s' := by
  unfold PageServices.convertOrPromote at h
  split at h
  · simp at h
  rename_i hconv
  split at h
  · split at h
    · simp at h
    next hprom =>
      obtain ⟨⟩ := h
      exact hR.trans (hconvert hconv) (hR.promote hprom)
    next hprom => exact hR.trans (hR.trans (hconvert hconv) (hR.promote hprom)) (hconvert h)
  · obtain ⟨⟩ := h
    exact hconvert hconv

theorem Walk.allocatePages
    (h : coreInternalAllocatePages p type memoryType pages memory s = some (status, memory', s')) :
    R s s' := by
  rcases allocatePages_cases h with
    ⟨-, rfl⟩ | ⟨-, ⟨-, -, -, -, hconv⟩ | ⟨-, start, s₁, hfind, hrest⟩⟩
  · exact hR.refl s'
  · exact hR.convertOrPromote hconvert hconv
  · rcases hrest with ⟨-, -, rfl⟩ | ⟨-, -, hconv⟩
    · exact hR.findFreePages hfind
    · exact hR.trans (hR.findFreePages hfind) (hR.convertOrPromote hconvert hconv)

end

theorem coreInternalFreePages_keeps (hsnd : Sound p s)
    (h : coreInternalFreePages p memory pages s = some (status, s')) :
    Sound p s' ∧ Keeps p (fun _ => False) s s' := by
  have hrefl : Sound p s ∧ Keeps p (fun _ => False) s s := ⟨hsnd, Keeps.refl p _ s⟩
  unfold coreInternalFreePages at h
  dsimp only at h
  split at h
  · obtain ⟨⟩ := h
    assumption
  split at h
  · obtain ⟨⟩ := h
    assumption
  · exact convertPages_keeps (outerLevel_keeps p) (spares_none _) (fun _ hk => hk.elim) hsnd h

section Add

variable {type : EfiMemoryType} {attributes : AttributeMask}
  (hpromised : Promised p s (.addMemoryDescriptor type start pages attributes))
  (haln : start % efiPageSize = 0)

include hpromised haln

theorem addedRange_has (hval : type.valid = true) (n : Nat) :
    (rangeSegment ⟨type, start, lastByte start (shl64 pages efiPageShift), attributes⟩).Has n ↔
      Adds (.addMemoryDescriptor type start pages attributes) n := by
  obtain ⟨hpos, hbd, -⟩ := hpromised
  simp only [rangeSegment, Segment.Has, Adds, haln, hval, true_and, lastByte, sub64, add64,
    shl64, efiPageShift]
  unfold memoryEnd efiPageSize at *
  omega

theorem addedRange_fits :
    (rangeSegment ⟨type, start, lastByte start (shl64 pages efiPageShift), attributes⟩).Fits
      efiPageSize memoryEnd := by
  obtain ⟨hpos, hbd, -⟩ := hpromised
  refine ⟨?_, Nat.dvd_of_mod_eq_zero haln, lastByte_dvd (Nat.dvd_of_mod_eq_zero haln), ?_⟩ <;>
    simp only [rangeSegment, lastByte, sub64, add64, shl64, efiPageShift] <;>
    unfold memoryEnd efiPageSize at * <;> omega

theorem addDescriptor_sound (hsnd : Sound p s) (hval : type.valid = true)
    (h : coreAddMemoryDescriptor p type start pages attributes s = some s') :
    Sound p s' ∧
      (∀ n, Covers (territory p s') n ↔ Covers (territory p s) n ∨
        Adds (.addMemoryDescriptor type start pages attributes) n) ∧
      ∀ n, Covers (segments s.memoryMap) n ∨
        Adds (.addMemoryDescriptor type start pages attributes) n →
          Covers (segments s'.memoryMap) n := by
  have hhas := addedRange_has hpromised haln hval
  have hfits := addedRange_fits hpromised haln
  simp only [coreAddMemoryDescriptor, haln, hval, ne_eq, not_true_eq_false, if_false,
    Bool.true_eq_false] at h
  split at h
  · simp at h
  rename_i s₁ hadd
  have hspr := hsnd.spread.cons hfits (fun n hn => hpromised.2.2 n ((hhas n).1 hn))
  obtain ⟨hsnd₁, hgcd, -, hhold⟩ := coreAddRange_sound
    ⟨hspr.perm perm_middle.symm, hsnd.unmergeable⟩ hadd
  obtain ⟨hsnd', hkeep'⟩ := (outerLevel_keeps p).free hsnd₁ h
  have hcvr : ∀ n, Covers (segments s₁.memoryMap) n ↔ Covers (segments s.memoryMap) n ∨
      Adds (.addMemoryDescriptor type start pages attributes) n := by
    intro n
    rw [or_comm, ← hhas, ← covers_cons]
    simp only [covers_iff_holds, hhold]
  refine ⟨hsnd', ?_, ?_⟩
  · intro n
    rw [hkeep'.owned]
    unfold territory
    rw [covers_append, covers_append, hcvr, hgcd]
    tauto
  · intro n hn
    exact hkeep'.grows n ((hcvr n).2 hn)

end Add

theorem call_sound {call : MemoryCall} (hsnd : Sound p s) (hpromised : Promised p s call)
    (h : call.run p s = some s') :
    Sound p s' ∧ (∀ n, Covers (territory p s') n ↔ Covers (territory p s) n ∨ Adds call n) ∧
      ∀ n, Covers (segments s.memoryMap) n ∨ Adds call n → Covers (segments s'.memoryMap) n := by
  have hpln : (∀ n, ¬ Adds call n) → Sound p s' ∧ Keeps p (fun _ => False) s s' →
      Sound p s' ∧ (∀ n, Covers (territory p s') n ↔ Covers (territory p s) n ∨ Adds call n) ∧
      ∀ n, Covers (segments s.memoryMap) n ∨ Adds call n → Covers (segments s'.memoryMap) n := by
    rintro hnone ⟨hsnd', hkeep⟩
    simp only [hnone, or_false]
    exact ⟨hsnd', hkeep.owned, hkeep.grows⟩
  have hlev := outerLevel_keeps p
  have hQ : ∀ k : MemoryLabel, False → Allocated k := fun _ hk => hk.elim
  cases call with
  | addMemoryDescriptor type start pages attributes =>
    by_cases haln : start % efiPageSize = 0
    swap
    · simp only [MemoryCall.run, coreAddMemoryDescriptor, ne_eq, haln, not_false_eq_true,
        if_true, some.injEq] at h
      subst h
      exact hpln (fun n hn => haln hn.1) ⟨hsnd, Keeps.refl p _ s⟩
    cases hval : type.valid with
    | false =>
      simp only [MemoryCall.run, coreAddMemoryDescriptor, haln, hval, ne_eq,
        not_true_eq_false, if_false, if_true, some.injEq] at h
      subst h
      exact hpln (fun n hn => by simp [Adds, hval] at hn) ⟨hsnd, Keeps.refl p _ s⟩
    | true => exact addDescriptor_sound hpromised haln hsnd hval h
  | convertPages | updateMemoryAttributes | freePoolPages =>
    obtain ⟨⟨status, s₁⟩, hcall, rfl⟩ := map_eq_some_iff.1 h
    exact hpln (fun _ hn => hn) (convertPages_keeps hlev (spares_none _) hQ hsnd hcall)
  | allocatePages type memoryType pages memory =>
    obtain ⟨⟨status, memory', s₁⟩, hcall, rfl⟩ := map_eq_some_iff.1 h
    exact hpln (fun _ hn => hn) ((keeps_walk hlev hQ).allocatePages
      (fun h hsnd => convertPages_keeps hlev (spares_none _) hQ hsnd h) hcall hsnd)
  | freePages memory pages =>
    obtain ⟨⟨status, s₁⟩, hcall, rfl⟩ := map_eq_some_iff.1 h
    exact hpln (fun _ hn => hn) (coreInternalFreePages_keeps hsnd hcall)
  | allocatePoolPages poolType pages align =>
    obtain ⟨⟨start, s₁⟩, hcall, rfl⟩ := map_eq_some_iff.1 h
    exact hpln (fun _ hn => hn) (poolPages_keeps hlev (spares_none _) hQ hsnd hcall)

/-- What may happen between two states of a run: a call, or a change of the GCD
map and of the bins from outside that leaves the memory map alone. The GCD services see
to it that the memory waiting for promotion ends where memory ends and is in entries that
overlap neither each other nor the memory map; that they are page aligned is what
`CoreAddRange` asserts when they are promoted. -/
inductive Step (p : Platform) : MemoryState → MemoryState → Prop
  | call {s s' : MemoryState} (call : MemoryCall) (hpromised : Promised p s call)
      (hrun : call.run p s = some s') : Step p s s'
  | environment {s s' : MemoryState} (hmap : s'.memoryMap = s.memoryMap)
      (hspr : Spread efiPageSize memoryEnd (territory p s')) : Step p s s'

/-- The states of the runs from an empty memory map. -/
def Reachable (p : Platform) (s : MemoryState) : Prop :=
  ∃ gcd, Spread efiPageSize memoryEnd (reserve p gcd.memorySpaceMap) ∧
    Relation.ReflTransGen (Step p) (initialState p gcd) s

theorem step_sound (hsnd : Sound p s) (hstep : Step p s s') : Sound p s' := by
  cases hstep with
  | call call hpromised hrun => exact (call_sound hsnd hpromised hrun).1
  | environment hmap hspr =>
    refine ⟨hspr, ?_⟩
    rw [hmap]
    exact hsnd.unmergeable

theorem reachable_sound (h : Reachable p s) : Sound p s := by
  obtain ⟨gcd, hspr, hrun⟩ := h
  induction hrun with
  | refl => exact ⟨hspr, List.Pairwise.nil⟩
  | tail _ hstep ih => exact step_sound ih hstep

/-- The address is in the memory map. -/
def Mapped (s : MemoryState) (n : Nat) : Prop :=
  ∃ e ∈ s.memoryMap, e.startAddress ≤ n ∧ n ≤ e.endAddress

/-- The address is in memory that promotion would add. -/
def Waiting (p : Platform) (s : MemoryState) (n : Nat) : Prop :=
  ∃ e ∈ s.gcd.memorySpaceMap, promotable p e = true ∧ e.baseAddress ≤ n ∧ n ≤ e.endAddress

def samplePlatform : Platform where
  arch := .x64
  gDxeCoreImageHandle := 1

def emptyGcd : Gcd where
  memorySpaceMap := []
  ioSpaceMap := []

def addLowMemory : MemoryCall :=
  .addMemoryDescriptor .conventionalMemory 0 16 efiMemoryWb

/-- The map after `addLowMemory`: the last of the pages holds the descriptors. -/
def lowMemoryMap : List MemoryMapEntry :=
  [{ type := .conventionalMemory
     startAddress := 0
     endAddress := 0xEFFF
     attributes := efiMemoryWb
     slot := none },
   { type := .bootServicesData
     startAddress := 0xF000
     endAddress := 0xFFFF
     attributes := efiMemoryWb
     slot := none }]

theorem addLowMemory_run : ∃ s, addLowMemory.run samplePlatform
    (initialState samplePlatform emptyGcd) = some s ∧ s.memoryMap = lowMemoryMap ∧
      s.gcd.memorySpaceMap = [] := by
  have hrun : (addLowMemory.run samplePlatform (initialState samplePlatform emptyGcd)).map
      (fun s => (s.memoryMap, s.gcd.memorySpaceMap)) = some (lowMemoryMap, []) := by
    decide +kernel
  obtain ⟨s, hs, heq⟩ := map_eq_some_iff.1 hrun
  exact ⟨s, hs, (Prod.mk.injEq .. ▸ heq).1, (Prod.mk.injEq .. ▸ heq).2⟩

theorem added_reachable {type : EfiMemoryType} {attributes : AttributeMask} (hpos : 0 < pages)
    (hle : start + pages * efiPageSize ≤ memoryEnd)
    (h : MemoryCall.run p (.addMemoryDescriptor type start pages attributes)
      (initialState p emptyGcd) = some s) : Reachable p s := by
  refine ⟨emptyGcd, ⟨?_, List.Pairwise.nil⟩, Relation.ReflTransGen.single ?_⟩
  · simp [reserve, emptyGcd]
  · refine Step.call (.addMemoryDescriptor type start pages attributes) ⟨hpos, hle, ?_⟩ h
    rintro n - ⟨d, hd, -⟩
    simp [territory, initialState, segments, reserve, emptyGcd] at hd

end MuBasecore.MemoryMapRuns
