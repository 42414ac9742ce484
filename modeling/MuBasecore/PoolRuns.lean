import MuBasecore.PoolGranules

/-!
Runs of the pool allocator: in every state that allocations and frees lead to,
the granules are tiled by blocks in use and blocks on the free lists.
-/

namespace MuBasecore.PoolRuns

open EfiTypes Word64 SegmentList MemoryTypes MemoryMapRuns PoolServices PoolBlocks PoolTiling Option
open PoolGranules Function List

variable {σ : Type}

def poolBuffer (s : PoolState σ) (type : EfiMemoryType) : Nat × Nat :=
  ((heads s type).getD 0, sizeOfPool)

structure Consistent (p : Platform) (owned : σ → List (Nat × Nat)) (s : PoolState σ)
    (ledger : List (Nat × Nat)) (created : List EfiMemoryType) (granules : List Granule) :
    Prop where
  invariant : Invariant p owned s (created.map (poolBuffer s) ++ ledger) granules
  named : ∀ type, type.named = true → (heads s type).isSome = true
  mem_created : ∀ type, type ∈ created ↔ type.named = false ∧ (heads s type).isSome = true
  nodup : created.Nodup

variable {pool : Option Pool} {status : EfiStatus} {p : Platform} {service : PageService σ}
  {owned : σ → List (Nat × Nat)} {s s' : PoolState σ} {ledger : List (Nat × Nat)}
  {created : List EfiMemoryType} {granules : List Granule}

section Calls

variable {type : EfiMemoryType} {size buffer : Nat}

theorem map_buffer_congr (h : heads s' = heads s) (created : List EfiMemoryType) :
    created.map (poolBuffer s') = created.map (poolBuffer s) := by
  unfold poolBuffer
  rw [h]

theorem subGranular_sizeOfPool : SubGranular p .bootServicesData sizeOfPool := by
  refine ⟨?_, ?_⟩
  · change sizeOfPool ≤ 0x1000
    decide
  · change getPoolIndexFromSize (blockSize sizeOfPool) < getPoolIndexFromSize 0x1000
    decide

theorem heads_setPool :
    heads { s with pools := update s.pools type pool } =
      update (heads s) type (pool.map Pool.address) := by
  funext other
  unfold heads
  by_cases h : other = type
  · subst h
    simp
  · simp [update_of_ne h]

theorem map_poolBuffer_setPool (h : type ∉ created) :
    created.map (poolBuffer { s with pools := update s.pools type pool }) =
      created.map (poolBuffer s) := by
  apply map_congr_left
  intro other hoth
  have hne : other ≠ type := fun heq => h (heq ▸ hoth)
  rw [poolBuffer, heads_setPool, update_of_ne hne, poolBuffer]

theorem invariant_setPool {live : List (Nat × Nat)} (h : Invariant p owned s live granules)
    (hnone : ∀ t ∈ allTiles granules, t.type ≠ type)
    (hnil : ∀ new, pool = some new → new.used = 0 ∧ ∀ index, new.freeList index = [])
    (hval : type.valid = true) :
    Invariant p owned { s with pools := update s.pools type pool } live granules := by
  refine ⟨h.heap.setPool hnone hnil, h.ok, h.owns, h.uses, ?_⟩
  intro other hoth
  by_cases heq : other = type
  · exact heq ▸ hval
  · rw [heads_setPool, update_of_ne heq] at hoth
    exact h.valid other hoth

section

variable (hspec : PageContract service owned) (h : Consistent p owned s ledger created granules)
include hspec h

theorem lookup_consistent {found : Bool}
    (hlook : lookupPoolHead service p type s = some (found, s')) :
    ∃ created' granules', Consistent p owned s' ledger created' granules' ∧
      (found = true → (s'.pools type).isSome = true) := by
  unfold lookupPoolHead at hlook
  split at hlook
  next hnamed =>
    obtain ⟨⟩ := hlook
    exact ⟨created, granules, h, fun _ => (isSome_pools_iff).trans (h.named type hnamed)⟩
  rename_i hnamed
  split at hlook
  swap
  · obtain ⟨⟩ := hlook
    exact ⟨created, granules, h, fun hfalse => absurd hfalse (by simp)⟩
  rename_i hval
  split at hlook
  next hsome =>
    obtain ⟨⟩ := hlook
    exact ⟨created, granules, h, fun _ => hsome⟩
  rename_i hnone
  split at hlook
  · exact absurd hlook (by simp)
  rename_i head s₁ hblk
  have hhds := heads_allocateBlock hblk
  have hcre := map_buffer_congr hhds created
  have hbsd : (s.pools .bootServicesData).isSome = true :=
    (isSome_pools_iff).trans (h.named _ rfl)
  have hnew := allocateBlock_invariant hspec h.invariant (subGranular_sizeOfPool) hbsd hblk
  split at hlook
  next hzero =>
    obtain ⟨⟩ := hlook
    obtain ⟨-, hinv⟩ | ⟨-, hpos, -⟩ := hnew
    · refine ⟨created, granules, ⟨?_, ?_, ?_, h.nodup⟩, fun hfalse => absurd hfalse (by simp)⟩
      · rw [hcre]
        exact hinv
      · rw [hhds]
        exact h.named
      · rw [hhds]
        exact h.mem_created
    · omega
  next hne =>
    obtain ⟨⟩ := hlook
    obtain ⟨hzero, -⟩ | ⟨granules', hpos, hlt, hinv⟩ := hnew
    · exact absurd hzero hne
    have hfresh : type ∉ created := by
      intro hmem
      apply hnone
      rw [isSome_pools_iff]
      exact ((h.mem_created type).1 hmem).2
    have hnotype : ∀ t ∈ allTiles granules', t.type ≠ type := by
      rintro t ht rfl
      apply hnone
      rw [isSome_pools_iff, ← hhds, ← isSome_pools_iff]
      exact hinv.heap.pool t ht
    refine ⟨type :: created, granules', ⟨?_, ?_, ?_, ?_⟩, fun _ => by simp⟩
    · rw [map_cons, map_poolBuffer_setPool hfresh, hcre, poolBuffer, heads_setPool, update_self]
      rw [map_some, getD_some, add64_eq hlt]
      exact invariant_setPool hinv hnotype (by rintro _ ⟨⟩; exact ⟨rfl, fun _ => rfl⟩) hval
    · intro other hoth
      rw [heads_setPool, hhds]
      by_cases heq : other = type
      · rw [heq, update_self]
        rfl
      · rw [update_of_ne heq]
        exact h.named other hoth
    · intro other
      rw [heads_setPool, hhds, mem_cons, h.mem_created]
      by_cases heq : other = type
      · subst heq
        simp [hnamed]
      · rw [update_of_ne heq]
        simp [heq]
    · exact nodup_cons.2 ⟨hfresh, h.nodup⟩

theorem allocatePool_consistent (hsize : SubGranular p type size)
    (halloc : coreAllocatePoolI service p type size s = some (buffer, s')) :
    ∃ created' granules', Consistent p owned s'
      (if buffer = 0 then ledger else (buffer, size) :: ledger) created' granules' := by
  unfold coreAllocatePoolI at halloc
  split at halloc
  · exact absurd halloc (by simp)
  next hlook =>
    obtain ⟨⟩ := halloc
    obtain ⟨created', granules', h', -⟩ := lookup_consistent hspec h hlook
    exact ⟨created', granules', h'⟩
  next s₁ hlook =>
    obtain ⟨created', granules', h', hpool⟩ := lookup_consistent hspec h hlook
    split at halloc
    · exact absurd halloc (by simp)
    rename_i head s₂ hblk
    obtain ⟨hbuf, rfl⟩ := Prod.mk.inj (some.inj halloc)
    have hhds := heads_allocateBlock hblk
    obtain ⟨rfl, hinv⟩ | ⟨granules₂, hpos, hlt, hinv⟩ :=
      allocateBlock_invariant hspec h'.invariant hsize (hpool rfl) hblk
    · rw [if_pos rfl] at hbuf
      rw [if_pos hbuf.symm]
      refine ⟨created', granules', ⟨?_, hhds ▸ h'.named, hhds ▸ h'.mem_created, h'.nodup⟩⟩
      rw [map_buffer_congr hhds]
      exact hinv
    · rw [if_neg (Nat.ne_of_gt hpos), add64_eq hlt] at hbuf
      subst hbuf
      refine ⟨created', granules₂, ⟨?_, hhds ▸ h'.named, hhds ▸ h'.mem_created, h'.nodup⟩⟩
      rw [map_buffer_congr hhds]
      exact { hinv with uses := hinv.uses.trans perm_middle.symm }

end

theorem erase_append_perm {structs : List (Nat × Nat)} {entry : Nat × Nat}
    (h : entry ∈ ledger) :
    ((structs ++ ledger).erase entry).Perm (structs ++ ledger.erase entry) := by
  have hperm : (structs ++ ledger).Perm (entry :: (structs ++ ledger.erase entry)) :=
    ((perm_cons_erase h).append_left structs).trans perm_middle
  have herase := hperm.erase entry
  rwa [erase_cons_head] at herase

theorem Consistent.dropPool {pool : Pool}
    (h : Consistent p owned s ledger created granules) (hspec : PageContract service owned)
    (hnamed : type.named = false) (hpool : s.pools type = some pool) (hused : pool.used = 0)
    (hblk : freeBlock service p pool.address
      { s with pools := update s.pools type none } = some (status, s')) :
    ∃ u ∈ allTiles granules, u.request = some sizeOfPool ∧ type ∈ created ∧
      Consistent p owned s' ledger (created.erase type) (freeTile u granules) := by
  have hhead : heads s type = some pool.address := by
    rw [heads, hpool]
    rfl
  have hsome : (heads s type).isSome = true := by rw [hhead, isSome_some]
  have hmem : type ∈ created := (h.mem_created type).2 ⟨hnamed, hsome⟩
  have hnone : ∀ t ∈ allTiles granules, t.type ≠ type := by
    intro t ht htype
    obtain ⟨g, hg, hgt⟩ := mem_flatMap.1 ht
    obtain ⟨u, hu, hreq⟩ := (h.invariant.ok g hg).busy
    apply hreq
    apply h.invariant.heap.idle_of_used hpool hused (mem_flatMap.2 ⟨g, hg, hu⟩)
    rw [(h.invariant.ok g hg).types u hu, ← (h.invariant.ok g hg).types t hgt, htype]
  have hbuf : poolBuffer s type = (pool.address, sizeOfPool) := by
    rw [poolBuffer, hhead]
    rfl
  have hperm : (created.map (poolBuffer s) ++ ledger).Perm
      ((pool.address, sizeOfPool) :: ((created.erase type).map (poolBuffer s) ++ ledger)) := by
    rw [← hbuf, ← cons_append, ← map_cons]
    exact ((perm_cons_erase hmem).map _).append_right ledger
  obtain ⟨-, hhds, u, hu, -, hreq, -, hinv⟩ := freeBlock_invariant hspec
    (invariant_setPool h.invariant hnone (by simp)
      (h.invariant.valid type hsome)) (hperm.mem_iff.2 mem_cons_self) hblk
  rw [heads_setPool] at hhds
  refine ⟨u, hu, hreq, hmem, ⟨?_, ?_, ?_, h.nodup.erase type⟩⟩
  · rw [map_buffer_congr (hhds.trans (heads_setPool).symm),
      map_poolBuffer_setPool (List.Nodup.not_mem_erase h.nodup)]
    have herase := hperm.erase (pool.address, sizeOfPool)
    rw [erase_cons_head] at herase
    exact { hinv with uses := hinv.uses.trans herase }
  · intro other hoth
    have hne : other ≠ type := by
      rintro rfl
      exact absurd hoth (by rw [hnamed]; simp)
    rw [hhds, update_of_ne hne]
    exact h.named other hoth
  · intro other
    rw [h.nodup.mem_erase_iff, h.mem_created, hhds]
    by_cases heq : other = type
    · subst heq
      simp
    · rw [update_of_ne heq]
      simp [heq]

/-- How the granules change when a buffer is freed: its block is not in use any
more, and if it was the last one of a type that is not a named one, neither is the
block of the structure of its pool. -/
def Frees (created : List EfiMemoryType) (granules : List Granule) (t : Tile)
    (created' : List EfiMemoryType) (granules' : List Granule) : Prop :=
  created' = created ∧ granules' = freeTile t granules ∨
    ∃ u ∈ allTiles (freeTile t granules), u.request = some sizeOfPool ∧
      t.type ∈ created ∧ created' = created.erase t.type ∧
      granules' = freeTile u (freeTile t granules)

theorem freePool_consistent (hspec : PageContract service owned)
    (h : Consistent p owned s ledger created granules) (hledger : (buffer, size) ∈ ledger)
    (hfree : coreFreePoolI service p buffer s = some (status, s')) :
    status = .success ∧ ∃ t ∈ allTiles granules, t.start + sizeOfPoolHead = buffer ∧
      t.request = some size ∧ ∃ created' granules', Frees created granules t created' granules' ∧
        Consistent p owned s' (ledger.erase (buffer, size)) created' granules' := by
  unfold coreFreePoolI at hfree
  split at hfree
  · exact absurd hfree (by simp)
  rename_i status₁ s₁ hblk
  obtain ⟨rfl, hhds, t, ht, rfl, hreq, htype, hinv⟩ :=
    freeBlock_invariant hspec h.invariant (mem_append_right _ hledger) hblk
  have hprop := h.invariant.heap.proper t ht
  have hhead : sub64 (t.start + sizeOfPoolHead) sizeOfPoolHead = t.start := by
    have hbd := hprop.bound
    have hsize := Nat.le_of_dvd (listToSize_pos hprop.index_lt) (dvd_listToSize hprop.index_lt)
    unfold sizeOfPoolHead
    rw [sub64_eq (by omega) (by omega)]
    omega
  rw [hhead, htype, if_neg (by decide)] at hfree
  have hinv' : Invariant p owned s₁
      (created.map (poolBuffer s₁) ++ ledger.erase (t.start + sizeOfPoolHead, size))
      (freeTile t granules) := by
    rw [map_buffer_congr hhds]
    exact { hinv with uses := hinv.uses.trans (erase_append_perm hledger) }
  have hsame : Consistent p owned s₁ (ledger.erase (t.start + sizeOfPoolHead, size)) created
      (freeTile t granules) :=
    ⟨hinv', hhds ▸ h.named, hhds ▸ h.mem_created, h.nodup⟩
  split at hfree
  · obtain ⟨⟩ := hfree
    exact ⟨rfl, t, ht, rfl, hreq, created, _, .inl ⟨rfl, rfl⟩, hsame⟩
  rename_i pool hpool
  split at hfree
  swap
  · obtain ⟨⟩ := hfree
    exact ⟨rfl, t, ht, rfl, hreq, created, _, .inl ⟨rfl, rfl⟩, hsame⟩
  rename_i hunused
  split at hfree
  · exact absurd hfree (by simp)
  rename_i status₂ s₂ hstruct
  obtain ⟨⟩ := hfree
  obtain ⟨u, hu, hstructRequest, hcre, hdropped⟩ :=
    hsame.dropPool hspec hunused.1 hpool hunused.2 hstruct
  exact ⟨rfl, t, ht, rfl, hreq, _, _, .inr ⟨u, hu, hstructRequest, hcre, rfl, rfl⟩, hdropped⟩

end Calls

/-- A call of the pool services; the ledger has the buffers in use. -/
inductive Step (service : PageService σ) (p : Platform) :
    PoolState σ × List (Nat × Nat) → PoolState σ × List (Nat × Nat) → Prop
  | allocate {s s' : PoolState σ} {ledger : List (Nat × Nat)} {type : EfiMemoryType}
      {size buffer : Nat} :
      SubGranular p type size → coreAllocatePoolI service p type size s = some (buffer, s') →
        Step service p (s, ledger) (s', if buffer = 0 then ledger else (buffer, size) :: ledger)
  | free {s s' : PoolState σ} {ledger : List (Nat × Nat)} {buffer size : Nat}
      {status : EfiStatus} :
      (buffer, size) ∈ ledger → coreFreePoolI service p buffer s = some (status, s') →
        Step service p (s, ledger) (s', ledger.erase (buffer, size))

/-- The pools and the buffers in use, after a run from empty pools. -/
def Reachable (service : PageService σ) (owned : σ → List (Nat × Nat)) (p : Platform)
    (s : PoolState σ) (ledger : List (Nat × Nat)) : Prop :=
  ∃ headers tails pages, owned pages = [] ∧
    Relation.ReflTransGen (Step service p) (initialPools headers tails pages, []) (s, ledger)

/-- The pages of the pools are granules, each tiled by blocks of the sizes of the
table, and each block is a buffer in use or on the list of its size. -/
structure Tiled (p : Platform) (owned : σ → List (Nat × Nat)) (s : PoolState σ)
    (ledger : List (Nat × Nat)) (created : List EfiMemoryType) (granules : List Granule) :
    Prop where
  owns : (owned s.pages).Perm (granules.map (Granule.pages p))
  tiles : ∀ g ∈ granules, p.arch.granularity g.type ∣ g.base ∧
    Tiles Tile.start Tile.last g.base (g.base + p.arch.granularity g.type) g.tiles
  busy : ∀ g ∈ granules, ∃ t ∈ g.tiles, t.request ≠ none
  sizes : ∀ t ∈ allTiles granules, listToSize t.index ∈ poolSizeTable
  disjoint : (allTiles granules).Pairwise Tile.Apart
  enough : ∀ t ∈ allTiles granules, ∀ request, t.request = some request →
    request + poolOverhead ≤ listToSize t.index
  buffers : (liveBlocks (allTiles granules)).Perm (created.map (poolBuffer s) ++ ledger)
  lists : ∀ t ∈ allTiles granules, ∀ type index, (freeBlocks s type index).count t.start =
    if t.request = none ∧ t.type = type ∧ t.index = index then 1 else 0
  listed : ∀ type index, ∀ address ∈ freeBlocks s type index,
    ∃ t ∈ allTiles granules, t.start = address

theorem initialPools_consistent {headers : Nat → BlockHeader} {tails : Nat → Option Nat} {pages : σ}
    (hpgs : owned pages = []) :
    Consistent p owned (initialPools headers tails pages) [] [] [] := by
  have hhds : ∀ type, (heads (initialPools headers tails pages) type).isSome = type.named := by
    intro type
    cases hnamed : type.named <;> simp [heads, initialPools, hnamed]
  have hlists : ∀ type index, freeBlocks (initialPools headers tails pages) type index = [] := by
    intro type index
    cases hnamed : type.named <;> simp [freeBlocks, initialPools, hnamed]
  refine ⟨⟨⟨by simp [allTiles], List.Pairwise.nil, by simp [allTiles], by simp [allTiles], ?_, ?_⟩,
    by simp, by simp [initialPools, hpgs], List.Perm.refl [], ?_⟩, ?_, ?_, nodup_nil⟩
  · intro type index
    rw [hlists]
    exact List.Perm.refl []
  · intro type pool hpool
    unfold initialPools at hpool
    dsimp only at hpool
    split at hpool
    · cases hpool
      rfl
    · exact absurd hpool (by simp)
  · intro type htype
    rw [hhds] at htype
    cases type with
    | other code => exact absurd htype (by simp [EfiMemoryType.named])
    | _ => rfl
  · intro type htype
    rw [hhds, htype]
  · intro type
    rw [hhds]
    cases type.named <;> simp

theorem step_consistent {ledger' : List (Nat × Nat)} (hspec : PageContract service owned)
    (hstep : Step service p (s, ledger) (s', ledger'))
    (h : Consistent p owned s ledger created granules) :
    ∃ created' granules', Consistent p owned s' ledger' created' granules' := by
  cases hstep with
  | allocate hsize halloc => exact allocatePool_consistent hspec h hsize halloc
  | free hledger hfree =>
    obtain ⟨-, -, -, -, -, created', granules', -, h'⟩ :=
      freePool_consistent hspec h hledger hfree
    exact ⟨created', granules', h'⟩

theorem reachable_consistent (hspec : PageContract service owned)
    (hrch : Reachable service owned p s ledger) :
    ∃ created granules, Consistent p owned s ledger created granules := by
  obtain ⟨headers, tails, pages, hpgs, hrun⟩ := hrch
  suffices h : ∀ state, Relation.ReflTransGen (Step service p)
      (initialPools headers tails pages, []) state →
      ∃ created granules, Consistent p owned state.1 state.2 created granules from h _ hrun
  intro state hstt
  induction hstt with
  | refl => exact ⟨[], [], initialPools_consistent hpgs⟩
  | tail _ hstep ih =>
    obtain ⟨created, granules, h⟩ := ih
    exact step_consistent hspec hstep h

theorem Consistent.tiled (h : Consistent p owned s ledger created granules) :
    Tiled p owned s ledger created granules := by
  have hheap := h.invariant.heap
  refine ⟨h.invariant.owns,
    fun g hg => ⟨(h.invariant.ok g hg).aligned, (h.invariant.ok g hg).tiled⟩,
    fun g hg => (h.invariant.ok g hg).busy, ?_, hheap.apart, ?_, h.invariant.uses, ?_, ?_⟩
  · intro t ht
    have hidx := (hheap.proper t ht).index_lt
    rw [listToSize, getD_eq_getElem _ _ hidx]
    exact getElem_mem hidx
  · intro t ht request hreq
    have hprop := hheap.proper t ht
    have hused := hprop.used_le
    rw [Tile.used, hreq] at hused
    exact le_trans (hprop.enough request hreq) hused
  · exact fun t ht type index => hheap.count_freeBlocks ht
  · intro type index address haddr
    obtain ⟨t, ht, -, -, -, hst⟩ := mem_freeStarts.1 ((hheap.lists type index).mem_iff.1 haddr)
    exact ⟨t, ht, hst⟩

/-- In every state that calls lead to, the pages of the pools are tiled by buffers
in use and blocks on the free lists; freeing a buffer frees its block, and exactly
the granules without a block in use go back to the page services. -/
theorem reachable_tiled (hcontract : PageContract service owned)
    (hreach : Reachable service owned p s ledger) :
    ∃ created granules, Tiled p owned s ledger created granules ∧
      ∀ buffer size status s', (buffer, size) ∈ ledger →
        coreFreePoolI service p buffer s = some (status, s') →
          status = .success ∧ ∃ t ∈ allTiles granules, t.start + sizeOfPoolHead = buffer ∧
            t.request = some size ∧
            ∃ created' granules', Frees created granules t created' granules' ∧
              Tiled p owned s' (ledger.erase (buffer, size)) created' granules' := by
  obtain ⟨created, granules, h⟩ := reachable_consistent hcontract hreach
  refine ⟨created, granules, h.tiled, ?_⟩
  intro buffer size status s' hledger hfree
  obtain ⟨hstatus, t, ht, hstart, hrequest, created', granules', hfrees, h'⟩ :=
    freePool_consistent hcontract h hledger hfree
  exact ⟨hstatus, t, ht, hstart, hrequest, created', granules', hfrees, h'.tiled⟩

def onePage : PageService (List (Nat × Nat)) where
  allocate := fun _ count granularity pages =>
    if count = 1 ∧ granularity = 0x1000 ∧ pages = [] then some (0x1000, [(0x1000, 1)])
    else some (0, pages)
  free := fun head count pages => some (pages.erase (head, count))

theorem onePage_contract : PageContract onePage id := by
  constructor
  · intro type count granularity pages head pages' h
    dsimp only [onePage] at h
    split at h
    next hone =>
      obtain ⟨rfl, rfl, rfl⟩ := hone
      obtain ⟨⟩ := h
      exact .inr ⟨by decide, dvd_refl _, by decide, by simp, List.Perm.refl _⟩
    · obtain ⟨⟩ := h
      exact .inl ⟨rfl, List.Perm.refl _⟩
  · intro head count pages pages' h
    obtain ⟨⟩ := h
    exact List.Perm.refl _

def emptyOnePage : PoolState (List (Nat × Nat)) :=
  initialPools (fun _ => ⟨none, 0, .bootServicesData, 0⟩) (fun _ => none) []

theorem allocateHundredBytes_tiled : ∃ s, Reachable onePage id samplePlatform s [(0x1018, 100)] ∧
    ∃ created granules, Tiled samplePlatform id s [(0x1018, 100)] created granules := by
  have hbuffer : (coreAllocatePoolI onePage samplePlatform .bootServicesData 100 emptyOnePage).map
      Prod.fst = some 0x1018 := by decide
  obtain ⟨⟨buffer, s⟩, hallocate, rfl⟩ := map_eq_some_iff.mp hbuffer
  have hreach : Reachable onePage id samplePlatform s [(0x1018, 100)] :=
    ⟨_, _, [], rfl, Relation.ReflTransGen.single (Step.allocate ⟨by decide, by decide⟩ hallocate)⟩
  obtain ⟨created, granules, htiled, -⟩ := reachable_tiled onePage_contract hreach
  exact ⟨s, hreach, created, granules, htiled⟩

/-- A size below that of a granule which no block of the table below it is large
enough for gets the whole granule. -/
theorem allocateThreeThousandBytes_not_tiled :
    3000 < samplePlatform.arch.granularity .bootServicesData ∧
    ∃ s, coreAllocatePoolI onePage samplePlatform .bootServicesData 3000 emptyOnePage =
        some (0x1018, s) ∧ s.pages = [(0x1000, 1)] ∧
      ¬ ∃ created granules, Tiled samplePlatform id s [(0x1018, 3000)] created granules := by
  refine ⟨by decide, ?_⟩
  have hbuffer : (coreAllocatePoolI onePage samplePlatform .bootServicesData 3000 emptyOnePage).map
      (fun result => (result.1, result.2.pages)) = some (0x1018, [(0x1000, 1)]) := by decide
  obtain ⟨⟨buffer, s⟩, hallocate, heq⟩ := map_eq_some_iff.mp hbuffer
  obtain ⟨rfl, hpages⟩ := Prod.mk.inj heq
  refine ⟨s, hallocate, hpages, ?_⟩
  rintro ⟨created, granules, htiled⟩
  obtain ⟨t, ht, hrequest, -⟩ := mem_liveBlocks (htiled.buffers.mem_iff.mpr
    (mem_append_right _ mem_cons_self))
  have henough := htiled.enough t ht 3000 hrequest
  obtain ⟨g, hg, hgt⟩ := mem_flatMap.mp ht
  have hmem := tiles_mem (htiled.tiles g hg).2 hgt
  have hgranularity : samplePlatform.arch.granularity g.type = 0x1000 := by
    cases g.type <;> rfl
  have htable : ∀ size ∈ poolSizeTable, 3000 + poolOverhead ≤ size → 0x1000 < size := by decide
  have hsize := htable _ (htiled.sizes t ht) henough
  unfold Tile.last at hmem
  omega

end MuBasecore.PoolRuns
