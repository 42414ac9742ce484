import MuBasecore.SegmentList
import MuBasecore.PoolBlocks

/-!
The granules of the pool allocator are tiled by blocks. A block is in use or on
the list of free blocks of its size, and a granule goes back to the page services
when the last of its blocks is freed.
-/

namespace MuBasecore.PoolTiling

open Word64 SegmentList MemoryTypes PoolServices PoolBlocks Function List

variable {index request : Nat} {type : EfiMemoryType}

theorem listToSize_pos (h : index < 12) : 0 < listToSize index := by
  have htab : ∀ index < 12, 0 < listToSize index := by decide
  exact htab index h

theorem dvd_listToSize (h : index < 12) : 128 ∣ listToSize index := by
  have htab : ∀ index < 12, 128 ∣ listToSize index := by decide
  exact htab index h

theorem carveSize_tiles (fsize limit fuel offset : Nat) (hpos : 0 < fsize)
    (hle : offset ≤ limit) (hfuel : limit - offset ≤ fuel) :
    let carved := carveSize fsize limit fuel offset
    Tiles id (fun offset => offset + fsize - 1) offset carved.2 carved.1 ∧
      carved.2 ≤ limit ∧ limit < carved.2 + fsize ∧ fsize ∣ carved.2 - offset := by
  induction fuel generalizing offset with
  | zero =>
    simp only [carveSize, Tiles, Nat.sub_self, Nat.dvd_zero, and_true, true_and]
    omega
  | succ fuel ih =>
    simp only [carveSize]
    split
    next hroom =>
      obtain ⟨htile, hend, hnext, hdvd⟩ := ih (offset + fsize) hroom (by omega)
      have hmono := tiles_le htile
      refine ⟨⟨rfl, by simp only [id]; omega, ?_⟩, hend, hnext, ?_⟩
      · rw [Nat.sub_add_cancel (by omega)]
        exact htile
      · rw [show (carveSize fsize limit fuel (offset + fsize)).2 - offset =
          (carveSize fsize limit fuel (offset + fsize)).2 - (offset + fsize) + fsize by omega]
        exact Nat.dvd_add hdvd (Nat.dvd_refl fsize)
    · simp only [Tiles, Nat.sub_self, Nat.dvd_zero, and_true, true_and]
      omega

def carvedLast (block : Nat × Nat) : Nat :=
  block.2 + listToSize block.1 - 1

theorem tiles_map_pair {lower upper : Nat} {offsets : List Nat}
    (h : Tiles id (fun offset => offset + listToSize index - 1) lower upper offsets) :
    Tiles Prod.snd carvedLast lower upper (offsets.map fun offset => (index, offset)) := by
  induction offsets generalizing lower with
  | nil => exact h
  | cons offset offsets ih => exact ⟨h.1, h.2.1, ih h.2.2⟩

theorem carveBlocks_tiles {limit offset : Nat} (hidx : index ≤ 12)
    (hle : offset ≤ limit) (hoff : 128 ∣ offset) (hmax : 128 ∣ limit)
    (hzero : index = 0 → offset = limit) :
    Tiles Prod.snd carvedLast offset limit (carveBlocks limit index offset) ∧
      ∀ block ∈ carveBlocks limit index offset, block.1 < index := by
  induction index generalizing offset with
  | zero => exact ⟨hzero rfl, by simp [carveBlocks]⟩
  | succ index ih =>
    rw [carveBlocks]
    split
    swap
    · exact ⟨show offset = limit by omega, by simp⟩
    have hlist : index < 12 := by omega
    obtain ⟨htile, hend, hnext, hdvd⟩ := carveSize_tiles (listToSize index) limit
      limit offset (listToSize_pos hlist) hle (Nat.sub_le _ _)
    have hmono := tiles_le htile
    have hdvd128 := dvd_trans (dvd_listToSize hlist) hdvd
    obtain ⟨hrest, hbel⟩ := ih (by omega) hend (by omega) (by
        rintro rfl
        have hsize : listToSize 0 = 128 := rfl
        omega)
    refine ⟨tiles_append.2 ⟨_, tiles_map_pair htile, hrest⟩, ?_⟩
    intro block hblk
    rcases mem_append.1 hblk with hblk | hblk
    · obtain ⟨-, -, rfl⟩ := mem_map.1 hblk
      exact Nat.lt_succ_self index
    · exact Nat.lt_succ_of_lt (hbel block hblk)

structure Tile where
  type : EfiMemoryType
  start : Nat
  index : Nat
  request : Option Nat
  deriving DecidableEq, Repr

def Tile.last (t : Tile) : Nat :=
  t.start + listToSize t.index - 1

def Tile.Apart (t u : Tile) : Prop :=
  t.last < u.start ∨ u.last < t.start

def Tile.used (t : Tile) : Nat :=
  match t.request with
  | none => 0
  | some request => blockSize request

structure Tile.Proper (t : Tile) : Prop where
  pos : 0 < t.start
  index_lt : t.index < 12
  bound : t.start + listToSize t.index ≤ 2 ^ 64
  enough : ∀ request, t.request = some request → request + poolOverhead ≤ blockSize request
  class_eq : ∀ request, t.request = some request →
    getPoolIndexFromSize (blockSize request) = t.index

variable {σ : Type}

def Recorded (s : PoolState σ) (t : Tile) : Prop :=
  match t.request with
  | none =>
    (s.headers t.start).signature = some .poolFree ∧ (s.headers t.start).index = t.index
  | some request =>
    (s.headers t.start).signature = some .poolHead ∧ (s.headers t.start).type = t.type ∧
      (s.headers t.start).size = blockSize request ∧
      s.tails (headToTail t.start (blockSize request)) = some (blockSize request)

def freeStarts (tiles : List Tile) (type : EfiMemoryType) (index : Nat) : List Nat :=
  (tiles.filter fun t => t.type = type ∧ t.request = none ∧ t.index = index).map Tile.start

def usedBytes (tiles : List Tile) (type : EfiMemoryType) : Nat :=
  ((tiles.filter fun t => t.type = type).map Tile.used).sum

structure Heap (s : PoolState σ) (tiles : List Tile) : Prop where
  proper : ∀ t ∈ tiles, t.Proper
  apart : tiles.Pairwise Tile.Apart
  recorded : ∀ t ∈ tiles, Recorded s t
  pool : ∀ t ∈ tiles, (s.pools t.type).isSome = true
  lists : ∀ type index, (freeBlocks s type index).Perm (freeStarts tiles type index)
  used : ∀ type pool, s.pools type = some pool → pool.used = usedBytes tiles type % 2 ^ 64

variable {s : PoolState σ} {t u : Tile} {tiles tiles' : List Tile}

theorem Tile.Apart.symm (h : t.Apart u) : u.Apart t :=
  Or.symm h

theorem Tile.Proper.start_le_last (h : t.Proper) : t.start ≤ t.last := by
  have := listToSize_pos h.index_lt
  unfold Tile.last
  omega

theorem Tile.Apart.start_ne (h : t.Apart u) (ht : t.Proper) (hu : u.Proper) :
    t.start ≠ u.start := by
  have := ht.start_le_last
  have := hu.start_le_last
  unfold Tile.Apart at h
  omega

theorem Tile.Proper.tail_mem (h : t.Proper) (hreq : t.request = some request) :
    t.start ≤ headToTail t.start (blockSize request) ∧
      headToTail t.start (blockSize request) ≤ t.last := by
  have henough := h.enough request hreq
  have hclass := h.class_eq request hreq
  have hsize := le_listToSize (hclass ▸ h.index_lt)
  rw [hclass] at hsize
  have hbd := h.bound
  unfold headToTail Tile.last add64 sub64 poolOverhead sizeOfPoolHead sizeOfPoolTail at *
  omega

theorem freeStarts_cons :
    freeStarts (t :: tiles) type index =
      if t.type = type ∧ t.request = none ∧ t.index = index then
        t.start :: freeStarts tiles type index
      else freeStarts tiles type index := by
  unfold freeStarts
  rw [filter_cons]
  split <;> rename_i h <;> simp only [decide_eq_true_eq] at h <;> simp [h]

theorem usedBytes_cons :
    usedBytes (t :: tiles) type = (if t.type = type then t.used else 0) + usedBytes tiles type := by
  unfold usedBytes
  rw [filter_cons]
  split <;> rename_i h <;> simp only [decide_eq_true_eq] at h <;> simp [h]

theorem mem_freeStarts {address : Nat} :
    address ∈ freeStarts tiles type index ↔
      ∃ t ∈ tiles, t.type = type ∧ t.request = none ∧ t.index = index ∧ t.start = address := by
  simp only [freeStarts, mem_map, mem_filter, decide_eq_true_eq, and_assoc]

theorem Heap.nodup_starts (h : Heap s tiles) : (tiles.map Tile.start).Nodup := by
  refine pairwise_map.2 (h.apart.imp_of_mem ?_)
  intro t u ht hu hap
  exact hap.start_ne (h.proper t ht) (h.proper u hu)

theorem Heap.count_freeBlocks (h : Heap s tiles) (ht : t ∈ tiles) :
    (freeBlocks s type index).count t.start =
      if t.request = none ∧ t.type = type ∧ t.index = index then 1 else 0 := by
  have hnd : (freeStarts tiles type index).Nodup :=
    h.nodup_starts.sublist (filter_sublist.map _)
  rw [(h.lists type index).count_eq]
  split
  next hfree =>
    exact count_eq_one_of_mem hnd (mem_freeStarts.2 ⟨t, ht, hfree.2.1, hfree.1, hfree.2.2, rfl⟩)
  next hfree =>
    apply count_eq_zero_of_not_mem
    intro hmem
    obtain ⟨u, hu, htype, hreq, hidx, hst⟩ := mem_freeStarts.1 hmem
    obtain rfl := inj_on_of_nodup_map h.nodup_starts hu ht hst
    exact hfree ⟨hreq, htype, hidx⟩

theorem Heap.perm (h : Heap s tiles) (hperm : tiles.Perm tiles') : Heap s tiles' := by
  refine ⟨?_, ?_, ?_, ?_, ?_, ?_⟩
  · intro t ht
    exact h.proper t (hperm.mem_iff.2 ht)
  · exact (hperm.pairwise_iff Tile.Apart.symm).1 h.apart
  · intro t ht
    exact h.recorded t (hperm.mem_iff.2 ht)
  · intro t ht
    exact h.pool t (hperm.mem_iff.2 ht)
  · intro type index
    exact (h.lists type index).trans ((hperm.filter _).map _)
  · intro type pool hpool
    rw [h.used type pool hpool]
    unfold usedBytes
    rw [((hperm.filter _).map _).sum_eq]

variable {other : EfiMemoryType}

theorem pools_modifyPool (f : Pool → Pool) :
    (modifyPool type f s).pools other =
      if other = type then (s.pools other).map f else s.pools other := by
  split
  next h =>
    rw [h]
    exact update_self _ _ _
  next h =>
    exact update_of_ne h _ _

theorem freeBlocks_modifyPool (f : Pool → Pool) (index : Nat) :
    freeBlocks (modifyPool type f s) other index =
      match s.pools other with
      | none => []
      | some pool => if other = type then (f pool).freeList index else pool.freeList index := by
  unfold freeBlocks
  rw [pools_modifyPool]
  by_cases h : other = type
  · cases hpool : s.pools other <;> simp [h]
  · cases hpool : s.pools other <;> simp [h]

theorem isSome_modifyPool (f : Pool → Pool) :
    ((modifyPool type f s).pools other).isSome = (s.pools other).isSome := by
  rw [pools_modifyPool]
  split <;> simp

def heads (s : PoolState σ) (type : EfiMemoryType) : Option Nat :=
  (s.pools type).map Pool.address

theorem heads_modifyPool {f : Pool → Pool}
    (hf : ∀ pool, (f pool).address = pool.address) : heads (modifyPool type f s) = heads s := by
  funext other
  unfold heads
  rw [pools_modifyPool]
  split
  · cases s.pools other <;> simp [hf]
  · rfl

theorem isSome_pools_iff : (s.pools type).isSome = (heads s type).isSome := by
  simp [heads]

section

variable (type : EfiMemoryType)

@[simp] theorem heads_removeEntry (address : Nat) : heads (removeEntry type address s) = heads s :=
  heads_modifyPool fun _ => rfl

@[simp] theorem heads_removeFirst (index : Nat) : heads (removeFirst type index s) = heads s :=
  heads_modifyPool fun _ => rfl

@[simp] theorem heads_insertFree (index address : Nat) :
    heads (insertFree type index address s) = heads s :=
  heads_modifyPool fun _ => rfl

@[simp] theorem heads_fillBlock (head size : Nat) : heads (fillBlock type head size s) = heads s :=
  heads_modifyPool fun _ => rfl

@[simp] theorem heads_carve (newPage offset limit index : Nat) :
    heads (carve type newPage offset limit index s) = heads s := by
  unfold carve
  induction carveBlocks limit index offset generalizing s with
  | nil => rfl
  | cons block blocks ih => exact ih.trans (heads_insertFree _ _ _)

end

theorem usedBytes_cons_free (hfree : t.request = none) :
    usedBytes (t :: tiles) type = usedBytes tiles type := by
  rw [usedBytes_cons]
  simp [Tile.used, hfree]

theorem Heap.used_modifyPool {f : Pool → Pool} {pool : Pool} (h : Heap s tiles)
    (hpool : (modifyPool type f s).pools other = some pool)
    (hf : ∀ pool, (f pool).used = pool.used) :
    pool.used = usedBytes tiles other % 2 ^ 64 := by
  rw [pools_modifyPool] at hpool
  split at hpool
  · obtain ⟨pool₁, hpool₁, rfl⟩ := Option.map_eq_some_iff.1 hpool
    rw [hf]
    exact h.used other pool₁ hpool₁
  · exact h.used other pool hpool

theorem Heap.removeEntry (h : Heap s (t :: tiles)) (hfree : t.request = none) :
    Heap (removeEntry t.type t.start s) tiles := by
  obtain ⟨hap, htile⟩ := pairwise_cons.1 h.apart
  refine ⟨fun u hu => h.proper u (by simp [hu]), htile, fun u hu => h.recorded u (by simp [hu]),
    ?_, ?_, ?_⟩
  · intro u hu
    exact (isSome_modifyPool _).trans (h.pool u (by simp [hu]))
  · intro type index
    have hlist := h.lists type index
    have hmem : t.start ∉ freeStarts tiles type index := by
      intro hmem
      obtain ⟨u, hu, -, -, -, hst⟩ := mem_freeStarts.1 hmem
      exact (hap u hu).start_ne (h.proper t (by simp)) (h.proper u (by simp [hu])) hst.symm
    rw [freeStarts_cons] at hlist
    unfold PoolServices.removeEntry
    rw [freeBlocks_modifyPool]
    unfold freeBlocks at hlist
    cases hpool : s.pools type with
    | none =>
      rw [hpool] at hlist
      dsimp only at hlist ⊢
      split at hlist
      · exact absurd hlist.symm.eq_nil (by simp)
      · exact hlist
    | some pool =>
      rw [hpool] at hlist
      dsimp only at hlist ⊢
      split
      · have herase := hlist.erase t.start
        split at herase
        · rwa [erase_cons_head] at herase
        · rwa [erase_of_not_mem hmem] at herase
      next hne =>
        rwa [if_neg (fun hc => hne hc.1.symm)] at hlist
  · intro type pool hpool
    rw [← usedBytes_cons_free hfree]
    exact h.used_modifyPool hpool fun _ => rfl

theorem removeFirst_eq_removeEntry {rest : List Nat} (h : Heap s (t :: tiles))
    (hlist : freeBlocks s t.type t.index = t.start :: rest) :
    removeFirst t.type t.index s = PoolServices.removeEntry t.type t.start s := by
  obtain ⟨hap, -⟩ := pairwise_cons.1 h.apart
  obtain ⟨pool, hpool⟩ := Option.isSome_iff_exists.1 (h.pool t (by simp))
  have hsame : { pool with
      freeList := update pool.freeList t.index (pool.freeList t.index).tail } =
      { pool with freeList := fun index => (pool.freeList index).erase t.start } := by
    congr 1
    funext index
    by_cases hidx : index = t.index
    · subst hidx
      rw [update_self]
      simp only [freeBlocks, hpool] at hlist
      rw [hlist, tail_cons, erase_cons_head]
    · rw [update_of_ne hidx]
      symm
      apply erase_of_not_mem
      intro hmem
      have hlists := h.lists t.type index
      rw [freeStarts_cons, if_neg (fun hc => hidx hc.2.2.symm)] at hlists
      simp only [freeBlocks, hpool] at hlists
      obtain ⟨u, hu, -, -, -, hst⟩ := mem_freeStarts.1 (hlists.mem_iff.1 hmem)
      exact (hap u hu).start_ne (h.proper t (by simp)) (h.proper u (by simp [hu])) hst.symm
  unfold removeFirst PoolServices.removeEntry modifyPool
  rw [hpool, Option.map_some, Option.map_some, hsame]

theorem Heap.insertFree (h : Heap s tiles) (hprop : t.Proper) (hfree : t.request = none)
    (hpool : (s.pools t.type).isSome = true) (hap : ∀ u ∈ tiles, t.Apart u) :
    Heap (insertFree t.type t.index t.start s) (t :: tiles) := by
  refine ⟨forall_mem_cons.2 ⟨hprop, h.proper⟩, pairwise_cons.2 ⟨hap, h.apart⟩,
    forall_mem_cons.2 ⟨?_, fun u hu => ?_⟩, ?_, ?_, ?_⟩
  · simp [Recorded, hfree, PoolServices.insertFree]
  · have hne : u.start ≠ t.start := ((hap u hu).start_ne hprop (h.proper u hu)).symm
    have := h.recorded u hu
    unfold Recorded PoolServices.insertFree at *
    simp only [update_of_ne hne]
    exact this
  · refine fun u hu => (isSome_modifyPool _).trans ?_
    rcases mem_cons.1 hu with rfl | hu
    · exact hpool
    · exact h.pool u hu
  · intro type index
    have hlist := h.lists type index
    change (freeBlocks (modifyPool t.type _ s) type index).Perm _
    rw [freeBlocks_modifyPool, freeStarts_cons]
    unfold freeBlocks at hlist
    cases hp : s.pools type with
    | none =>
      have hne : t.type ≠ type := by
        rintro rfl
        simp [hp] at hpool
      rw [if_neg (fun hc => hne hc.1)]
      rwa [hp] at hlist
    | some pool =>
      rw [hp] at hlist
      dsimp only at hlist ⊢
      by_cases htype : type = t.type
      · rw [if_pos htype]
        by_cases hidx : index = t.index
        · rw [hidx, update_self, if_pos ⟨htype.symm, hfree, rfl⟩]
          exact (hidx ▸ hlist).cons t.start
        · rw [update_of_ne hidx, if_neg (fun hc => hidx hc.2.2.symm)]
          exact hlist
      · rw [if_neg htype, if_neg (fun hc => htype hc.1.symm)]
        exact hlist
  · intro type pool hpool
    rw [usedBytes_cons_free hfree]
    exact h.used_modifyPool hpool fun _ => rfl

theorem freeBlocks_setUsed (f : Nat → Nat) (index : Nat) :
    freeBlocks (modifyPool type (fun pool => { pool with used := f pool.used }) s) other index =
      freeBlocks s other index := by
  rw [freeBlocks_modifyPool]
  unfold freeBlocks
  cases s.pools other <;> simp

theorem freeStarts_cons_used (hreq : t.request = some request) :
    freeStarts (t :: tiles) type index = freeStarts tiles type index := by
  rw [freeStarts_cons, if_neg]
  simp [hreq]

theorem Recorded.congr {s' : PoolState σ} (h : Recorded s t)
    (hheader : s'.headers t.start = s.headers t.start)
    (htail : ∀ request, t.request = some request →
      s'.tails (headToTail t.start (blockSize request)) =
        s.tails (headToTail t.start (blockSize request))) : Recorded s' t := by
  unfold Recorded at *
  rw [hheader]
  split at h
  · exact h
  next request hreq =>
    rw [htail request hreq]
    exact h

theorem fillBlock_tails (head size : Nat) :
    (fillBlock type head size s).tails = update s.tails (headToTail head size) (some size) :=
  rfl

theorem Heap.fillBlock (h : Heap s tiles) (hprop : t.Proper)
    (hreq : t.request = some request) (hpool : (s.pools t.type).isSome = true)
    (hap : ∀ u ∈ tiles, t.Apart u) :
    Heap (fillBlock t.type t.start (blockSize request) s) (t :: tiles) := by
  refine ⟨forall_mem_cons.2 ⟨hprop, h.proper⟩, pairwise_cons.2 ⟨hap, h.apart⟩,
    forall_mem_cons.2 ⟨?_, fun u hu => ?_⟩, ?_, ?_, ?_⟩
  · simp [Recorded, hreq, PoolServices.fillBlock]
  · have hne : u.start ≠ t.start := ((hap u hu).start_ne hprop (h.proper u hu)).symm
    apply (h.recorded u hu).congr
    · exact update_of_ne hne _ _
    · intro request' hreq'
      have htail := hprop.tail_mem hreq
      have htail' := (h.proper u hu).tail_mem hreq'
      have hne : headToTail u.start (blockSize request') ≠
          headToTail t.start (blockSize request) := by
        have := hap u hu
        unfold Tile.Apart at this
        omega
      rw [fillBlock_tails, update_of_ne hne]
  · refine fun u hu => (isSome_modifyPool _).trans ?_
    rcases mem_cons.1 hu with rfl | hu
    · exact hpool
    · exact h.pool u hu
  · intro type index
    rw [freeStarts_cons_used hreq]
    change (freeBlocks (modifyPool t.type _ s) type index).Perm _
    rw [freeBlocks_setUsed (fun used => add64 used (blockSize request))]
    exact h.lists type index
  · intro type pool hpool
    change (modifyPool t.type _ s).pools type = some pool at hpool
    rw [pools_modifyPool] at hpool
    rw [usedBytes_cons]
    split at hpool
    next htype =>
      obtain ⟨pool₁, hpool₁, rfl⟩ := Option.map_eq_some_iff.1 hpool
      simp only [htype, if_true, Tile.used, hreq, add64]
      rw [h.used type pool₁ hpool₁, htype]
      omega
    next htype =>
      rw [if_neg (fun hc => htype hc.symm), zero_add]
      exact h.used type pool hpool

theorem Heap.release (h : Heap s (t :: tiles)) (hreq : t.request = some request) :
    Heap (modifyPool t.type
      (fun pool => { pool with used := sub64 pool.used (blockSize request) }) s) tiles := by
  obtain ⟨-, htile⟩ := pairwise_cons.1 h.apart
  refine ⟨fun u hu => h.proper u (by simp [hu]), htile, fun u hu => h.recorded u (by simp [hu]),
    ?_, ?_, ?_⟩
  · intro u hu
    exact (isSome_modifyPool _).trans (h.pool u (by simp [hu]))
  · intro type index
    rw [freeBlocks_setUsed (fun used => sub64 used (blockSize request)),
      ← freeStarts_cons_used hreq]
    exact h.lists type index
  · intro type pool hpool
    rw [pools_modifyPool] at hpool
    have hlt : blockSize request < 2 ^ 64 := add64_lt
    split at hpool
    next htype =>
      obtain ⟨pool₁, hpool₁, rfl⟩ := Option.map_eq_some_iff.1 hpool
      have hused := h.used type pool₁ hpool₁
      rw [usedBytes_cons, if_pos htype.symm] at hused
      simp only [Tile.used, hreq] at hused
      simp only [hused, sub64]
      omega
    next htype =>
      have hused := h.used type pool hpool
      rwa [usedBytes_cons, if_neg (fun hc => htype hc.symm), zero_add] at hused

def carvedTile (type : EfiMemoryType) (head : Nat) (block : Nat × Nat) : Tile where
  type := type
  start := head + block.2
  index := block.1
  request := none

variable {blocks : List (Nat × Nat)}

theorem carvedTile_tiles (type : EfiMemoryType) (head : Nat) {lower upper : Nat}
    (h : Tiles Prod.snd carvedLast lower upper blocks)
    (hidx : ∀ block ∈ blocks, block.1 < 12) :
    Tiles Tile.start Tile.last (head + lower) (head + upper)
      (blocks.map (carvedTile type head)) := by
  induction blocks generalizing lower with
  | nil => exact congrArg (head + ·) h
  | cons block blocks ih =>
    have hpos := listToSize_pos (hidx block (by simp))
    have hlast : head + (carvedLast block + 1) = (carvedTile type head block).last + 1 := by
      unfold carvedLast carvedTile Tile.last
      simp only
      omega
    refine ⟨congrArg (head + ·) h.1, ?_, ?_⟩
    · unfold carvedTile Tile.last
      simp only
      omega
    · rw [← hlast]
      exact ih h.2.2 (fun b hb => hidx b (by simp [hb]))

theorem Heap.carveFold {head : Nat} (h : Heap s tiles) (hpool : (s.pools type).isSome = true)
    (hprop : ∀ t ∈ blocks.map (carvedTile type head), t.Proper)
    (hblocks : (blocks.map (carvedTile type head)).Pairwise Tile.Apart)
    (hap : ∀ t ∈ blocks.map (carvedTile type head), ∀ u ∈ tiles, t.Apart u) :
    Heap (blocks.foldl (fun s block => PoolServices.insertFree type block.1 (head + block.2) s) s)
      (blocks.map (carvedTile type head) ++ tiles) := by
  induction blocks generalizing s tiles with
  | nil => exact h
  | cons block blocks ih =>
    rw [map_cons] at hprop hblocks hap ⊢
    obtain ⟨hfst, hblocks⟩ := pairwise_cons.1 hblocks
    have hins : Heap (PoolServices.insertFree type block.1 (head + block.2) s)
        (carvedTile type head block :: tiles) :=
      h.insertFree (t := carvedTile type head block) (hprop _ (by simp)) rfl hpool
        (hap _ (by simp))
    have hrest := ih hins ((isSome_modifyPool _).trans hpool)
      (fun t ht => hprop t (by simp only [mem_cons, ht, or_true])) hblocks
      (fun t ht u hu => by
        rcases mem_cons.1 hu with rfl | hu
        · exact (hfst t ht).symm
        · exact hap t (by simp only [mem_cons, ht, or_true]) u hu)
    exact hrest.perm perm_middle

def liveTile (type : EfiMemoryType) (head request : Nat) : Tile where
  type := type
  start := head
  index := getPoolIndexFromSize (blockSize request)
  request := some request

theorem Heap.serve (head limit index request : Nat) (h : Heap s tiles)
    (hpool : (s.pools type).isSome = true) (hhead : 0 < head) (hbd : head + limit ≤ 2 ^ 64)
    (hroom : ∀ u ∈ tiles, head + limit ≤ u.start ∨ u.last < head)
    (henough : request + poolOverhead ≤ blockSize request)
    (hclass : getPoolIndexFromSize (blockSize request) < 12) (hidx : index ≤ 12)
    (hmax : 128 ∣ limit)
    (hle : listToSize (getPoolIndexFromSize (blockSize request)) ≤ limit)
    (hzero : index = 0 → listToSize (getPoolIndexFromSize (blockSize request)) = limit) :
    ∃ carved,
      Heap (PoolServices.fillBlock type head (blockSize request)
          (carve type head (listToSize (getPoolIndexFromSize (blockSize request))) limit index
            s)) (liveTile type head request :: carved ++ tiles) ∧
      Tiles Tile.start Tile.last head (head + limit) (liveTile type head request :: carved) ∧
      ∀ t ∈ carved, t.type = type ∧ t.index < index ∧ t.request = none := by
  obtain ⟨hblocks, hbel⟩ := carveBlocks_tiles hidx hle (dvd_listToSize hclass) hmax hzero
  have hsml : ∀ block ∈ carveBlocks limit index
      (listToSize (getPoolIndexFromSize (blockSize request))), block.1 < 12 := fun block hb =>
    lt_of_lt_of_le (hbel block hb) hidx
  have hcarved := carvedTile_tiles type head hblocks hsml
  generalize hcarvedEq : (carveBlocks limit index
    (listToSize (getPoolIndexFromSize (blockSize request)))).map (carvedTile type head) = carved
    at hcarved
  have hpos := listToSize_pos hclass
  have hlast : (liveTile type head request).last + 1 =
      head + listToSize (getPoolIndexFromSize (blockSize request)) := by
    unfold liveTile Tile.last
    simp only
    omega
  have htile : Tiles Tile.start Tile.last head (head + limit)
      (liveTile type head request :: carved) := by
    refine ⟨rfl, ?_, ?_⟩
    · change head ≤ (liveTile type head request).last
      omega
    · rw [hlast]
      exact hcarved
  have hmember : ∀ t ∈ carved, t.type = type ∧ t.index < index ∧ t.request = none := by
    rw [← hcarvedEq]
    intro t ht
    obtain ⟨block, hblk, rfl⟩ := mem_map.1 ht
    exact ⟨rfl, hbel block hblk, rfl⟩
  have hprop : ∀ t ∈ carved, t.Proper := by
    intro t ht
    have hmem := tiles_mem hcarved ht
    obtain ⟨-, hlt, hfree⟩ := hmember t ht
    refine ⟨by omega, by omega, ?_, ?_, ?_⟩
    · have := hmem.2.2
      unfold Tile.last at this
      omega
    · simp [hfree]
    · simp [hfree]
  have hlive : (liveTile type head request).Proper := by
    refine ⟨hhead, hclass, ?_, ?_, ?_⟩
    · change head + listToSize (getPoolIndexFromSize (blockSize request)) ≤ 2 ^ 64
      omega
    · rintro _ ⟨⟩
      exact henough
    · rintro _ ⟨⟩
      rfl
  have hin : ∀ t ∈ liveTile type head request :: carved, ∀ u ∈ tiles, t.Apart u := by
    intro t ht u hu
    have hmem := tiles_mem htile ht
    have := hroom u hu
    unfold Tile.Apart
    omega
  have hpair : (liveTile type head request :: carved).Pairwise Tile.Apart :=
    (tiles_pairwise htile).imp .inl
  obtain ⟨hfst, hrest⟩ := pairwise_cons.1 hpair
  refine ⟨carved, ?_, htile, hmember⟩
  subst hcarvedEq
  have hcarve := h.carveFold hpool hprop hrest (fun t ht => hin t (by
    simp only [mem_cons, ht, or_true]))
  refine hcarve.fillBlock (t := liveTile type head request) hlive rfl ?_ ?_
  · change ((carve type head _ limit index s).pools type).isSome = true
    rw [isSome_pools_iff, heads_carve, ← isSome_pools_iff]
    exact hpool
  · intro u hu
    rcases mem_append.1 hu with hu | hu
    · exact hfst u hu
    · exact hin _ (by simp) u hu

theorem Heap.setPages (h : Heap s tiles) (pages : σ) : Heap { s with pages := pages } tiles :=
  ⟨h.proper, h.apart, h.recorded, h.pool, h.lists, h.used⟩

theorem Heap.removeGranule {rest : List Tile} (h : Heap s (tiles ++ rest))
    (htypes : ∀ t ∈ tiles, t.type = type) (hfree : ∀ t ∈ tiles, t.request = none) :
    Heap ((tiles.map Tile.start).foldl
      (fun s address => PoolServices.removeEntry type address s) s) rest := by
  induction tiles generalizing s with
  | nil => exact h
  | cons t tiles ih =>
    have hrem := h.removeEntry (hfree t (by simp))
    rw [htypes t (by simp)] at hrem
    exact ih hrem (fun u hu => htypes u (by simp [hu])) (fun u hu => hfree u (by simp [hu]))

def Tile.freed (t : Tile) : Tile :=
  { t with request := none }

def giveBack (t : Tile) (request : Nat) (s : PoolState σ) : PoolState σ :=
  insertFree t.type t.index t.start (modifyPool t.type
    (fun pool => { pool with used := sub64 pool.used (blockSize request) }) s)

@[simp] theorem giveBack_pages (t : Tile) (request : Nat) :
    (giveBack t request s).pages = s.pages :=
  rfl

@[simp] theorem heads_giveBack (t : Tile) (request : Nat) :
    heads (giveBack t request s) = heads s :=
  (heads_insertFree _ _ _).trans (heads_modifyPool fun _ => rfl)

theorem Heap.giveBack (h : Heap s (t :: tiles)) (hreq : t.request = some request) :
    Heap (giveBack t request s) (t.freed :: tiles) := by
  have hprop := h.proper t (by simp)
  refine (h.release hreq).insertFree (t := t.freed) ?_ rfl ?_ ?_
  · exact ⟨hprop.pos, hprop.index_lt, hprop.bound, by simp [Tile.freed], by simp [Tile.freed]⟩
  · exact (isSome_modifyPool _).trans (h.pool t (by simp))
  · exact (pairwise_cons.1 h.apart).1

theorem Tile.Proper.used_le (h : t.Proper) : t.used ≤ listToSize t.index := by
  unfold Tile.used
  split
  · exact Nat.zero_le _
  next request hreq =>
    have hclass := h.class_eq request hreq
    rw [← hclass]
    exact le_listToSize (hclass ▸ h.index_lt)

theorem Heap.usedBytes_lt (h : Heap s tiles) : usedBytes tiles type < 2 ^ 64 := by
  have hmem : ∀ t ∈ tiles.filter (fun t => t.type = type), t.Proper := fun t ht =>
    h.proper t (mem_of_mem_filter ht)
  have hsum : ((tiles.filter fun t => t.type = type).map fun t => listToSize t.index).sum ≤
      2 ^ 64 - 1 := by
    apply sum_length_le Tile.start
    · refine (h.apart.sublist filter_sublist).imp_of_mem ?_
      intro t u ht hu hap
      unfold Tile.Apart Tile.last at hap
      omega
    · exact fun t ht => (hmem t ht).pos
    · exact fun t ht => (hmem t ht).bound
  have hle : usedBytes tiles type ≤
      ((tiles.filter fun t => t.type = type).map fun t => listToSize t.index).sum :=
    sum_le_sum fun t ht => (hmem t ht).used_le
  omega

theorem Heap.idle_of_used {pool : Pool} (h : Heap s tiles)
    (hpool : s.pools type = some pool) (hused : pool.used = 0) (ht : t ∈ tiles)
    (htype : t.type = type) : t.request = none := by
  have hsum := h.used type pool hpool
  rw [hused, Nat.mod_eq_of_lt (h.usedBytes_lt)] at hsum
  have hzero : t.used = 0 := by
    apply sum_eq_zero_iff.1 hsum.symm
    exact mem_map_of_mem (mem_filter.2 ⟨ht, decide_eq_true htype⟩)
  by_contra hne
  obtain ⟨request, hreq⟩ := Option.ne_none_iff_exists'.1 hne
  have henough := (h.proper t ht).enough request hreq
  rw [Tile.used, hreq] at hzero
  unfold poolOverhead sizeOfPoolHead at henough
  simp only at hzero
  omega

theorem Heap.setPool {pool : Option Pool} (h : Heap s tiles) (hnone : ∀ t ∈ tiles, t.type ≠ type)
    (hnil : ∀ new, pool = some new → new.used = 0 ∧ ∀ index, new.freeList index = []) :
    Heap { s with pools := update s.pools type pool } tiles := by
  refine ⟨h.proper, h.apart, h.recorded, ?_, ?_, ?_⟩
  · intro t ht
    dsimp only
    rw [update_of_ne (hnone t ht)]
    exact h.pool t ht
  · intro other index
    by_cases hoth : other = type
    · subst hoth
      have hstarts : freeStarts tiles other index = [] := by
        rw [freeStarts, filter_eq_nil_iff.2, map_nil]
        intro t ht
        simp [hnone t ht]
      rw [hstarts, freeBlocks]
      dsimp only
      rw [update_self]
      cases hpool : pool with
      | none => exact List.Perm.refl []
      | some new => exact List.Perm.of_eq ((hnil new hpool).2 index)
    · have hlist := h.lists other index
      unfold freeBlocks at hlist ⊢
      dsimp only
      rwa [update_of_ne hoth]
  · intro other new hnew
    dsimp only at hnew
    by_cases hoth : other = type
    · subst hoth
      rw [update_self] at hnew
      have hbyt : usedBytes tiles other = 0 := by
        rw [usedBytes, filter_eq_nil_iff.2, map_nil, sum_nil]
        intro t ht
        simp [hnone t ht]
      rw [hbyt]
      exact (hnil new hnew).1
    · rw [update_of_ne hoth] at hnew
      exact h.used other new hnew

end MuBasecore.PoolTiling
