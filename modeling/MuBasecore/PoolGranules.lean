import MuBasecore.PoolTiling

/-!
The granules of the pool allocator over page services that hand out fresh, aligned
memory, and what serving a request and freeing a block do to them.
-/

namespace MuBasecore.PoolGranules

open EfiTypes Word64 SegmentList MemoryTypes PageServices PoolServices PageGrants PoolBlocks
  Option
open PoolTiling Tile List

structure Granule where
  type : EfiMemoryType
  base : Nat
  tiles : List Tile
  deriving DecidableEq, Repr

def allTiles (granules : List Granule) : List Tile :=
  granules.flatMap Granule.tiles

def liveBlocks (tiles : List Tile) : List (Nat × Nat) :=
  tiles.filterMap fun t => t.request.map fun request => (t.start + sizeOfPoolHead, request)

structure Granule.Ok (p : Platform) (g : Granule) : Prop where
  aligned : p.arch.granularity g.type ∣ g.base
  tiled : Tiles Tile.start Tile.last g.base (g.base + p.arch.granularity g.type) g.tiles
  types : ∀ t ∈ g.tiles, t.type = g.type
  classes : ∀ t ∈ g.tiles, t.index < getPoolIndexFromSize (p.arch.granularity g.type)
  busy : ∃ t ∈ g.tiles, t.request ≠ none

def freeTile (t : Tile) (granules : List Granule) : List Granule :=
  (granules.map fun g =>
    { g with tiles := g.tiles.map fun u => if u = t then t.freed else u }).filter
    fun g => g.tiles.any fun u => u.request.isSome

def Granule.pages (p : Platform) (g : Granule) : Nat × Nat :=
  (g.base, sizeToPages (p.arch.granularity g.type))

variable {before behind tiles : List Tile} {t : Tile} {gs₁ gs₂ : List Granule} {base : Nat}
  {σ : Type}

/-- What the pools ask of the page services. -/
structure PageContract (service : PageService σ) (owned : σ → List (Nat × Nat)) : Prop where
  allocate : ∀ {type count granularity pages head pages'},
    service.allocate type count granularity pages = some (head, pages') →
      head = 0 ∧ (owned pages').Perm (owned pages) ∨
        0 < head ∧ granularity ∣ head ∧ head + count * efiPageSize ≤ 2 ^ 64 ∧
          (∀ block ∈ owned pages, head + count * efiPageSize ≤ block.1 ∨
            block.1 + block.2 * efiPageSize ≤ head) ∧
          (owned pages').Perm ((head, count) :: owned pages)
  free : ∀ {head count pages pages'}, service.free head count pages = some pages' →
    (owned pages').Perm ((owned pages).erase (head, count))

structure Invariant (p : Platform) (owned : σ → List (Nat × Nat)) (s : PoolState σ)
    (live : List (Nat × Nat)) (granules : List Granule) : Prop where
  heap : Heap s (allTiles granules)
  ok : ∀ g ∈ granules, g.Ok p
  owns : (owned s.pages).Perm (granules.map (Granule.pages p))
  uses : (liveBlocks (allTiles granules)).Perm live
  valid : ∀ type, (heads s type).isSome = true → type.valid = true

def SubGranular (p : Platform) (type : EfiMemoryType) (request : Nat) : Prop :=
  request ≤ p.arch.granularity type ∧
    getPoolIndexFromSize (blockSize request) < getPoolIndexFromSize (p.arch.granularity type)

theorem allTiles_append (xs ys : List Granule) : allTiles (xs ++ ys) = allTiles xs ++ allTiles ys :=
  flatMap_append

variable {g : Granule}

theorem allTiles_cons (gs : List Granule) : allTiles (g :: gs) = g.tiles ++ allTiles gs :=
  flatMap_cons

theorem liveBlocks_append (xs ys : List Tile) :
    liveBlocks (xs ++ ys) = liveBlocks xs ++ liveBlocks ys :=
  filterMap_append

theorem liveBlocks_cons :
    liveBlocks (t :: tiles) =
      (t.request.map fun request => (t.start + sizeOfPoolHead, request)).toList ++
        liveBlocks tiles := by
  unfold liveBlocks
  rw [filterMap_cons]
  cases t.request <;> rfl

theorem liveBlocks_of_free (h : ∀ t ∈ tiles, t.request = none) : liveBlocks tiles = [] := by
  unfold liveBlocks
  rw [filterMap_eq_nil_iff]
  intro t ht
  rw [h t ht, map_none]

variable {granules : List Granule}

theorem exists_split_of_mem (h : t ∈ allTiles granules) :
    ∃ gs₁ type base before behind gs₂,
      granules = gs₁ ++ ⟨type, base, before ++ t :: behind⟩ :: gs₂ := by
  obtain ⟨g, hg, ht⟩ := mem_flatMap.1 h
  obtain ⟨gs₁, gs₂, rfl⟩ := append_of_mem hg
  obtain ⟨before, behind, heq⟩ := append_of_mem ht
  refine ⟨gs₁, g.type, g.base, before, behind, gs₂, ?_⟩
  rw [← heq]

theorem allTiles_middle : (allTiles (gs₁ ++ g :: gs₂)).Perm (g.tiles ++ allTiles (gs₁ ++ gs₂)) := by
  rw [allTiles_append, allTiles_cons, allTiles_append]
  exact perm_append_comm_assoc _ _ _

theorem allTiles_perm (gs₁ : List Granule) (type : EfiMemoryType) (base : Nat)
    (before ts behind : List Tile) (gs₂ : List Granule) :
    (allTiles (gs₁ ++ ⟨type, base, before ++ ts ++ behind⟩ :: gs₂)).Perm
      (ts ++ (allTiles gs₁ ++ (before ++ behind) ++ allTiles gs₂)) := by
  rw [allTiles_append, allTiles_cons]
  simp only [append_assoc]
  refine (List.Perm.append_left _ (perm_append_comm_assoc _ _ _)).trans ?_
  exact perm_append_comm_assoc _ _ _

theorem map_freed_of_not_mem (h : t ∉ tiles) :
    tiles.map (fun u => if u = t then t.freed else u) = tiles := by
  refine (map_congr_left fun u hu => ?_).trans (map_id tiles)
  rw [if_neg (fun heq : u = t => h (heq ▸ hu))]
  rfl

theorem freeTile_of_not_mem {p : Platform}
    (hok : ∀ g ∈ granules, g.Ok p) (h : t ∉ allTiles granules) :
    freeTile t granules = granules := by
  have hmap : granules.map (fun g : Granule =>
      { g with tiles := g.tiles.map fun u => if u = t then t.freed else u }) = granules := by
    refine (map_congr_left fun g hg => ?_).trans (map_id granules)
    rw [map_freed_of_not_mem fun ht => h (mem_flatMap.2 ⟨g, hg, ht⟩)]
    rfl
  rw [freeTile, hmap, filter_eq_self]
  intro g hg
  obtain ⟨u, hu, hreq⟩ := (hok g hg).busy
  exact any_eq_true.2 ⟨u, hu, isSome_iff_ne_none.2 hreq⟩

variable {type : EfiMemoryType}

theorem freeTile_split {p : Platform}
    (hok : ∀ g ∈ gs₁ ++ ⟨type, base, before ++ t :: behind⟩ :: gs₂, g.Ok p)
    (h : t ∉ allTiles gs₁ ++ (before ++ behind) ++ allTiles gs₂) :
    freeTile t (gs₁ ++ ⟨type, base, before ++ t :: behind⟩ :: gs₂) =
      if ∀ u ∈ before ++ [t.freed] ++ behind, u.request = none then gs₁ ++ gs₂
      else gs₁ ++ ⟨type, base, before ++ [t.freed] ++ behind⟩ :: gs₂ := by
  simp only [mem_append, not_or] at h
  obtain ⟨⟨hgs₁, hpre, hback⟩, hgs₂⟩ := h
  have hfst := freeTile_of_not_mem (fun g hg => hok g (by simp [hg])) hgs₁
  have hsecond := freeTile_of_not_mem (fun g hg => hok g (by simp [hg])) hgs₂
  have htile : (before ++ t :: behind).map (fun u => if u = t then t.freed else u) =
      before ++ [t.freed] ++ behind := by
    rw [map_append, map_cons, if_pos rfl, map_freed_of_not_mem hpre,
      map_freed_of_not_mem hback, append_assoc]
    rfl
  unfold freeTile at hfst hsecond ⊢
  rw [map_append, map_cons, filter_append, hfst, filter_cons, hsecond, htile]
  split
  next hbusy =>
    rw [if_neg]
    intro hfree
    obtain ⟨u, hu, hreq⟩ := any_eq_true.1 hbusy
    rw [hfree u hu] at hreq
    exact absurd hreq (by simp)
  next hidle =>
    rw [if_pos]
    intro u hu
    by_contra hreq
    exact hidle (any_eq_true.2 ⟨u, hu, isSome_iff_ne_none.2 hreq⟩)

variable {ts : List Tile} {live' : List (Nat × Nat)} {p : Platform} {service : PageService σ}
  {owned : σ → List (Nat × Nat)} {s s' : PoolState σ} {live : List (Nat × Nat)}

section Allocate

variable {request head : Nat}

theorem SubGranular.enough (h : SubGranular p type request) :
    request + poolOverhead ≤ blockSize request := by
  have hle := h.1
  have hgran := granularity_cases p.arch type
  have hmax : request ≤ maxPoolSize := by
    unfold maxPoolSize poolOverhead sizeOfPoolHead sizeOfPoolTail
    omega
  rw [blockSize_eq hmax, if_pos]
  · omega
  · unfold poolOverhead sizeOfPoolHead sizeOfPoolTail
    omega

theorem tiles_replace {lower upper : Nat} (h : Tiles start last lower upper (before ++ t :: behind))
    (hts : Tiles start last t.start (t.last + 1) ts) :
    Tiles start last lower upper (before ++ ts ++ behind) := by
  obtain ⟨middle, hpre, hst, -, hback⟩ := tiles_append.1 h
  rw [append_assoc]
  exact tiles_append.2 ⟨middle, hpre, tiles_append.2 ⟨t.last + 1, hst ▸ hts, hback⟩⟩

theorem Invariant.replace
    (h : Invariant p owned s live (gs₁ ++ ⟨type, base, before ++ t :: behind⟩ :: gs₂))
    (hheap : Heap s' (ts ++ (allTiles gs₁ ++ (before ++ behind) ++ allTiles gs₂)))
    (hts : Tiles start last t.start (t.last + 1) ts)
    (htypes : ∀ u ∈ ts, u.type = type)
    (hclasses : ∀ u ∈ ts, u.index < getPoolIndexFromSize (p.arch.granularity type))
    (hbusy : ∃ u ∈ before ++ ts ++ behind, u.request ≠ none) (hpgs : s'.pages = s.pages)
    (hhds : heads s' = heads s) (hlive : ∀ rest, (liveBlocks [t] ++ rest).Perm live →
      (liveBlocks ts ++ rest).Perm live') :
    Invariant p owned s' live' (gs₁ ++ ⟨type, base, before ++ ts ++ behind⟩ :: gs₂) := by
  have hgranule := h.ok ⟨type, base, before ++ t :: behind⟩ (by simp)
  have hnew : ∀ u ∈ before ++ ts ++ behind, u ∈ ts ∨ u ∈ before ++ t :: behind := by
    intro u hu
    simp only [mem_append, mem_cons] at hu ⊢
    tauto
  refine ⟨hheap.perm (allTiles_perm gs₁ type base before ts behind gs₂).symm, ?_, ?_, ?_, ?_⟩
  · intro g hg
    rcases mem_append.1 hg with hg | hg
    · exact h.ok g (by simp [hg])
    rcases mem_cons.1 hg with rfl | hg
    · refine ⟨hgranule.aligned, tiles_replace hgranule.tiled hts, ?_, ?_, hbusy⟩
      · intro u hu
        rcases hnew u hu with hu | hu
        · exact htypes u hu
        · exact hgranule.types u hu
      · intro u hu
        rcases hnew u hu with hu | hu
        · exact hclasses u hu
        · exact hgranule.classes u hu
    · exact h.ok g (by simp [hg])
  · rw [hpgs]
    refine h.owns.trans (List.Perm.of_eq ?_)
    simp [Granule.pages]
  · have hperm := (allTiles_perm gs₁ type base before ts behind gs₂).filterMap
      fun t => t.request.map fun request => (t.start + sizeOfPoolHead, request)
    have hperm₀ := (allTiles_perm gs₁ type base before [t] behind gs₂).filterMap
      fun t => t.request.map fun request => (t.start + sizeOfPoolHead, request)
    have heq : before ++ [t] ++ behind = before ++ t :: behind := by simp
    rw [heq] at hperm₀
    change (liveBlocks _).Perm (liveBlocks _) at hperm hperm₀
    rw [liveBlocks_append] at hperm hperm₀
    exact hperm.trans (hlive _ (hperm₀.symm.trans h.uses))
  · rw [hhds]
    exact h.valid

theorem Invariant.serveFromList {pool : Pool} {index : Nat}
    (h : Invariant p owned s live granules) (hreq : SubGranular p type request)
    (hpool : s.pools type = some pool) (hle : getPoolIndexFromSize (blockSize request) ≤ index)
    (hlt : index < getPoolIndexFromSize (p.arch.granularity type))
    (hhead : (pool.freeList index).head? = some head) :
    ∃ granules', 0 < head ∧ head + sizeOfPoolHead < 2 ^ 64 ∧
      Invariant p owned (fillBlock type head (blockSize request)
        (carve type head (listToSize (getPoolIndexFromSize (blockSize request)))
          (listToSize index) index (removeFirst type index s)))
        ((head + sizeOfPoolHead, request) :: live) granules' := by
  obtain ⟨rest, hlist⟩ := head?_eq_some_iff.1 hhead
  have hfreeBlocks : freeBlocks s type index = head :: rest := by
    rw [freeBlocks, hpool]
    exact hlist
  have hmem : head ∈ freeStarts (allTiles granules) type index := by
    rw [← (h.heap.lists type index).mem_iff, hfreeBlocks]
    exact mem_cons_self
  obtain ⟨t, ht, rfl, hfree, rfl, rfl⟩ := mem_freeStarts.1 hmem
  obtain ⟨gs₁, gtype, base, before, behind, gs₂, rfl⟩ := exists_split_of_mem ht
  have hgranule := h.ok ⟨gtype, base, before ++ t :: behind⟩ (by simp)
  obtain rfl : t.type = gtype := hgranule.types t (by simp)
  have hspl := allTiles_perm gs₁ t.type base before [t] behind gs₂
  have heq : before ++ [t] ++ behind = before ++ t :: behind := by simp
  rw [heq] at hspl
  have hheap := h.heap.perm hspl
  have hprop := hheap.proper t (by simp)
  obtain ⟨hap, -⟩ := pairwise_cons.1 hheap.apart
  have hidx := hprop.index_lt
  have hpos := listToSize_pos hidx
  have hrem := hheap.removeEntry hfree
  rw [← removeFirst_eq_removeEntry hheap hfreeBlocks] at hrem
  obtain ⟨carved, hserved, htile, hcarve⟩ := hrem.serve t.start (listToSize t.index)
    t.index request ((isSome_modifyPool _).trans (by rw [hpool]; rfl)) hprop.pos hprop.bound
    (fun u hu => by
      have := hap u hu
      unfold Tile.Apart last at *
      omega)
    hreq.enough (by omega) (by omega) (dvd_listToSize hidx) (listToSize_le hle hidx)
    (fun hzero => by rw [hzero, show getPoolIndexFromSize (blockSize request) = 0 by omega])
  have hlast : t.start + listToSize t.index = t.last + 1 := by
    unfold last
    omega
  rw [hlast] at htile
  refine ⟨_, hprop.pos, ?_, h.replace hserved htile ?_ ?_ ?_ (by simp) (by simp) ?_⟩
  · have hbd := hprop.bound
    have : 128 ≤ listToSize t.index := Nat.le_of_dvd hpos (dvd_listToSize hidx)
    unfold sizeOfPoolHead
    omega
  · intro u hu
    rcases mem_cons.1 hu with rfl | hu
    · rfl
    · exact (hcarve u hu).1
  · intro u hu
    rcases mem_cons.1 hu with rfl | hu
    · exact hle.trans_lt hlt
    · exact lt_trans (hcarve u hu).2.1 hlt
  · exact ⟨liveTile t.type t.start request, by simp, by simp [liveTile]⟩
  · intro rest hrest
    rw [liveBlocks_cons, liveBlocks_of_free fun u hu => (hcarve u hu).2.2]
    rw [liveBlocks_of_free fun u hu => by rw [mem_singleton.1 hu]; exact hfree] at hrest
    exact hrest.cons _

theorem Invariant.serveFromGranule {pages : σ} (hspec : PageContract service owned)
    (h : Invariant p owned s live granules) (hreq : SubGranular p type request)
    (hpool : (s.pools type).isSome = true) (hne : head ≠ 0)
    (halloc : service.allocate type (sizeToPages (p.arch.granularity type))
      (p.arch.granularity type) s.pages = some (head, pages)) :
    ∃ granules', 0 < head ∧ head + sizeOfPoolHead < 2 ^ 64 ∧
      Invariant p owned (fillBlock type head (blockSize request)
        (carve type head (listToSize (getPoolIndexFromSize (blockSize request)))
          (p.arch.granularity type) (getPoolIndexFromSize (p.arch.granularity type))
          { s with pages := pages }))
        ((head + sizeOfPoolHead, request) :: live) granules' := by
  have hgran := granularity_cases p.arch type
  obtain ⟨hzero, -⟩ | ⟨hpos, haligned, hbd, hfresh, howned⟩ := hspec.allocate halloc
  · exact absurd hzero hne
  rw [sizeToPages_mul hgran] at hbd hfresh
  have hroom : ∀ u ∈ allTiles granules,
      head + p.arch.granularity type ≤ u.start ∨ u.last < head := by
    intro u hu
    obtain ⟨g, hg, hgu⟩ := mem_flatMap.1 hu
    have hmem := tiles_mem (h.ok g hg).tiled hgu
    have hblk := hfresh (g.pages p) (h.owns.mem_iff.2 (mem_map_of_mem hg))
    simp only [Granule.pages, sizeToPages_mul (granularity_cases p.arch g.type)] at hblk
    omega
  have hlimit := poolIndex_le (p.arch.granularity type)
  have hclass := hreq.2
  obtain ⟨carved, hserved, htile, hcarve⟩ := (h.heap.setPages pages).serve head
    (p.arch.granularity type) (getPoolIndexFromSize (p.arch.granularity type)) request hpool hpos
    hbd hroom hreq.enough (by omega) hlimit
    (by rcases hgran with h | h <;> rw [h] <;> decide)
    (le_of_lt (listToSize_lt hclass)) (by omega)
  refine ⟨⟨type, head, liveTile type head request :: carved⟩ :: granules, hpos, ?_, ?_⟩
  · unfold sizeOfPoolHead
    omega
  refine ⟨?_, ?_, ?_, ?_, ?_⟩
  · rw [allTiles_cons]
    exact hserved
  · intro g hg
    rcases mem_cons.1 hg with rfl | hg
    · refine ⟨haligned, htile, ?_, ?_, ?_⟩
      · intro u hu
        rcases mem_cons.1 hu with rfl | hu
        · rfl
        · exact (hcarve u hu).1
      · intro u hu
        rcases mem_cons.1 hu with rfl | hu
        · exact hclass
        · exact (hcarve u hu).2.1
      · exact ⟨liveTile type head request, by simp, by simp [liveTile]⟩
    · exact h.ok g hg
  · rw [fillBlock_pages, carve_pages, map_cons]
    exact howned.trans (h.owns.cons _)
  · rw [allTiles_cons, cons_append, liveBlocks_cons, liveBlocks_append,
      liveBlocks_of_free fun u hu => (hcarve u hu).2.2]
    exact h.uses.cons _
  · rw [heads_fillBlock, heads_carve]
    exact h.valid

theorem heads_allocateBlock {granularity size : Nat}
    (h : allocateBlock service granularity type size s = some (head, s')) : heads s' = heads s := by
  cases allocate_outcome h with
  | noPool => rfl
  | noPages => rfl
  | pages => exact heads_fillBlock _ _ _
  | list =>
    rw [heads_fillBlock, heads_carve, heads_removeFirst]
  | granule =>
    rw [heads_fillBlock, heads_carve]
    rfl

theorem allocateBlock_invariant (hspec : PageContract service owned)
    (h : Invariant p owned s live granules) (hreq : SubGranular p type request)
    (hpool : (s.pools type).isSome = true)
    (hblk : allocateBlock service (p.arch.granularity type) type (blockSize request) s =
      some (head, s')) :
    head = 0 ∧ Invariant p owned s' live granules ∨
      ∃ granules', 0 < head ∧ head + sizeOfPoolHead < 2 ^ 64 ∧
        Invariant p owned s' ((head + sizeOfPoolHead, request) :: live) granules' := by
  cases allocate_outcome hblk with
  | noPool => exact .inl ⟨rfl, h⟩
  | noPages halloc =>
    obtain ⟨-, howned⟩ | ⟨hpos, -⟩ := hspec.allocate halloc
    · exact .inl ⟨rfl, h.heap.setPages _, h.ok, howned.trans h.owns, h.uses, h.valid⟩
    · omega
  | pages hne hidx halloc => exact absurd hreq.2 (Nat.not_lt_of_le hidx)
  | list hfnd hle hlt hhead => exact .inr (h.serveFromList hreq hfnd hle hlt hhead)
  | granule hfnd hne hlt hempty halloc =>
    exact .inr (h.serveFromGranule hspec hreq hpool hne halloc)

end Allocate

theorem scanGranule_eq {granularity fuel offset : Nat}
    (htile : Tiles start last (base + offset) (base + granularity) tiles)
    (hrecorded : ∀ t ∈ tiles, Recorded s t) (hprop : ∀ t ∈ tiles, t.Proper)
    (hfuel : granularity - offset < fuel) :
    let scan := scanGranule s.headers base granularity fuel offset
    (scan.2 = true ↔ ∀ t ∈ tiles, t.request = none) ∧
      (scan.2 = true → scan.1.map (base + ·) = tiles.map start) := by
  induction tiles generalizing fuel offset with
  | nil =>
    have hend : base + offset = base + granularity := htile
    cases fuel with
    | zero => omega
    | succ fuel => simp [scanGranule, show ¬ offset < granularity by omega]
  | cons t tiles ih =>
    obtain ⟨hst, hle, hrest⟩ := htile
    have hup := tiles_le hrest
    have hpos := listToSize_pos (hprop t (by simp)).index_lt
    have hrec := hrecorded t (by simp)
    have hlast : t.last + 1 = base + (offset + listToSize t.index) := by
      unfold last
      omega
    cases fuel with
    | zero => omega
    | succ fuel =>
      simp only [scanGranule, ← hst, show offset < granularity by omega, if_true]
      unfold Recorded at hrec
      split at hrec
      next hfree =>
        rw [if_neg (by simp [hrec.1]), hrec.2]
        have hless : granularity - (offset + listToSize t.index) < fuel := by omega
        obtain ⟨hall, hvis⟩ := ih (hlast ▸ hrest)
          (fun u hu => hrecorded u (by simp [hu])) (fun u hu => hprop u (by simp [hu])) hless
        simp only [mem_cons, forall_eq_or_imp, hfree, true_and, map_cons, hst]
        exact ⟨hall, fun hscan => by rw [hvis hscan]⟩
      next request hreq =>
        rw [if_pos (by simp [hrec.1])]
        simp [hreq]

theorem foldl_removeEntry_frame (type : EfiMemoryType) (addresses : List Nat) :
    (addresses.foldl (fun s address => removeEntry type address s) s).pages = s.pages ∧
      heads (addresses.foldl (fun s address => removeEntry type address s) s) = heads s := by
  induction addresses generalizing s with
  | nil => exact ⟨rfl, rfl⟩
  | cons address addresses ih =>
    obtain ⟨hpgs, hhds⟩ := ih (s := removeEntry type address s)
    exact ⟨hpgs, hhds.trans (heads_removeEntry _ _)⟩

theorem lookupPoolHead_of_isSome (hval : type.valid = true) (hpool : (s.pools type).isSome = true) :
    lookupPoolHead service p type s = some (true, s) := by
  simp [lookupPoolHead, hval, hpool]

variable {buffer request : Nat}

theorem mem_liveBlocks (h : (buffer, request) ∈ liveBlocks tiles) :
    ∃ t ∈ tiles, t.request = some request ∧ t.start + sizeOfPoolHead = buffer := by
  obtain ⟨t, ht, heq⟩ := mem_filterMap.1 h
  obtain ⟨request', hreq, heq⟩ := map_eq_some_iff.1 heq
  obtain ⟨⟩ := heq
  exact ⟨t, ht, hreq, rfl⟩

theorem Granule.Ok.alignTo_start (h : g.Ok p) (ht : t ∈ g.tiles) :
    alignTo t.start (p.arch.granularity g.type) = g.base := by
  have hmem := tiles_mem h.tiled ht
  obtain ⟨k, hk⟩ := h.aligned
  have hdiv : t.start / p.arch.granularity g.type = k := by
    apply Nat.div_eq_of_lt_le
    · rw [mul_comm, ← hk]
      exact hmem.1
    · rw [mul_comm, Nat.mul_succ, ← hk]
      omega
  rw [alignTo, hdiv, hk, mul_comm]

theorem freeBlock_eq {rest : List Tile} (h : Heap s (t :: rest))
    (hreq : t.request = some request) (hval : t.type.valid = true)
    (hclass : t.index < getPoolIndexFromSize (p.arch.granularity t.type)) :
    freeBlock service p (t.start + sizeOfPoolHead) s =
      let s₂ := giveBack t request s
      let granularity := p.arch.granularity t.type
      let newPage := alignTo t.start granularity
      let scan := scanGranule s₂.headers newPage granularity (granularity + 1) 0
      if scan.2 then
        let s₃ := (scan.1.map (newPage + ·)).foldl
          (fun s address => removeEntry t.type address s) s₂
        (service.free newPage (sizeToPages granularity) s₃.pages).map
          fun pages => (.success, { s₃ with pages := pages })
      else some (.success, s₂) := by
  have hprop := h.proper t (by simp)
  have hbd := hprop.bound
  have hsize : 128 ≤ listToSize t.index :=
    Nat.le_of_dvd (listToSize_pos hprop.index_lt) (dvd_listToSize hprop.index_lt)
  have hhead : sub64 (t.start + sizeOfPoolHead) sizeOfPoolHead = t.start := by
    unfold sizeOfPoolHead
    rw [sub64_eq (by omega) (by omega)]
    omega
  have hrecorded := h.recorded t (by simp)
  simp only [Recorded, hreq] at hrecorded
  obtain ⟨hsignature, htype, hsizeEq, htail⟩ := hrecorded
  unfold freeBlock
  simp only [hhead, hsignature, htype, hsizeEq, htail, hprop.class_eq request hreq,
    lookupPoolHead_of_isSome hval (h.pool t (by simp)), ne_eq, not_true_eq_false, false_and,
    if_false, Nat.not_le_of_lt hclass, false_or, some.injEq, reduceCtorEq,
    foldl_map, giveBack]
  split
  · cases service.free _ _ _ <;> rfl
  · rfl

theorem Invariant.dropGranule
    (h : Invariant p owned s live (gs₁ ++ ⟨type, base, before ++ t :: behind⟩ :: gs₂))
    (hheap : Heap s' (allTiles (gs₁ ++ gs₂)))
    (hpgs : (owned s'.pages).Perm
      ((owned s.pages).erase (base, sizeToPages (p.arch.granularity type))))
    (hhds : heads s' = heads s) (hfree : ∀ u ∈ before ++ behind, u.request = none)
    (hlive : ∀ rest, (liveBlocks [t] ++ rest).Perm live → rest.Perm live') :
    Invariant p owned s' live' (gs₁ ++ gs₂) := by
  refine ⟨hheap, ?_, ?_, ?_, ?_⟩
  · intro g hg
    apply h.ok g
    rcases mem_append.1 hg with hg | hg
    · simp [hg]
    · simp [hg]
  · have howns := h.owns
    rw [map_append, map_cons] at howns
    have herase := (howns.trans perm_middle).erase (base, sizeToPages (p.arch.granularity type))
    rw [Granule.pages, erase_cons_head, ← map_append] at herase
    exact hpgs.trans herase
  · apply hlive
    have hperm := (allTiles_perm gs₁ type base before [t] behind gs₂).filterMap
      fun t => t.request.map fun request => (t.start + sizeOfPoolHead, request)
    have heq : before ++ [t] ++ behind = before ++ t :: behind := by simp
    rw [heq] at hperm
    change (liveBlocks _).Perm (liveBlocks _) at hperm
    rw [liveBlocks_append, liveBlocks_append, liveBlocks_append, liveBlocks_of_free hfree,
      append_nil, ← liveBlocks_append (allTiles gs₁), ← allTiles_append] at hperm
    exact hperm.symm.trans h.uses
  · rw [hhds]
    exact h.valid

theorem freeBlock_invariant {status : EfiStatus}
    (hspec : PageContract service owned) (h : Invariant p owned s live granules)
    (hlive : (buffer, request) ∈ live)
    (hfree : freeBlock service p buffer s = some (status, s')) :
    status = .success ∧ heads s' = heads s ∧
      ∃ t ∈ allTiles granules, t.start + sizeOfPoolHead = buffer ∧ t.request = some request ∧
        (s.headers t.start).type = t.type ∧
        Invariant p owned s' (live.erase (buffer, request)) (freeTile t granules) := by
  obtain ⟨t, ht, hreq, rfl⟩ := mem_liveBlocks (h.uses.mem_iff.2 hlive)
  have htype : (s.headers t.start).type = t.type := by
    have hrecorded := h.heap.recorded t ht
    rw [Recorded, hreq] at hrecorded
    exact hrecorded.2.1
  obtain ⟨gs₁, gtype, base, before, behind, gs₂, rfl⟩ := exists_split_of_mem ht
  have hgranule := h.ok ⟨gtype, base, before ++ t :: behind⟩ (by simp)
  obtain rfl : t.type = gtype := hgranule.types t (by simp)
  have heq : before ++ [t] ++ behind = before ++ t :: behind := by simp
  have hspl := heq ▸ allTiles_perm gs₁ t.type base before [t] behind gs₂
  have hheap := h.heap.perm hspl
  have hprop := hheap.proper t (by simp)
  have hval : t.type.valid = true := by
    apply h.valid
    rw [← isSome_pools_iff]
    exact hheap.pool t (by simp)
  have hclass := hgranule.classes t (by simp)
  have hoth : t ∉ allTiles gs₁ ++ (before ++ behind) ++ allTiles gs₂ := fun hmem =>
    ((pairwise_cons.1 hheap.apart).1 t hmem).start_ne hprop hprop rfl
  rw [freeBlock_eq hheap hreq hval hclass] at hfree
  have hfreed : Heap (giveBack t request s)
      (t.freed :: (allTiles gs₁ ++ (before ++ behind) ++ allTiles gs₂)) := hheap.giveBack hreq
  have hsame : Tiles start last t.start (t.last + 1) [t.freed] :=
    tiles_singleton.2 ⟨rfl, hprop.start_le_last, rfl⟩
  have htile : Tiles start last (base + 0) (base + p.arch.granularity t.type)
      (before ++ [t.freed] ++ behind) := tiles_replace hgranule.tiled hsame
  have hmem : ∀ u ∈ before ++ [t.freed] ++ behind,
      u ∈ t.freed :: (allTiles gs₁ ++ (before ++ behind) ++ allTiles gs₂) := by
    intro u hu
    simp only [mem_append, mem_cons, not_mem_nil, or_false] at hu ⊢
    tauto
  have hrest : ∀ rest, (liveBlocks [t] ++ rest).Perm live →
      rest.Perm (live.erase (t.start + sizeOfPoolHead, request)) := by
    intro rest hperm
    rw [liveBlocks_cons, hreq] at hperm
    exact (cons_perm_iff_perm_erase.1 hperm).2
  have hfuel : p.arch.granularity t.type - 0 < p.arch.granularity t.type + 1 := by omega
  have haln : alignTo t.start (p.arch.granularity t.type) = base :=
    hgranule.alignTo_start (by simp)
  obtain ⟨hall, hvis⟩ := scanGranule_eq htile (fun u hu => hfreed.recorded u (hmem u hu))
    (fun u hu => hfreed.proper u (hmem u hu)) hfuel
  dsimp only at hfree
  rw [haln] at hfree
  split at hfree
  next hscan =>
    rw [hvis hscan] at hfree
    obtain ⟨pages, hpgs, heq'⟩ := map_eq_some_iff.1 hfree
    obtain ⟨⟩ := heq'
    have hfrees := hall.1 hscan
    obtain ⟨hsamePages, hhds⟩ := foldl_removeEntry_frame (s := giveBack t request s) t.type
      ((before ++ [t.freed] ++ behind).map start)
    rw [hsamePages] at hpgs
    refine ⟨rfl, hhds.trans (heads_giveBack t request), t, ht, rfl, hreq, htype, ?_⟩
    rw [freeTile_split h.ok hoth, if_pos hfrees]
    refine h.dropGranule ?_ (hspec.free hpgs) (hhds.trans (heads_giveBack t request)) ?_ hrest
    · apply Heap.setPages
      apply Heap.removeGranule _ _ hfrees
      · apply hfreed.perm
        exact (allTiles_perm gs₁ t.type base before [t.freed] behind gs₂).symm.trans
          (allTiles_middle)
      · intro u hu
        have hmember : u ∈ [t.freed] ∨ u ∈ before ++ t :: behind := by
          simp only [mem_append, mem_cons] at hu ⊢
          tauto
        rcases hmember with hu | hu
        · rw [mem_singleton.1 hu]
          rfl
        · exact hgranule.types u hu
    · intro u hu
      apply hfrees
      simp only [mem_append] at hu ⊢
      tauto
  next hscan =>
    obtain ⟨⟩ := hfree
    refine ⟨rfl, heads_giveBack t request, t, ht, rfl, hreq, htype, ?_⟩
    rw [freeTile_split h.ok hoth, if_neg fun hfrees => hscan (hall.2 hfrees)]
    refine h.replace hfreed hsame ?_ ?_ ?_ (giveBack_pages t request) (heads_giveBack t request)
      hrest
    · intro u hu
      rw [mem_singleton.1 hu]
      rfl
    · intro u hu
      rw [mem_singleton.1 hu]
      exact hclass
    · by_contra hnone
      apply hscan
      rw [hall]
      intro u hu
      by_contra hreq'
      exact hnone ⟨u, hu, hreq'⟩

end MuBasecore.PoolGranules
