import MuBasecore.PageGrants
import MuBasecore.PoolServices

/-!
The blocks that the pool allocator hands out: which of the lists or page
allocations a block comes from, and for which requests it is large enough.
-/

namespace MuBasecore.PoolBlocks

open EfiTypes Word64 SegmentSet MemoryTypes MemoryMap PageServices PoolServices MemoryMapLayout
  Option Nat Prod
open MemoryMapRuns PageAllocation PageGrants List

theorem poolIndex_le (size : Nat) : getPoolIndexFromSize size ≤ 12 :=
  findIdx_le_length

variable {size : Nat}

theorem le_listToSize (h : getPoolIndexFromSize size < 12) :
    size ≤ listToSize (getPoolIndexFromSize size) := by
  have hlt : poolSizeTable.findIdx (fun entry => decide (entry ≥ size)) < poolSizeTable.length := h
  have hent := findIdx_getElem (w := hlt)
  unfold listToSize getPoolIndexFromSize
  rw [getD_eq_getElem _ _ hlt]
  simpa using hent

theorem listToSize_lt {index : Nat} (h : index < getPoolIndexFromSize size) :
    listToSize index < size := by
  have hle := poolIndex_le size
  have hlt : index < poolSizeTable.length := lt_of_lt_of_le h hle
  have hent := not_of_lt_findIdx h
  unfold listToSize
  rw [getD_eq_getElem _ _ hlt]
  simpa using hent

theorem listToSize_le {i j : Nat} (hij : i ≤ j) (hj : j < 12) : listToSize i ≤ listToSize j := by
  have htab : ∀ j < 12, ∀ i < 12, i ≤ j → listToSize i ≤ listToSize j := by decide
  exact htab j hj i (lt_of_le_of_lt hij hj) hij

def blockLength (granularity size : Nat) : Nat :=
  if getPoolIndexFromSize size ≥ getPoolIndexFromSize granularity then
    poolPages granularity size * efiPageSize
  else listToSize (getPoolIndexFromSize size)

/-- The size does not wrap when the overhead and a granule are added. -/
def Fits (granularity size : Nat) : Prop :=
  (size + 7) / 8 * 8 + poolOverhead + granularity ≤ 2 ^ 64

theorem blockSize_eq (h : size ≤ maxPoolSize) :
    blockSize size = if (size + 7) / 8 * 8 + poolOverhead < 2 ^ 64 then
      (size + 7) / 8 * 8 + poolOverhead else 0 := by
  unfold blockSize alignVariable add64 sub64 maxPoolSize poolOverhead sizeOfPoolHead
    sizeOfPoolTail at *
  split <;> omega

variable {granularity : Nat}

variable {σ : Type}

section Frames

variable (type : EfiMemoryType) (index address head size : Nat) (s : PoolState σ)

@[simp] theorem removeFirst_pages : (removeFirst type index s).pages = s.pages :=
  rfl

@[simp] theorem fillBlock_pages : (fillBlock type head size s).pages = s.pages :=
  rfl

@[simp] theorem carve_pages (newPage offset limit : Nat) :
    (carve type newPage offset limit index s).pages = s.pages := by
  unfold carve
  induction carveBlocks limit index offset generalizing s with
  | nil => rfl
  | cons block blocks ih => exact ih (insertFree type block.1 (newPage + block.2) s)

theorem carve_self (newPage offset : Nat) : carve type newPage offset offset index s = s := by
  cases index <;> simp [carve, carveBlocks]

end Frames

def freeBlocks {σ : Type} (s : PoolState σ) (type : EfiMemoryType) (index : Nat) : List Nat :=
  match s.pools type with
  | none => []
  | some pool => pool.freeList index

variable {type : EfiMemoryType}

section Cases

variable {service : PageService σ} {granularity size head : Nat} {s s' : PoolState σ}

theorem firstFree_eq_some {pool : Pool} {indices : List Nat} {index : Nat}
    (h : firstFree pool indices = some (index, head)) :
    index ∈ indices ∧ (pool.freeList index).head? = some head := by
  induction indices with
  | nil => simp [firstFree] at h
  | cons i is ih =>
    rw [firstFree] at h
    split at h
    · obtain ⟨hmem, hhead⟩ := ih h
      exact ⟨mem_cons_of_mem i hmem, hhead⟩
    next first rest hlist =>
      obtain ⟨⟩ := h
      exact ⟨mem_cons_self, by rw [hlist, head?_cons]⟩

theorem firstFree_eq_none {pool : Pool} {indices : List Nat} (h : firstFree pool indices = none) :
    ∀ index ∈ indices, pool.freeList index = [] := by
  induction indices with
  | nil => simp
  | cons i is ih =>
    rw [firstFree] at h
    split at h
    next hlist => exact forall_mem_cons.2 ⟨hlist, ih h⟩
    · simp at h

/-- What an allocation comes to: there is no block, or the block has pages of its
own, or it is cut off a free block that is at least as large or off a new granule. -/
inductive Outcome (service : PageService σ) (granularity : Nat) (type : EfiMemoryType)
    (size : Nat) (s : PoolState σ) : Nat → PoolState σ → Prop
  | noPool (hpool : s.pools type = none) : Outcome service granularity type size s 0 s
  | noPages {count : Nat} {pages : σ}
      (halloc : service.allocate type count granularity s.pages = some (0, pages)) :
      Outcome service granularity type size s 0 { s with pages := pages }
  | pages {head : Nat} {pages : σ} (hne : head ≠ 0)
      (hidx : getPoolIndexFromSize granularity ≤ getPoolIndexFromSize size)
      (halloc : service.allocate type (poolPages granularity size) granularity s.pages =
        some (head, pages)) :
      Outcome service granularity type size s head
        (fillBlock type head size { s with pages := pages })
  | list {pool : Pool} {index head : Nat} (hpool : s.pools type = some pool)
      (hle : getPoolIndexFromSize size ≤ index) (hlt : index < getPoolIndexFromSize granularity)
      (hhead : (pool.freeList index).head? = some head) :
      Outcome service granularity type size s head
        (fillBlock type head size
          (carve type head (listToSize (getPoolIndexFromSize size)) (listToSize index) index
            (removeFirst type index s)))
  | granule {head : Nat} {pages : σ} (hpool : (s.pools type).isSome) (hne : head ≠ 0)
      (hlt : getPoolIndexFromSize size < getPoolIndexFromSize granularity)
      (hempty : ∀ index, getPoolIndexFromSize size ≤ index →
        index < getPoolIndexFromSize granularity → freeBlocks s type index = [])
      (halloc : service.allocate type (sizeToPages granularity) granularity s.pages =
        some (head, pages)) :
      Outcome service granularity type size s head
        (fillBlock type head size
          (carve type head (listToSize (getPoolIndexFromSize size)) granularity
            (getPoolIndexFromSize granularity) { s with pages := pages }))

theorem allocate_outcome (h : allocateBlock service granularity type size s = some (head, s')) :
    Outcome service granularity type size s head s' := by
  unfold allocateBlock at h
  split at h
  next hpool =>
    obtain ⟨⟩ := h
    exact Outcome.noPool hpool
  rename_i pool hpool
  dsimp only at h
  split at h
  next hidx =>
    split at h
    · simp at h
    rename_i head₁ pages halloc
    split at h <;> simp only [some.injEq, mk.injEq] at h <;> obtain ⟨rfl, rfl⟩ := h
    next hzero =>
      exact Outcome.noPages (hzero ▸ halloc)
    next hne =>
      exact Outcome.pages hne hidx halloc
  rename_i hidx
  have hidx := Nat.lt_of_not_le hidx
  split at h
  next head₁ rest hlist =>
    simp only [some.injEq, mk.injEq] at h
    obtain ⟨rfl, rfl⟩ := h
    rw [← carve_self type (getPoolIndexFromSize size) (removeFirst type _ s) head₁
      (listToSize (getPoolIndexFromSize size))]
    exact Outcome.list hpool (le_refl _) hidx (by rw [hlist, head?_cons])
  rename_i hlist
  split at h
  next larger head₁ hfst =>
    obtain ⟨⟩ := h
    obtain ⟨hmem, hhead⟩ := firstFree_eq_some hfst
    rw [mem_range'_1] at hmem
    exact Outcome.list hpool (by omega) (by omega) hhead
  rename_i hnone
  have hempty : ∀ index, getPoolIndexFromSize size ≤ index →
      index < getPoolIndexFromSize granularity → freeBlocks s type index = [] := by
    intro index hle hlt
    simp only [freeBlocks, hpool]
    rcases Nat.eq_or_lt_of_le hle with rfl | hgt
    · exact hlist
    · exact firstFree_eq_none hnone index (mem_range'_1.2 (by omega))
  split at h
  · simp at h
  rename_i head₁ pages halloc
  split at h <;> simp only [some.injEq, mk.injEq] at h <;> obtain ⟨rfl, rfl⟩ := h
  next hzero =>
    exact Outcome.noPages (hzero ▸ halloc)
  next hne =>
    exact Outcome.granule (by rw [hpool]; rfl) hne hidx hempty halloc

theorem Outcome.pages_cases (h : Outcome service granularity type size s head s') :
    s'.pages = s.pages ∨
      ∃ count head, service.allocate type count granularity s.pages = some (head, s'.pages) := by
  cases h with
  | noPool => exact .inl rfl
  | noPages halloc => exact .inr ⟨_, _, halloc⟩
  | pages hne hidx halloc => exact .inr ⟨_, _, halloc⟩
  | list hpool hle hlt hhead => exact .inl (by simp)
  | granule hpool hne hlt hempty halloc =>
    refine .inr ⟨sizeToPages granularity, head, ?_⟩
    rw [fillBlock_pages, carve_pages]
    exact halloc

end Cases

variable {p : Platform} {size head buffer : Nat} {s s₁ s' : PoolState MemoryState}

theorem Outcome.keeps (htype : type ≠ .conventionalMemory)
    (hsnd : Sound p s.pages) (h : Outcome (corePageService p) granularity type size s head s') :
    Sound p s'.pages ∧ Keeps p Allocated s.pages s'.pages := by
  rcases h.pages_cases with hsame | ⟨count, start, halloc⟩
  · rw [hsame]
    exact ⟨hsnd, Keeps.refl p Allocated s.pages⟩
  · exact poolPages_keeps (outerLevel_keeps p) (spares_allocated htype) (fun _ hk => hk) hsnd halloc

theorem sizeToPages_mul (h : granularity = 0x1000 ∨ granularity = 0x10000) :
    sizeToPages granularity * efiPageSize = granularity := by
  rcases h with rfl | rfl <;> rfl

section Served

variable (hsnd : Sound p s.pages) (htype : type ≠ .conventionalMemory)
  (hsize : size ≤ maxPoolSize) (hbuf : buffer ≠ 0)
  (h : coreAllocatePoolI (corePageService p) p type size s = some (buffer, s'))
  (hfits : Fits (p.arch.granularity type) size)

include hsnd htype hsize hbuf h hfits

end Served

def emptyPools (pages : MemoryState) : PoolState MemoryState :=
  initialPools (fun _ => { signature := none, index := 0, type := .reservedMemoryType, size := 0 })
    (fun _ => none) pages

end MuBasecore.PoolBlocks
