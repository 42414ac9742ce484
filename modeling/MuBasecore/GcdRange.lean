import MuBasecore.GcdSpace
import MuBasecore.SegmentList

/-!
What the list operations of the GCD do on a map that tiles its addresses: the
search finds the entries that contain the two ends of a range, and the change of
a range that does not wrap leaves a tiling without mergeable neighbours.
-/

namespace MuBasecore.GcdRange

open Word64 SegmentList GcdMap GcdSpace List Option

variable {endLink lower startLink upper : Nat} {e entry : GcdMapEntry}
  {before behind body es map : List GcdMapEntry} {σ : Type}

/-- The entries of the map cover the addresses below `upper`, in order. -/
abbrev TilesMap (lower upper : Nat) (map : List GcdMapEntry) : Prop :=
  Tiles GcdMapEntry.baseAddress GcdMapEntry.endAddress lower upper map

abbrev SeparatedMap (map : List GcdMapEntry) : Prop :=
  Separated GcdMapEntry.label map

variable {start : Option Nat} {bottomUsed : Bool} {pad : GcdMapEntry} {s : σ}
  {convert : σ → GcdMapEntry → GcdMapEntry} {next : σ → GcdMapEntry → σ}
  {baseAddress lastAddress link : Nat}

theorem searchFrom_cons_eq_some
    (h : searchFrom baseAddress lastAddress link start (e :: es) = some (startLink, endLink)) :
    ((if e.contains baseAddress then some link else start) = some startLink ∧
        link = endLink ∧ e.contains lastAddress = true) ∨
      searchFrom baseAddress lastAddress (link + 1)
        (if e.contains baseAddress then some link else start) es = some (startLink, endLink) := by
  rw [searchFrom] at h
  cases hst : (if e.contains baseAddress then some link else start) with
  | none =>
    rw [hst] at h
    exact .inr h
  | some i =>
    simp only [hst] at h
    split at h
    next hlast =>
      simp only [some.injEq, Prod.mk.injEq] at h ⊢
      exact .inl ⟨h.1, h.2, hlast⟩
    · exact .inr h

theorem searchFrom_spec (hst : ∀ i ∈ start, i < link)
    (h : searchFrom baseAddress lastAddress link start es = some (startLink, endLink)) :
    startLink ≤ endLink ∧ link ≤ endLink ∧
      (∃ z, es[endLink - link]? = some z ∧ z.contains lastAddress = true) ∧
      (start = some startLink ∨
        link ≤ startLink ∧
          ∃ a, es[startLink - link]? = some a ∧ a.contains baseAddress = true) := by
  induction es generalizing link start with
  | nil => simp [searchFrom] at h
  | cons e es ih =>
    have hhere : (if e.contains baseAddress then some link else start) = some startLink →
        startLink ≤ link ∧ (start = some startLink ∨
          startLink = link ∧ e.contains baseAddress = true) := by
      intro heq
      split at heq
      next hbase =>
        have hlink : link = startLink := by simpa using heq
        exact ⟨by omega, .inr ⟨hlink.symm, hbase⟩⟩
      · have := hst startLink heq
        exact ⟨by omega, .inl heq⟩
    have hfst : (start = some startLink ∨ startLink = link ∧ e.contains baseAddress = true) →
        start = some startLink ∨ link ≤ startLink ∧
          ∃ a, (e :: es)[startLink - link]? = some a ∧ a.contains baseAddress = true := by
      rintro (heq | ⟨rfl, hbase⟩)
      · exact .inl heq
      · exact .inr ⟨le_refl _, e, by simp, hbase⟩
    rcases searchFrom_cons_eq_some h with ⟨heq, rfl, hlast⟩ | hrest
    · obtain ⟨hle, hfnd⟩ := hhere heq
      exact ⟨hle, le_refl _, ⟨e, by simp, hlast⟩, hfst hfnd⟩
    · have hbd : ∀ i ∈ (if e.contains baseAddress then some link else start), i < link + 1 := by
        intro i hi
        split at hi
        · have : link = i := by simpa using hi
          omega
        · have := hst i hi
          omega
      obtain ⟨hle, hlink, ⟨z, hz, hzlast⟩, hst'⟩ := ih hbd hrest
      have hend : endLink - link = endLink - (link + 1) + 1 := by omega
      refine ⟨hle, by omega, ⟨z, by simpa [hend] using hz, hzlast⟩, ?_⟩
      rcases hst' with heq | ⟨hge, a, ha, habase⟩
      · exact hfst (hhere heq).2
      · have hsucc : startLink - link = startLink - (link + 1) + 1 := by omega
        exact .inr ⟨by omega, a, by simpa [hsucc] using ha, habase⟩

section

variable {length : Nat}
  (h : coreSearchGcdMapEntry baseAddress length map = some (startLink, endLink))
include h

theorem searchEntry_links :
    startLink ≤ endLink ∧ (∃ a, map[startLink]? = some a ∧ a.contains baseAddress = true) ∧
      (∃ z, map[endLink]? = some z ∧ z.contains (lastByte baseAddress length) = true) := by
  obtain ⟨hle, -, ⟨z, hz, hzlast⟩, hst⟩ := searchFrom_spec (by simp) h
  obtain ⟨-, a, ha, habase⟩ := hst.resolve_left (by simp)
  exact ⟨hle, ⟨a, ha, habase⟩, ⟨z, hz, hzlast⟩⟩

theorem searchEntry_eq_some :
    map = map.take startLink ++ (linkRange map startLink endLink ++ map.drop (endLink + 1)) ∧
      (∃ a ∈ (linkRange map startLink endLink).head?, a.contains baseAddress = true) ∧
      (∃ z ∈ (linkRange map startLink endLink).getLast?,
        z.contains (lastByte baseAddress length) = true) := by
  obtain ⟨hle, ⟨a, ha, habase⟩, ⟨z, hz, hzlast⟩⟩ := searchEntry_links h
  have hlt : endLink < map.length := (List.getElem?_eq_some_iff.1 hz).1
  refine ⟨?_, ⟨a, ?_, habase⟩, ⟨z, ?_, hzlast⟩⟩
  · have hspl : map.take (endLink + 1) = map.take startLink ++ linkRange map startLink endLink := by
      have := take_append_drop startLink (map.take (endLink + 1))
      rwa [take_take, min_eq_left (by omega), eq_comm] at this
    rw [← append_assoc, ← hspl, take_append_drop]
  · rw [linkRange, head?_drop, List.getElem?_take, if_pos (by omega)]
    exact ha
  · rw [linkRange, getLast?_drop, getLast?_take]
    simp only [length_take]
    rw [if_neg (by omega), if_neg (by omega)]
    simp [hz]

end

/-- A relation between maps that goes on through the entries in front of them, and for
which two neighbours with one label are as good as the entry they are merged into. -/
structure Joins (R : List GcdMapEntry → List GcdMapEntry → Prop) : Prop where
  refl : ∀ xs, R xs xs
  trans : ∀ {xs ys zs}, R xs ys → R ys zs → R xs zs
  cons : ∀ {xs ys} e, R xs ys → R (e :: xs) (e :: ys)
  join : ∀ {a b : GcdMapEntry} xs, a.label = b.label →
    R ({ a with endAddress := b.endAddress } :: xs) (a :: b :: xs)

section Joins

variable {R : List GcdMapEntry → List GcdMapEntry → Prop} {xs ys : List GcdMapEntry}
  (hjoins : Joins R)
include hjoins

theorem Joins.append (front : List GcdMapEntry) (h : R xs ys) : R (front ++ xs) (front ++ ys) := by
  induction front with
  | nil => exact h
  | cons e front ih => exact hjoins.cons e ih

theorem Joins.mergeBackward :
    R ((mergeBackward before entry).reverse ++ xs) (before.reverse ++ entry :: xs) := by
  unfold GcdMap.mergeBackward
  split
  · exact hjoins.refl _
  next adjacent rest =>
    split
    next hlabel =>
      have hjoined : { entry with baseAddress := adjacent.baseAddress } =
          { adjacent with endAddress := entry.endAddress } := by
        simp only [GcdMapEntry.label, GcdLabel.mk.injEq] at hlabel
        simp [hlabel]
      rw [hjoined, reverse_cons, reverse_cons, append_assoc, append_assoc]
      exact hjoins.append rest.reverse (hjoins.join xs hlabel.symm)
    · rw [reverse_cons, append_assoc]
      exact hjoins.refl _

theorem Joins.foldl_mergeBackward (before body xs : List GcdMapEntry) :
    R ((body.foldl GcdMap.mergeBackward before).reverse ++ xs)
      (before.reverse ++ (body ++ xs)) := by
  induction body generalizing before with
  | nil => exact hjoins.refl _
  | cons e body ih => exact hjoins.trans (ih _) hjoins.mergeBackward

theorem Joins.cleanup :
    R (coreCleanupGcdMapEntry before body behind) (before.reverse ++ (body ++ behind)) := by
  have hmerged := hjoins.foldl_mergeBackward before body behind
  unfold coreCleanupGcdMapEntry
  split
  next hnil =>
    rw [hnil] at hmerged
    exact hmerged
  next endEntry rest hcons =>
    rw [hcons, reverse_cons, append_assoc] at hmerged
    refine hjoins.trans (hjoins.append rest.reverse ?_) hmerged
    unfold mergeForward
    split
    · exact hjoins.refl _
    next adjacent behind =>
      split
      next hlabel => exact hjoins.join behind hlabel
      · exact hjoins.refl _

end Joins

theorem joins_tiles :
    Joins fun xs ys => ∀ lower upper, TilesMap lower upper ys → TilesMap lower upper xs where
  refl _ _ _ h := h
  trans h h' lower upper htile := h lower upper (h' lower upper htile)
  cons e h lower upper htile := ⟨htile.1, htile.2.1, h _ _ htile.2.2⟩
  join xs _ lower upper htile := by
    obtain ⟨hbase, hle, hadjacent, hadjacentLe, hrest⟩ := htile
    exact ⟨hbase, by simp only; omega, hrest⟩

theorem mergeBackward_separated
    (h : SeparatedMap before) : SeparatedMap (mergeBackward before entry) := by
  unfold mergeBackward
  split
  · exact List.IsChain.singleton entry
  next adjacent rest =>
    split
    next hlab =>
      exact separated_cons_congr hlab.symm h
    next hlab =>
      exact isChain_cons_cons.2 ⟨hlab, h⟩

theorem foldl_mergeBackward_separated
    (h : SeparatedMap before) : SeparatedMap (body.foldl mergeBackward before) := by
  induction body generalizing before with
  | nil => exact h
  | cons e es ih => exact ih (mergeBackward_separated h)

variable {front : List GcdMapEntry}

theorem mergeForward_separated
    (hfr : SeparatedMap (front ++ [entry])) (hbhd : SeparatedMap behind) :
    SeparatedMap (front ++ mergeForward entry behind) := by
  unfold mergeForward
  split
  · exact hfr
  next adjacent rest =>
    split
    next hlab =>
      have hcons : SeparatedMap ({ entry with endAddress := adjacent.endAddress } :: rest) :=
        separated_cons_congr hlab.symm hbhd
      have hconcat : SeparatedMap (front ++ [{ entry with endAddress := adjacent.endAddress }]) :=
        separated_concat_congr (a := entry) rfl hfr
      obtain ⟨hsep, -, hjoin⟩ := separated_append.1 hconcat
      exact separated_append.2 ⟨hsep, hcons, by simpa using hjoin⟩
    next hlab =>
      obtain ⟨hsep, -, hjoin⟩ := separated_append.1 hfr
      exact separated_append.2 ⟨hsep, isChain_cons_cons.2 ⟨hlab, hbhd⟩, by simpa using hjoin⟩

theorem cleanup_separated (hpre : SeparatedMap before.reverse) (hbhd : SeparatedMap behind) :
    SeparatedMap (coreCleanupGcdMapEntry before body behind) := by
  have hmerge : SeparatedMap (body.foldl mergeBackward before) :=
    foldl_mergeBackward_separated (separated_reverse.1 hpre)
  unfold coreCleanupGcdMapEntry
  split
  · exact hbhd
  next endEntry rest hcons =>
    rw [hcons] at hmerge
    apply mergeForward_separated _ hbhd
    simpa using separated_reverse.2 hmerge

section Range

variable {baseAddress length : Nat}

def clipEntry (baseAddress length : Nat) (e : GcdMapEntry) : GcdMapEntry :=
  { e with
    baseAddress := max baseAddress e.baseAddress
    endAddress := min (baseAddress + length - 1) e.endAddress }

def bottomPad (baseAddress : Nat) (e : GcdMapEntry) : Option GcdMapEntry :=
  if e.baseAddress < baseAddress then some { e with endAddress := baseAddress - 1 } else none

def topPad (baseAddress length : Nat) (e : GcdMapEntry) : Option GcdMapEntry :=
  if baseAddress + length - 1 < e.endAddress then
    some { e with baseAddress := baseAddress + length }
  else none

def visitEntries {σ : Type} (next : σ → GcdMapEntry → σ)
    (convert : σ → GcdMapEntry → GcdMapEntry) : σ → List GcdMapEntry → List GcdMapEntry
  | _, [] => []
  | s, e :: es => convert (next s e) e :: visitEntries next convert (next s e) es

theorem insertEntry_eq (hlen : 0 < length)
    (hrng : baseAddress + length ≤ 2 ^ 64) (hend : e.endAddress < 2 ^ 64) :
    coreInsertGcdMapEntry e baseAddress length =
      { bottomEntry := bottomPad baseAddress e
        entry := clipEntry baseAddress length e
        topEntry := topPad baseAddress length e } := by
  have hlast : lastByte baseAddress length = baseAddress + length - 1 :=
    lastByte_eq hlen hrng
  unfold coreInsertGcdMapEntry bottomPad clipEntry topPad
  rw [hlast]
  by_cases hbot : e.baseAddress < baseAddress
  · have hsub : sub64 baseAddress 1 = baseAddress - 1 := sub64_eq (by omega) (by omega)
    simp only [gt_iff_lt, hbot, if_true, hsub, max_eq_left (le_of_lt hbot)]
    split
    · rw [add64_eq (by omega), min_eq_left (by omega)]
    · rw [min_eq_right (by omega)]
  · simp only [gt_iff_lt, hbot, if_false, max_eq_right (not_lt.1 hbot)]
    split
    · rw [add64_eq (by omega), min_eq_left (by omega)]
    · rw [min_eq_right (by omega)]

theorem bottomPad_unused (hused : bottomUsed = true → baseAddress ≤ e.baseAddress) :
    ((bottomPad baseAddress e).isSome && bottomUsed) = false := by
  unfold bottomPad
  cases bottomUsed with
  | false => simp
  | true => simp [not_lt.2 (hused rfl)]

/-- The loop over the entries that a range meets, for a range that does not
wrap: only the first entry has a bottom pad and only the last one a top pad, so
that no pad is asked for twice. -/
theorem convertLoop_eq (hlen : 0 < length)
    (hrng : baseAddress + length ≤ 2 ^ 64) (hup : upper ≤ 2 ^ 64)
    (htile : TilesMap lower upper (e :: es))
    (hmeet : ∀ d ∈ e :: es, baseAddress ≤ d.endAddress ∧ d.baseAddress < baseAddress + length)
    (hused : bottomUsed = true → baseAddress ≤ e.baseAddress) :
    convertLoop next convert baseAddress length s bottomUsed (e :: es) =
      some
        { before := (bottomPad baseAddress e).toList
          body := visitEntries next convert s ((e :: es).map (clipEntry baseAddress length))
          top := (topPad baseAddress length ((e :: es).getLast (by simp))).toList } := by
  induction es generalizing e lower s bottomUsed with
  | nil =>
    have hend : e.endAddress < 2 ^ 64 := by
      have := tiles_mem htile (e := e) (by simp)
      omega
    have hbot := bottomPad_unused hused
    simp [convertLoop, insertEntry_eq hlen hrng hend, hbot, visitEntries]
  | cons d ds ih =>
    have hrest : TilesMap (e.endAddress + 1) upper (d :: ds) := htile.2.2
    have hd : d.baseAddress = e.endAddress + 1 := hrest.1
    have hmeetE := hmeet e (by simp)
    have hmeetD := hmeet d (by simp)
    have hbot := bottomPad_unused hused
    have htop : topPad baseAddress length e = none := by
      unfold topPad
      rw [if_neg (by omega)]
    have hnext : bottomPad baseAddress d = none := by
      unfold bottomPad
      rw [if_neg (by omega)]
    rw [convertLoop, insertEntry_eq hlen hrng (by omega)]
    simp only [hbot, htop, isSome_none, Bool.false_and, Bool.false_eq_true, if_false]
    rw [ih hrest (fun x hx => hmeet x (by simp [hx])) (fun _ => by omega)]
    simp [hnext, visitEntries]

theorem bottomPad_tiles :
    TilesMap e.baseAddress (max baseAddress e.baseAddress) (bottomPad baseAddress e).toList := by
  unfold bottomPad
  split
  · exact tiles_singleton.2 ⟨rfl, by simp only; omega, by simp only; omega⟩
  · simp only [toList_none, Tiles]
    omega

theorem topPad_tiles (hlen : 0 < length) :
    TilesMap (min (baseAddress + length - 1) e.endAddress + 1) (e.endAddress + 1)
      (topPad baseAddress length e).toList := by
  unfold topPad
  split
  · exact tiles_singleton.2 ⟨by simp only; omega, by simp only; omega, rfl⟩
  · simp only [toList_none, Tiles]
    omega

theorem map_clipEntry_tiles (hlen : 0 < length) (htile : TilesMap lower upper (e :: es))
    (hmeet : ∀ d ∈ e :: es, baseAddress ≤ d.endAddress ∧ d.baseAddress < baseAddress + length) :
    TilesMap (max baseAddress e.baseAddress)
      (min (baseAddress + length - 1) ((e :: es).getLast (by simp)).endAddress + 1)
      ((e :: es).map (clipEntry baseAddress length)) := by
  induction es generalizing e lower with
  | nil =>
    have hmeetE := hmeet e (by simp)
    have hle : e.baseAddress ≤ e.endAddress := htile.2.1
    refine tiles_singleton.2 ⟨rfl, ?_, rfl⟩
    simp only [clipEntry]
    omega
  | cons d ds ih =>
    have hmeetE := hmeet e (by simp)
    have hmeetD := hmeet d (by simp)
    have hle : e.baseAddress ≤ e.endAddress := htile.2.1
    have hrest : TilesMap (e.endAddress + 1) upper (d :: ds) := htile.2.2
    have hd : d.baseAddress = e.endAddress + 1 := hrest.1
    have htail := ih hrest (fun x hx => hmeet x (by simp [hx]))
    refine ⟨rfl, ?_, ?_⟩
    · simp only [clipEntry]
      omega
    · have hst : max baseAddress d.baseAddress =
          (clipEntry baseAddress length e).endAddress + 1 := by
        simp only [clipEntry]
        omega
      rw [← hst, getLast_cons (by simp)]
      exact htail

theorem visitEntries_tiles (hbase : ∀ s e, (convert s e).baseAddress = e.baseAddress)
    (hend : ∀ s e, (convert s e).endAddress = e.endAddress) {l : List GcdMapEntry} :
    TilesMap lower upper (visitEntries next convert s l) ↔ TilesMap lower upper l := by
  induction l generalizing s lower with
  | nil => rfl
  | cons e es ih => simp only [visitEntries, Tiles, hbase, hend, ih]

theorem bottomPad_label (h : bottomPad baseAddress e = some pad) : pad.label = e.label := by
  unfold bottomPad at h
  split at h
  · rw [← some.inj h]
    rfl
  · simp at h

theorem topPad_label (h : topPad baseAddress length e = some pad) : pad.label = e.label := by
  unfold topPad at h
  split at h
  · rw [← some.inj h]
    rfl
  · simp at h

theorem separated_concat_bottomPad (h : SeparatedMap (front ++ [e])) :
    SeparatedMap (front ++ (bottomPad baseAddress e).toList) := by
  cases hpad : bottomPad baseAddress e with
  | none =>
    rw [toList_none, append_nil]
    exact (separated_append.1 h).1
  | some pad => exact separated_concat_congr (bottomPad_label hpad).symm h

theorem separated_topPad_append {back : List GcdMapEntry} (h : SeparatedMap (e :: back)) :
    SeparatedMap ((topPad baseAddress length e).toList ++ back) := by
  cases hpad : topPad baseAddress length e with
  | none => exact List.IsChain.tail h
  | some pad => exact separated_cons_congr (topPad_label hpad).symm h

/-- The entries of a tiled map that a range meets, `e :: es`, with the entries in
front of them and those behind them. -/
structure FoundRange (baseAddress length lower upper : Nat) (front : List GcdMapEntry)
    (e : GcdMapEntry) (es back : List GcdMapEntry) : Prop where
  front_tiles : TilesMap lower e.baseAddress front
  tiles : TilesMap e.baseAddress (((e :: es).getLast (by simp)).endAddress + 1) (e :: es)
  back_tiles : TilesMap (((e :: es).getLast (by simp)).endAddress + 1) upper back
  base_mem : e.baseAddress ≤ baseAddress ∧ baseAddress ≤ e.endAddress
  last_mem : ((e :: es).getLast (by simp)).baseAddress ≤ baseAddress + length - 1 ∧
    baseAddress + length - 1 ≤ ((e :: es).getLast (by simp)).endAddress

theorem foundRange_of_search (hlen : 0 < length) (hrng : baseAddress + length ≤ 2 ^ 64)
    (htile : TilesMap lower upper map)
    (hfind : coreSearchGcdMapEntry baseAddress length map = some (startLink, endLink)) :
    ∃ e es, linkRange map startLink endLink = e :: es ∧
      map = map.take startLink ++ (e :: es ++ map.drop (endLink + 1)) ∧
      FoundRange baseAddress length lower upper (map.take startLink) e es
        (map.drop (endLink + 1)) := by
  obtain ⟨hspl, ⟨a, ha, habase⟩, ⟨z, hz, hzlast⟩⟩ := searchEntry_eq_some hfind
  rw [lastByte_eq hlen hrng, GcdMapEntry.contains_iff] at hzlast
  rw [GcdMapEntry.contains_iff] at habase
  cases hlink : linkRange map startLink endLink with
  | nil => simp [hlink] at ha
  | cons e es =>
    rw [hlink] at hspl ha hz
    obtain rfl : e = a := by simpa using ha
    obtain rfl : (e :: es).getLast (by simp) = z := by
      simpa [getLast?_eq_some_getLast] using hz
    refine ⟨e, es, rfl, hspl, ?_⟩
    rw [hspl] at htile
    obtain ⟨start, hfr, hmid⟩ := tiles_append.1 htile
    obtain ⟨stop, hlnk, hback⟩ := tiles_append.1 hmid
    obtain rfl : e.baseAddress = start := hlnk.1
    obtain rfl : ((e :: es).getLast (by simp)).endAddress + 1 = stop := tiles_getLast hlnk
    exact ⟨hfr, hlnk, hback, habase, hzlast⟩

section Found

variable {front back : List GcdMapEntry}
  (hfnd : FoundRange baseAddress length lower upper front e es back)

include hfnd

theorem FoundRange.meets (hlen : 0 < length) :
    ∀ d ∈ e :: es, baseAddress ≤ d.endAddress ∧ d.baseAddress < baseAddress + length := by
  intro d hd
  have := tiles_extremes hfnd.tiles hd
  have := hfnd.base_mem
  have := hfnd.last_mem
  omega

theorem FoundRange.convertLoop_eq (next : σ → GcdMapEntry → σ)
    (convert : σ → GcdMapEntry → GcdMapEntry) (s : σ) (hlen : 0 < length)
    (hrng : baseAddress + length ≤ 2 ^ 64) (hup : upper ≤ 2 ^ 64) :
    convertLoop next convert baseAddress length s false (e :: es) =
      some
        { before := (bottomPad baseAddress e).toList
          body := visitEntries next convert s ((e :: es).map (clipEntry baseAddress length))
          top := (topPad baseAddress length ((e :: es).getLast (by simp))).toList } :=
  GcdRange.convertLoop_eq hlen hrng (le_trans (tiles_le hfnd.back_tiles) hup)
    hfnd.tiles (hfnd.meets hlen) (by simp)

theorem FoundRange.padded_tiles (next : σ → GcdMapEntry → σ) (s : σ)
    (hbase : ∀ s e, (convert s e).baseAddress = e.baseAddress)
    (hend : ∀ s e, (convert s e).endAddress = e.endAddress) (hlen : 0 < length) :
    TilesMap lower upper ((front ++ (bottomPad baseAddress e).toList) ++
      (visitEntries next convert s ((e :: es).map (clipEntry baseAddress length)) ++
        ((topPad baseAddress length ((e :: es).getLast (by simp))).toList ++ back))) := by
  rw [append_assoc]
  refine tiles_append.2 ⟨_, hfnd.front_tiles, ?_⟩
  refine tiles_append.2 ⟨max baseAddress e.baseAddress, bottomPad_tiles, ?_⟩
  refine tiles_append.2 ⟨_, (visitEntries_tiles hbase hend).2
    (map_clipEntry_tiles hlen hfnd.tiles (hfnd.meets hlen)), ?_⟩
  exact tiles_append.2 ⟨_, topPad_tiles hlen, hfnd.back_tiles⟩

end Found

theorem convertRange_partition (hbase : ∀ s e, (convert s e).baseAddress = e.baseAddress)
    (hend : ∀ s e, (convert s e).endAddress = e.endAddress)
    (hlen : 0 < length) (hrng : baseAddress + length ≤ 2 ^ 64)
    (hup : upper ≤ 2 ^ 64) (htile : TilesMap lower upper map)
    (hsep : SeparatedMap map)
    (hfind : coreSearchGcdMapEntry baseAddress length map = some (startLink, endLink)) :
    ∃ map', convertRange next convert baseAddress length s map startLink endLink =
        some map' ∧ TilesMap lower upper map' ∧ SeparatedMap map' := by
  obtain ⟨e, es, hlink, hspl, hfnd⟩ := foundRange_of_search hlen hrng htile hfind
  unfold convertRange
  generalize map.take startLink = front at *
  generalize map.drop (endLink + 1) = back at *
  subst hspl
  rw [hlink, hfnd.convertLoop_eq next convert s hlen hrng hup]
  refine ⟨_, rfl, joins_tiles.cleanup _ _ ?_, cleanup_separated ?_ ?_⟩
  · rw [reverse_reverse]
    exact hfnd.padded_tiles next s hbase hend hlen
  · rw [reverse_reverse]
    apply separated_concat_bottomPad
    have hprefix : SeparatedMap ((front ++ [e]) ++ (es ++ back)) := by
      simpa using hsep
    exact (separated_append.1 hprefix).1
  · apply separated_topPad_append
    have hlast : (e :: es).dropLast ++ [(e :: es).getLast (by simp)] = e :: es :=
      dropLast_append_getLast (by simp)
    rw [← hlast] at hsep
    have hsuffix : SeparatedMap ((front ++ (e :: es).dropLast) ++
        ((e :: es).getLast (by simp) :: back)) := by
      simpa using hsep
    exact (separated_append.1 hsuffix).2.1

end Range

end MuBasecore.GcdRange
