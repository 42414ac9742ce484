import MuBasecore.GcdCapabilities

/-!
A GCD map read address by address. Padding and merging keep the label of every
address, so a call changes only the addresses of its range. What it does there
depends, for a change of attributes, on the entries visited before.
-/

namespace MuBasecore.GcdLabels

open EfiTypes SegmentList GcdMap GcdSpace GcdRange GcdPartition GcdCapabilities List

variable {baseAddress endLink length lower startLink upper : Nat} {entry : GcdMapEntry}
  {before behind body map map' xs ys : List GcdMapEntry} {σ : Type}

def labels (map : List GcdMapEntry) : List GcdLabel :=
  map.flatMap fun e => List.replicate (e.endAddress + 1 - e.baseAddress) e.label

theorem labels_append : labels (xs ++ ys) = labels xs ++ labels ys :=
  flatMap_append

theorem labels_cons : labels (entry :: xs) =
    replicate (entry.endAddress + 1 - entry.baseAddress) entry.label ++ labels xs :=
  flatMap_cons

theorem labels_length (h : TilesMap lower upper map) : (labels map).length = upper - lower := by
  induction map generalizing lower with
  | nil =>
    have : lower = upper := h
    simp [labels, this]
  | cons e es ih =>
    obtain ⟨hbase, hle, hrest⟩ := h
    have := tiles_le hrest
    rw [labels_cons, length_append, length_replicate, ih hrest]
    omega

theorem labels_getElem? {e : GcdMapEntry} {a : Nat} (htile : TilesMap lower upper map)
    (he : e ∈ map) (hcont : e.contains a = true) :
    (labels map)[a - lower]? = some e.label := by
  induction map generalizing lower with
  | nil => simp at he
  | cons d ds ih =>
    obtain ⟨rfl, hle, hrest⟩ := htile
    rw [GcdMapEntry.contains_iff] at hcont
    rw [labels_cons]
    rcases mem_cons.1 he with rfl | he
    · rw [List.getElem?_append_left (by simp; omega), List.getElem?_replicate, if_pos (by omega)]
    · have hmem := tiles_mem hrest he
      rw [List.getElem?_append_right (by simp; omega), length_replicate, ← ih hrest he]
      congr 1
      omega

theorem labels_eq_replicate {label : GcdLabel} (htile : TilesMap lower upper map)
    (hlab : ∀ e ∈ map, e.label = label) :
    labels map = replicate (upper - lower) label := by
  rw [← labels_length htile]
  apply eq_replicate_length.2
  intro l hl
  obtain ⟨e, he, hmem⟩ := mem_flatMap.1 hl
  rw [(mem_replicate.1 hmem).2, hlab e he]

theorem labels_congr (label : GcdLabel) (hxs : TilesMap lower upper xs)
    (hys : TilesMap lower upper ys) (hxlabel : ∀ e ∈ xs, e.label = label)
    (hylabel : ∀ e ∈ ys, e.label = label) : labels xs = labels ys := by
  rw [labels_eq_replicate hxs hxlabel, labels_eq_replicate hys hylabel]

theorem joins_labels : Joins fun xs ys => ∀ lower upper, TilesMap lower upper ys →
    TilesMap lower upper xs ∧ labels xs = labels ys where
  refl _ _ _ h := ⟨h, rfl⟩
  trans h h' lower upper htile := by
    obtain ⟨hmiddle, heq⟩ := h' lower upper htile
    exact ⟨(h lower upper hmiddle).1, (h lower upper hmiddle).2.trans heq⟩
  cons e h lower upper htile := by
    obtain ⟨hrest, heq⟩ := h _ _ htile.2.2
    exact ⟨⟨htile.1, htile.2.1, hrest⟩, by rw [labels_cons, labels_cons, heq]⟩
  join {a b} xs hlabel lower upper htile := by
    have hjoined := joins_tiles.join xs hlabel lower upper htile
    obtain ⟨-, hle, hnext, hent, -⟩ := htile
    refine ⟨hjoined, ?_⟩
    have htwo : TilesMap a.baseAddress (b.endAddress + 1) [a, b] := ⟨rfl, hle, hnext, hent, rfl⟩
    have hlabels : labels [{ a with endAddress := b.endAddress }] = labels [a, b] :=
      labels_congr b.label (tiles_singleton.2 ⟨rfl, by simp only; omega, rfl⟩) htwo
        (forall_mem_singleton.2 hlabel) (by simp [hlabel])
    rw [← singleton_append, labels_append, hlabels, ← labels_append]
    rfl

variable {α : Type} {g : α → α}

section Range

variable {e : GcdMapEntry} {es front back : List GcdMapEntry}

theorem padded_labels (hlen : 0 < length) (htile : TilesMap lower upper (e :: es))
    (hmeet : ∀ d ∈ e :: es, baseAddress ≤ d.endAddress ∧ d.baseAddress < baseAddress + length) :
    labels ((bottomPad baseAddress e).toList ++
        ((e :: es).map (clipEntry baseAddress length) ++
          (topPad baseAddress length ((e :: es).getLast (by simp))).toList)) =
      labels (e :: es) := by
  induction es generalizing e lower with
  | nil =>
    have hclip := map_clipEntry_tiles hlen htile hmeet
    have hpadded : TilesMap e.baseAddress (e.endAddress + 1)
        ((bottomPad baseAddress e).toList ++ ([clipEntry baseAddress length e] ++
          (topPad baseAddress length e).toList)) :=
      tiles_append.2 ⟨_, bottomPad_tiles, tiles_append.2 ⟨_, hclip, topPad_tiles hlen⟩⟩
    refine labels_congr e.label hpadded ⟨rfl, htile.2.1, rfl⟩ ?_ (by simp)
    simp only [map_singleton, forall_mem_append, Option.mem_toList,
      forall_mem_singleton]
    exact ⟨fun _ => bottomPad_label, rfl, fun _ => topPad_label⟩
  | cons d ds ih =>
    have hrest : TilesMap (e.endAddress + 1) upper (d :: ds) := htile.2.2
    have hnext : d.baseAddress = e.endAddress + 1 := hrest.1
    have hle : e.baseAddress ≤ e.endAddress := htile.2.1
    have hmeetE := hmeet e (by simp)
    have hmeetD := hmeet d (by simp)
    have hpad : bottomPad baseAddress d = none := if_neg (by omega)
    have htail := ih hrest fun x hx => hmeet x (by simp [hx])
    rw [hpad, Option.toList_none, nil_append] at htail
    have hclip : TilesMap (max baseAddress e.baseAddress) (e.endAddress + 1)
        [clipEntry baseAddress length e] := by
      refine tiles_singleton.2 ⟨rfl, ?_, ?_⟩ <;> simp only [clipEntry] <;> omega
    have hhead : labels ((bottomPad baseAddress e).toList ++ [clipEntry baseAddress length e]) =
        labels [e] := by
      refine labels_congr e.label (tiles_append.2 ⟨_, bottomPad_tiles, hclip⟩)
        ⟨rfl, hle, rfl⟩ ?_ (by simp)
      simp only [forall_mem_append, Option.mem_toList, forall_mem_singleton]
      exact ⟨fun _ => bottomPad_label, rfl⟩
    rw [map_cons, cons_append, append_cons, labels_append, hhead,
      getLast_cons (by simp), htail, ← labels_append, singleton_append]

theorem mapIdx_eq_map {l : List α} {f : Nat → α → α}
    (h : ∀ i < l.length, ∀ x, f i x = g x) : l.mapIdx f = l.map g := by
  apply ext_getElem (by simp)
  intro i hi _
  rw [length_mapIdx] at hi
  rw [getElem_mapIdx, getElem_map, h i hi]

theorem mapIdx_middle {front middle back : List α} {start stop : Nat}
    (hst : front.length = start) (hstop : start + middle.length = stop) :
    (front ++ (middle ++ back)).mapIdx (fun i x => if start ≤ i ∧ i < stop then g x else x) =
      front ++ (middle.map g ++ back) := by
  rw [mapIdx_append, mapIdx_append]
  have hfr := mapIdx_eq_map (l := front) (g := id)
    (f := fun i x => if start ≤ i ∧ i < stop then g x else x)
    fun i hi x => if_neg (by omega)
  have hmid := mapIdx_eq_map (l := middle) (g := g)
    (f := fun i x => if start ≤ i + front.length ∧ i + front.length < stop then g x else x)
    fun i hi x => if_pos (by omega)
  have hback := mapIdx_eq_map (l := back) (g := id)
    (f := fun i x => if start ≤ i + middle.length + front.length ∧
      i + middle.length + front.length < stop then g x else x)
    fun i hi x => if_neg (by omega)
  rw [hfr, hmid, hback, map_id, map_id]

theorem convertRange_labels_iff {next : σ → GcdMapEntry → σ}
    {convert : σ → GcdMapEntry → GcdMapEntry} {s : σ} {f : GcdMapEntry → GcdMapEntry}
    {onLabel : GcdLabel → GcdLabel}
    (hbase : ∀ s e, (convert s e).baseAddress = e.baseAddress)
    (hend : ∀ s e, (convert s e).endAddress = e.endAddress)
    (hfbase : ∀ e, (f e).baseAddress = e.baseAddress)
    (hfend : ∀ e, (f e).endAddress = e.endAddress)
    (hflabel : ∀ e, (f e).label = onLabel e.label)
    (hlen : 0 < length) (hrng : baseAddress + length ≤ 2 ^ 64) (hup : upper ≤ 2 ^ 64)
    (htile : TilesMap 0 upper map)
    (hfind : coreSearchGcdMapEntry baseAddress length map = some (startLink, endLink))
    (hconv : convertRange next convert baseAddress length s map startLink endLink = some map') :
    labels map' = (labels map).mapIdx (fun address label =>
        if baseAddress ≤ address ∧ address < baseAddress + length then onLabel label
        else label) ↔
      labels (visitEntries next convert s
          ((linkRange map startLink endLink).map (clipEntry baseAddress length))) =
        labels (((linkRange map startLink endLink).map (clipEntry baseAddress length)).map f) := by
  obtain ⟨e, es, hlink, hspl, hfnd⟩ := foundRange_of_search hlen hrng htile hfind
  have hbaseMem := hfnd.base_mem
  have hlastMem := hfnd.last_mem
  unfold convertRange at hconv
  rw [hlink, hfnd.convertLoop_eq next convert s hlen hrng hup] at hconv
  obtain ⟨⟩ := hconv
  have hpadded := hfnd.padded_tiles next s hbase hend hlen
  have hclipped := map_clipEntry_tiles hlen hfnd.tiles (hfnd.meets hlen)
  have hfr : TilesMap 0 (max baseAddress e.baseAddress)
      (map.take startLink ++ (bottomPad baseAddress e).toList) :=
    tiles_append.2 ⟨_, hfnd.front_tiles, bottomPad_tiles⟩
  have hst := labels_length hfr
  have hstop := labels_length hclipped
  have hmap : labels map = labels (map.take startLink ++ (bottomPad baseAddress e).toList) ++
      (labels ((e :: es).map (clipEntry baseAddress length)) ++
        labels ((topPad baseAddress length ((e :: es).getLast (by simp))).toList ++
          map.drop (endLink + 1))) := by
    conv_lhs => rw [hspl]
    simp only [labels_append, ← padded_labels hlen hfnd.tiles (hfnd.meets hlen), append_assoc]
  have hmapped : (labels ((e :: es).map (clipEntry baseAddress length))).map onLabel =
      labels (((e :: es).map (clipEntry baseAddress length)).map f) := by
    simp only [labels, map_flatMap, flatMap_map, map_replicate, hfbase, hfend,
      hflabel]
  rw [hmap, mapIdx_middle (by omega) (by omega), hmapped, hlink]
  simp only
  generalize map.take startLink ++ (bottomPad baseAddress e).toList = front at *
  rw [← front.reverse_reverse] at hpadded
  rw [(joins_labels.cleanup _ _ hpadded).2, reverse_reverse, labels_append, labels_append,
    append_cancel_left_eq, append_cancel_right_eq]

end Range

theorem labels_cons_inj {x y : GcdMapEntry} (hle : x.baseAddress ≤ x.endAddress)
    (hbase : y.baseAddress = x.baseAddress) (hend : y.endAddress = x.endAddress) :
    labels (x :: xs) = labels (y :: ys) ↔ x.label = y.label ∧ labels xs = labels ys := by
  rw [labels_cons, labels_cons, hbase, hend]
  constructor
  · intro h
    obtain ⟨hlab, hlabels⟩ := append_inj h (by simp)
    exact ⟨(replicate_inj.1 hlab).2.resolve_left (by omega), hlabels⟩
  · rintro ⟨hlab, hlabels⟩
    rw [hlab, hlabels]

variable {r : ConvertRequest} {attributes seen : AttributeMask} {es : List GcdMapEntry}

theorem or_eq_or_iff {a b c : AttributeMask} (h : MaskSubset b a) :
    a ||| c = b ||| c ↔ MaskSubset a (b ||| c) := by
  rw [maskSubset_iff] at h ⊢
  constructor
  · intro heq i _ ha
    rw [← heq, BitVec.getLsbD_or, ha, Bool.true_or]
  · intro hsub
    apply BitVec.eq_of_getLsbD_eq
    intro i hi
    have hsub := hsub i hi
    have hb := h i hi
    rw [Bool.eq_iff_iff]
    simp only [BitVec.getLsbD_or, Bool.or_eq_true] at hsub ⊢
    tauto

theorem maskSubset_or_left {a b : AttributeMask} : MaskSubset a (a ||| b) :=
  maskSubset_iff.2 fun i _ ha => by rw [BitVec.getLsbD_or, ha, Bool.true_or]

theorem convertEntry_setAttributes (hop : r.operation = .setAttributesMemory)
    (e : GcdMapEntry) : convertEntry r attributes e = { e with attributes := attributes } := by
  rw [convertEntry, hop]

/-- The loop gives every entry the attributes of the request and those that the
entry itself keeps exactly when nothing seen earlier goes beyond them. -/
theorem visitEntries_labels_iff (hop : r.operation = .setAttributesMemory)
    (hcpu : r.cpuArchAttributes = 0) (hne : seen ≠ 0)
    (hcollected : MaskSubset attributes seen) (htile : TilesMap lower upper es) :
    labels (visitEntries (nextAttributes r) (convertEntry r) seen es) =
        labels (es.map fun e => { e with attributes := attributes ||| keptAttributes e }) ↔
      (∀ b ∈ es, MaskSubset seen (attributes ||| keptAttributes b)) ∧
        es.Pairwise fun a b => MaskSubset (keptAttributes a) (attributes ||| keptAttributes b) := by
  induction es generalizing seen lower with
  | nil => simp [visitEntries]
  | cons e es ih =>
    have hnext : MaskSubset attributes (seen ||| keptAttributes e) := by
      rw [maskSubset_iff] at hcollected ⊢
      intro i hi ha
      rw [BitVec.getLsbD_or, hcollected i hi ha, Bool.true_or]
    obtain ⟨-, hle, hrest⟩ := htile
    rw [visitEntries, nextAttributes_eq_or hop hcpu hne,
      convertEntry_setAttributes hop, map_cons]
    refine (labels_cons_inj (by exact hle) (by rfl) (by rfl)).trans ?_
    rw [ih (or_ne_zero hne) hnext hrest, pairwise_cons, forall_mem_cons,
      ← or_eq_or_iff hcollected]
    simp only [GcdMapEntry.label, GcdLabel.mk.injEq, true_and, and_true, maskSubset_or_iff,
      forall_and]
    tauto

def ownAttributes (r : ConvertRequest) (attributes : AttributeMask) : AttributeMask :=
  if r.cpuArchAttributes ≠ 0 ∨ r.attributes = 0 then r.attributes
  else r.attributes ||| (attributes &&& (efiCacheAttributeMask ||| efiMemoryAccessMask))

/-- Each address of the range gets what the request makes of its own attributes. -/
def UpdatesOwn (r : ConvertRequest) (g g' : Gcd) : Prop :=
  g'.ioSpaceMap = g.ioSpaceMap ∧
    labels g'.memorySpaceMap = (labels g.memorySpaceMap).mapIdx fun address label =>
      if r.baseAddress ≤ address ∧ address < r.baseAddress + r.length then
        { label with attributes := ownAttributes r label.attributes }
      else label

def KeepsOwn (r : ConvertRequest) (map : List GcdMapEntry) : Prop :=
  r.cpuArchAttributes = 0 → r.attributes ≠ 0 →
    (rangeEntries r map).Pairwise fun a b =>
      MaskSubset (keptAttributes a) (r.attributes ||| keptAttributes b)

theorem visitEntries_own_iff (hop : r.operation = .setAttributesMemory)
    (htile : TilesMap lower upper es) :
    labels (visitEntries (nextAttributes r) (convertEntry r) r.attributes es) =
        labels (es.map fun e => { e with attributes := ownAttributes r e.attributes }) ↔
      (r.cpuArchAttributes = 0 → r.attributes ≠ 0 →
        es.Pairwise fun a b =>
          MaskSubset (keptAttributes a) (r.attributes ||| keptAttributes b)) := by
  by_cases hcollects : r.cpuArchAttributes = 0 ∧ r.attributes ≠ 0
  · obtain ⟨hcpu, hne⟩ := hcollects
    have hown : ∀ attributes, ownAttributes r attributes =
        r.attributes ||| (attributes &&& (efiCacheAttributeMask ||| efiMemoryAccessMask)) :=
      fun attributes => if_neg (by tauto)
    simp only [hown, hcpu, hne, true_imp_iff, ne_eq, not_false_eq_true]
    refine (visitEntries_labels_iff hop hcpu hne BitVec.and_self htile).trans ?_
    exact and_iff_right fun b _ => maskSubset_or_left
  · have hown : ∀ attributes, ownAttributes r attributes = r.attributes :=
      fun attributes => if_pos (by tauto)
    rw [visitEntries_eq_map fun e => nextAttributes_eq_self (by tauto),
      map_congr_left fun e _ => convertEntry_setAttributes hop e]
    simp only [hown, true_iff]
    exact fun hcpu hne => absurd ⟨hcpu, hne⟩ hcollects

/-- A change of attributes gives every address what follows from its own
attributes exactly when the condition on the entries of the range holds. -/
theorem setAttributes_updates_own_iff (sizes : SpaceSizes) {g g' : Gcd}
    (hreach : Relation.ReflTransGen Step sizes.initial g) (env : Environment)
    (r : ConvertRequest) (hoperation : r.operation = .setAttributesMemory)
    (hrange : r.baseAddress + r.length ≤ 2 ^ 64)
    (hcall : coreConvertSpace env r g = some (.success, g')) :
    UpdatesOwn r g g' ↔ KeepsOwn r g.memorySpaceMap := by
  have hspace : r.operation.space = .memory := by rw [hoperation]; rfl
  rcases convertSpace_cases env r g with
    ⟨status, hstatus, heq⟩ | ⟨startLink, endLink, hlength, hsearch, -, -, -, heq⟩
  · rw [heq] at hcall
    simp only [Option.some.injEq, Prod.mk.injEq] at hcall
    exact absurd hcall.1 hstatus
  rw [heq, hspace] at hcall
  rw [hspace] at hsearch
  simp only [Option.map_eq_some_iff, Prod.mk.injEq, true_and] at hcall
  obtain ⟨map', hconvert, rfl⟩ := hcall
  have htiles := (reachable_wf hreach .memory).tiles
  have hupper : sizes.upper .memory ≤ 2 ^ 64 := le_trans (sizes.upper_le .memory) (by decide)
  change coreSearchGcdMapEntry r.baseAddress r.length g.memorySpaceMap = _ at hsearch
  change TilesMap _ _ g.memorySpaceMap at htiles
  change convertRange _ _ _ _ _ g.memorySpaceMap _ _ = _ at hconvert
  have hentries : rangeEntries r g.memorySpaceMap =
      linkRange g.memorySpaceMap startLink endLink := by
    simp only [rangeEntries, hsearch]
  obtain ⟨e, es, hlink, -, hfound⟩ := foundRange_of_search hlength hrange htiles hsearch
  have hclipped := map_clipEntry_tiles hlength hfound.tiles (hfound.meets hlength)
  unfold UpdatesOwn KeepsOwn
  refine (and_iff_right rfl).trans ((convertRange_labels_iff
    (f := fun e => { e with attributes := ownAttributes r e.attributes })
    (convertEntry_base r) (convertEntry_end r) (fun _ => rfl) (fun _ => rfl)
    (fun _ => rfl) hlength hrange hupper htiles hsearch hconvert).trans ?_)
  rw [hentries, hlink, visitEntries_own_iff hoperation hclipped, pairwise_map]
  rfl

def setRuntime (baseAddress length : Nat) : ConvertRequest :=
  { addSystemMemory baseAddress length 0 with
    operation := .setAttributesMemory
    attributes := efiMemoryRuntime }

def cachedPage (baseAddress : Nat) (attributes : AttributeMask) : GcdMapEntry :=
  { systemMemoryEntry baseAddress (baseAddress + 0xFFF)
      (efiMemoryWb ||| efiMemoryUc ||| efiMemoryRuntime) with attributes := attributes }

def sampleCached (lowAttributes highAttributes : AttributeMask) : Gcd where
  memorySpaceMap := [nonExistentEntry 0 0xFFF, cachedPage 0x1000 lowAttributes,
    cachedPage 0x2000 highAttributes, nonExistentEntry 0x3000 (2 ^ 48 - 1)]
  ioSpaceMap := (coreInitializeGcdServices 48 16).ioSpaceMap

def sampleUncached : Gcd :=
  { sampleCached 0 0 with
    memorySpaceMap := [nonExistentEntry 0 0xFFF, { cachedPage 0x1000 0 with endAddress := 0x2FFF },
      nonExistentEntry 0x3000 (2 ^ 48 - 1)] }

/-- The upper one of two pages is write-back memory and stays so. -/
theorem setRuntime_updates_own_on_added :
    UpdatesOwn (setRuntime 0x1000 0x2000) (sampleCached 0 efiMemoryWb)
      (sampleCached efiMemoryRuntime (efiMemoryRuntime ||| efiMemoryWb)) := by
  have hadd : Step sampleSizes.initial sampleUncached :=
    ⟨sampleCpuEnvironment, .convert (addSystemMemory 0x1000 0x2000 (efiMemoryWb ||| efiMemoryUc)),
      .success, 0x1000, by decide +kernel, by decide⟩
  have hset : Step sampleUncached (sampleCached 0 efiMemoryWb) :=
    ⟨sampleCpuEnvironment, .convert { setRuntime 0x2000 0x1000 with attributes := efiMemoryWb },
      .success, 0x2000, by decide +kernel, by decide⟩
  exact (setAttributes_updates_own_iff sampleSizes (.tail (.single hadd) hset) sampleCpuEnvironment
    (setRuntime 0x1000 0x2000) rfl (by decide) (by decide +kernel)).mpr
    fun _ _ => by decide +kernel

theorem sampleCached_label (lowAttributes highAttributes : AttributeMask) :
    (labels (sampleCached lowAttributes highAttributes).memorySpaceMap)[0x2000]? =
      some (cachedPage 0x2000 highAttributes).label := by
  have htile : TilesMap 0 (2 ^ 48) (sampleCached lowAttributes highAttributes).memorySpaceMap := by
    simp [sampleCached, Tiles, nonExistentEntry, cachedPage, systemMemoryEntry]
  have hlab := labels_getElem? (a := 0x2000) (e := cachedPage 0x2000 highAttributes)
    htile (by simp [sampleCached]) (by simp [cachedPage, systemMemoryEntry])
  rw [Nat.sub_zero] at hlab
  exact hlab

/-- A request for the runtime attribute on write-back memory and the uncached
memory above it gives the uncached memory the write-back attribute too. -/
theorem setRuntime_mixes_cache_attributes :
    ∃ g g', runCalls sampleCpuEnvironment
        [.convert (addSystemMemory 0x1000 0x2000 (efiMemoryWb ||| efiMemoryUc)),
          .convert { setRuntime 0x1000 0x1000 with attributes := efiMemoryWb },
          .convert { setRuntime 0x2000 0x1000 with attributes := efiMemoryUc }]
        (coreInitializeGcdServices 48 16) = some g ∧
      coreConvertSpace sampleCpuEnvironment (setRuntime 0x1000 0x2000) g =
        some (.success, g') ∧ ¬ UpdatesOwn (setRuntime 0x1000 0x2000) g g' := by
  refine ⟨sampleCached efiMemoryWb efiMemoryUc,
    sampleCached (efiMemoryRuntime ||| efiMemoryWb)
      (efiMemoryRuntime ||| efiMemoryWb ||| efiMemoryUc),
    by decide +kernel, by decide +kernel, ?_⟩
  rintro ⟨-, h⟩
  have hlabel := congrArg (fun l => l[0x2000]?) h
  rw [List.getElem?_mapIdx, sampleCached_label, sampleCached_label] at hlabel
  exact absurd hlabel (by decide +kernel)

end MuBasecore.GcdLabels
