import MuBasecore.GcdPartition
import MuBasecore.GetMemoryMap

/-!
The part of the memory map that comes from the GCD map. The walk takes neighbours
together, so that padding and merging of entries do not show in it; a call shows in it
only if an entry that it changes is reported before or after.
-/

namespace MuBasecore.GcdReport

open EfiTypes GcdMap GcdSpace GcdRange GcdPartition MemoryTypes GetMemoryMap List

/-- The descriptors that the walk of `CoreGetMemoryMap` along the GCD map adds. -/
def gcdDescriptors (mergeGcdMapEntry : GcdMapEntry) : List GcdMapEntry → List MemoryDescriptor
  | [] => (gcdDescriptor mergeGcdMapEntry).toList
  | e :: es =>
    if sameGcdRange mergeGcdMapEntry e then
      gcdDescriptors { mergeGcdMapEntry with endAddress := e.endAddress } es
    else (gcdDescriptor mergeGcdMapEntry).toList ++ gcdDescriptors e es

def gcdReport (g : Gcd) : List MemoryDescriptor :=
  gcdDescriptors zeroGcdEntry g.memorySpaceMap

variable {e e' m m' : GcdMapEntry} {es xs ys zs : List GcdMapEntry}

section Walk

/-- The walk cannot tell the entries apart: they differ in their owner at most, or
neither of them is reported. -/
def Alike (e e' : GcdMapEntry) : Prop :=
  (∃ image device, e' = { e with imageHandle := image, deviceHandle := device }) ∨
    reportedEntry e = false ∧ reportedEntry e' = false

theorem gcdDescriptor_eq_none (h : reportedEntry e = false) : gcdDescriptor e = none := by
  unfold reportedEntry at h
  unfold gcdDescriptor
  split <;> simp_all

theorem sameGcdRange_iff : sameGcdRange e e' = true ↔ e.capabilities = e'.capabilities ∧
    e.attributes = e'.attributes ∧ e.gcdMemoryType = e'.gcdMemoryType ∧
      e.gcdIoType = e'.gcdIoType := by
  simp [sameGcdRange, and_assoc]

theorem reported_congr (h : sameGcdRange e e' = true) : reportedEntry e = reportedEntry e' := by
  obtain ⟨-, hattr, htype, -⟩ := sameGcdRange_iff.1 h
  rw [reportedEntry, reportedEntry, hattr, htype]

theorem Alike.descriptor (h : Alike e e') : gcdDescriptor e = gcdDescriptor e' := by
  rcases h with ⟨image, device, rfl⟩ | ⟨h, h'⟩
  · rfl
  · rw [gcdDescriptor_eq_none h, gcdDescriptor_eq_none h']

theorem unreported_cons (hm : reportedEntry m = false) (he : reportedEntry e = false)
    (es : List GcdMapEntry) :
    ∃ x, reportedEntry x = false ∧ gcdDescriptors m (e :: es) = gcdDescriptors x es := by
  rw [gcdDescriptors]
  split
  · exact ⟨{ m with endAddress := e.endAddress }, hm, rfl⟩
  · exact ⟨e, he, by rw [gcdDescriptor_eq_none hm]; rfl⟩

theorem Alike.merge (h : Alike m m') : gcdDescriptors m es = gcdDescriptors m' es := by
  induction es generalizing m m' with
  | nil => rw [gcdDescriptors, gcdDescriptors, h.descriptor]
  | cons e es ih =>
    rcases h with ⟨image, device, rfl⟩ | ⟨hm, hm'⟩
    · by_cases hsame : sameGcdRange m e = true
      · rw [gcdDescriptors, gcdDescriptors, if_pos hsame, if_pos (by exact hsame)]
        exact ih (.inl ⟨image, device, rfl⟩)
      · rw [gcdDescriptors, gcdDescriptors, if_neg hsame, if_neg (by exact hsame)]
        rfl
    cases he : reportedEntry e with
    | false =>
      obtain ⟨x, hx, heq⟩ := unreported_cons hm he es
      obtain ⟨x', hx', heq'⟩ := unreported_cons hm' he es
      rw [heq, heq', ih (.inr ⟨hx, hx'⟩)]
    | true =>
      have hother : ∀ {m}, reportedEntry m = false → ¬ sameGcdRange m e = true := by
        intro m hm hsame
        rw [reported_congr hsame, he] at hm
        exact nomatch hm
      rw [gcdDescriptors, gcdDescriptors, if_neg (hother hm), if_neg (hother hm'),
        gcdDescriptor_eq_none hm, gcdDescriptor_eq_none hm']

/-- The walk reads the same from the two lists, whatever it has read in front of them. -/
def Reads (xs ys : List GcdMapEntry) : Prop :=
  ∀ m, gcdDescriptors m xs = gcdDescriptors m ys

theorem cons_unreported (h : reportedEntry e = false) :
    gcdDescriptors m (e :: es) = (gcdDescriptor m).toList ++ gcdDescriptors e es := by
  rw [gcdDescriptors]
  split
  next hsame =>
    have hm : reportedEntry m = false := (reported_congr hsame).trans h
    rw [gcdDescriptor_eq_none hm]
    exact Alike.merge (.inr ⟨hm, h⟩)
  · rfl

theorem Alike.reads (h : Alike e e') : Reads (e :: es) (e' :: es) := by
  intro m
  rcases id h with ⟨image, device, rfl⟩ | ⟨he, he'⟩
  · rw [gcdDescriptors, gcdDescriptors, h.merge]
    rfl
  · rw [cons_unreported he, cons_unreported he', h.merge]

theorem reads_join (h : sameGcdRange e e' = true) :
    Reads ({ e with endAddress := e'.endAddress } :: es) (e :: e' :: es) := by
  intro m
  by_cases hm : sameGcdRange m e = true
  · have hnext : sameGcdRange m e' = true := by
      rw [sameGcdRange_iff] at h hm ⊢
      exact ⟨hm.1.trans h.1, hm.2.1.trans h.2.1, hm.2.2.1.trans h.2.2.1, hm.2.2.2.trans h.2.2.2⟩
    rw [gcdDescriptors, gcdDescriptors, if_pos (by exact hm), if_pos hm, gcdDescriptors,
      if_pos (by exact hnext)]
  · rw [gcdDescriptors, gcdDescriptors, if_neg (by exact hm), if_neg hm, gcdDescriptors,
      if_pos h]

theorem joins_reads : Joins Reads where
  refl _ _ := rfl
  trans h h' m := (h m).trans (h' m)
  cons e h m := by rw [gcdDescriptors, gcdDescriptors, h, h]
  join xs hlabel := by
    simp only [GcdMapEntry.label, GcdLabel.mk.injEq] at hlabel
    exact reads_join (sameGcdRange_iff.2 ⟨hlabel.1, hlabel.2.1, hlabel.2.2.1, hlabel.2.2.2.1⟩)

end Walk

section Edits

theorem insert_reads (e : GcdMapEntry) (baseAddress length : Nat) (es : List GcdMapEntry) :
    Reads ((coreInsertGcdMapEntry e baseAddress length).bottomEntry.toList ++
      (coreInsertGcdMapEntry e baseAddress length).entry ::
        ((coreInsertGcdMapEntry e baseAddress length).topEntry.toList ++ es)) (e :: es) := by
  have hsplit : ∀ (x : GcdMapEntry) (stop start : Nat) {es}, Reads
      ({ x with endAddress := stop } :: { x with baseAddress := start } :: es) (x :: es) := by
    intro x stop start es m
    exact (reads_join (by simp [sameGcdRange]) m).symm
  unfold coreInsertGcdMapEntry
  by_cases hbottom : baseAddress > e.baseAddress
  · simp only [if_pos hbottom]
    split
    · exact joins_reads.trans
        (joins_reads.cons _ (hsplit { e with baseAddress := baseAddress } _ _)) (hsplit e _ _)
    · exact hsplit e _ _
  · simp only [if_neg hbottom]
    split
    · exact hsplit e _ _
    · exact fun _ => rfl

theorem insert_entry (baseAddress length : Nat) : ∃ start stop,
    (coreInsertGcdMapEntry e baseAddress length).entry =
      { e with baseAddress := start, endAddress := stop } := by
  unfold coreInsertGcdMapEntry
  dsimp only
  split <;> split <;> exact ⟨_, _, rfl⟩

variable {σ : Type} {next : σ → GcdMapEntry → σ} {convert : σ → GcdMapEntry → GcdMapEntry}
  {I : σ → Prop} {s : σ} {baseAddress length : Nat}

/-- The walk does not notice the change of an entry or of a part of it. The loop carries a
state from entry to entry, of which it keeps `I`. -/
def Unnoticed (I : σ → Prop) (convert : σ → GcdMapEntry → GcdMapEntry) (es : List GcdMapEntry) :
    Prop :=
  ∀ s, I s → ∀ e ∈ es, ∀ start stop,
    Alike (convert s { e with baseAddress := start, endAddress := stop })
      { e with baseAddress := start, endAddress := stop }

section

variable (hnext : ∀ s e, I s → I (next s e))
include hnext

theorem convertLoop_reads {bottomUsed : Bool} {back : List GcdMapEntry} {converted : Converted}
    (hs : I s) (hconvert : Unnoticed I convert es)
    (h : convertLoop next convert baseAddress length s bottomUsed es = some converted) :
    Reads (converted.before ++ (converted.body ++ (converted.top ++ back))) (es ++ back) := by
  induction es generalizing s bottomUsed converted with
  | nil =>
    obtain ⟨⟩ := h
    exact fun _ => rfl
  | cons e es ih =>
    have hinsert := insert_reads e baseAddress length
    obtain ⟨start, stop, hentry⟩ := insert_entry (e := e) baseAddress length
    rw [convertLoop] at h
    split at h
    · cases h
    split at h
    · cases h
    rename_i hlast
    split at h
    · cases h
    rename_i rest hrest
    obtain ⟨⟩ := h
    have hs' := hnext s (coreInsertGcdMapEntry e baseAddress length).entry hs
    have hhead := hconvert _ hs' e mem_cons_self start stop
    rw [← hentry] at hhead
    have htail := ih hs' (fun s hs d hd => hconvert s hs d (mem_cons_of_mem _ hd)) hrest
    cases htop : (coreInsertGcdMapEntry e baseAddress length).topEntry with
    | none =>
      refine joins_reads.trans ?_ (hinsert (es ++ back))
      rw [htop]
      refine joins_reads.append _ (joins_reads.trans hhead.reads (joins_reads.cons _ ?_))
      simpa using htail
    | some top =>
      obtain rfl : es = [] := by simpa [htop] using hlast
      obtain ⟨⟩ := hrest
      refine joins_reads.trans ?_ (hinsert back)
      rw [htop]
      exact joins_reads.append _ hhead.reads

theorem convertRange_reads {startLink endLink : Nat} {map map' : List GcdMapEntry} (hs : I s)
    (hfind : coreSearchGcdMapEntry baseAddress length map = some (startLink, endLink))
    (hconvert : Unnoticed I convert (linkRange map startLink endLink))
    (h : convertRange next convert baseAddress length s map startLink endLink = some map') :
    Reads map' map := by
  have hmap := (searchEntry_eq_some hfind).1
  unfold convertRange at h
  split at h
  · cases h
  rename_i converted hloop
  obtain ⟨⟩ := h
  refine joins_reads.trans joins_reads.cleanup ?_
  rw [reverse_reverse, append_assoc]
  nth_rewrite 3 [hmap]
  exact joins_reads.append _ (convertLoop_reads hnext hs hconvert hloop)

end

end Edits

section Calls

variable {g g' : Gcd} {env : Environment} {status : EfiStatus} {baseAddress : Nat}

/-- The operation changes entries that are not reported into entries that are not. -/
def Unreported (r : ConvertRequest) (map : List GcdMapEntry) : Prop :=
  ∀ startLink endLink,
    coreSearchGcdMapEntry r.baseAddress r.length map = some (startLink, endLink) →
      ∀ e ∈ linkRange map startLink endLink,
        reportedEntry e = false ∧ reportedEntry (convertEntry r r.attributes e) = false

/-- A range is taken or given back, or the call is about the I/O space, or about memory
that is not reported. -/
def Quiet (g : Gcd) : GcdCall → Prop
  | .allocate _ => True
  | .convert r => r.operation.space = .io ∨ r.operation = .freeMemory ∨
      Unreported r g.memorySpaceMap

theorem nextAttributes_runtime (r : ConvertRequest) (attributes : AttributeMask)
    (e : GcdMapEntry) :
    nextAttributes r attributes e &&& efiMemoryRuntime = attributes &&& efiMemoryRuntime := by
  unfold nextAttributes
  split
  · rw [BitVec.and_or_distrib_right, BitVec.and_assoc,
      show (efiCacheAttributeMask ||| efiMemoryAccessMask) &&& efiMemoryRuntime = 0#64 by decide,
      BitVec.and_zero, BitVec.or_zero]
  · rfl

theorem reported_convertEntry {r : ConvertRequest} {attributes : AttributeMask}
    (h : attributes &&& efiMemoryRuntime = r.attributes &&& efiMemoryRuntime) (e : GcdMapEntry)
    (start stop : Nat) :
    reportedEntry (convertEntry r attributes { e with baseAddress := start, endAddress := stop }) =
      reportedEntry (convertEntry r r.attributes e) := by
  cases hop : r.operation <;> simp only [convertEntry, hop, reportedEntry, h]

theorem convertSpace_report {r : ConvertRequest} (hquiet : Quiet g (.convert r))
    (h : coreConvertSpace env r g = some (status, g')) : gcdReport g' = gcdReport g := by
  rcases convertSpace_cases env r g with ⟨_, -, heq⟩ | ⟨first, last, -, hfind, -, -, -, heq⟩
  · rw [heq] at h
    obtain ⟨⟩ := h
    rfl
  rw [heq] at h
  obtain ⟨map, hrange, hset⟩ := Option.map_eq_some_iff.1 h
  obtain ⟨⟩ := hset
  cases hspace : r.operation.space with
  | io => rfl
  | memory =>
    rw [hspace] at hfind hrange
    refine convertRange_reads (I := fun attributes =>
      attributes &&& efiMemoryRuntime = r.attributes &&& efiMemoryRuntime)
      (fun s e h => (nextAttributes_runtime r s e).trans h) rfl hfind ?_ hrange zeroGcdEntry
    intro s hs e he start stop
    rcases hquiet with hio | hfree | hunreported
    · rw [hspace] at hio
      cases hio
    · refine .inl ⟨e.imageHandle, e.deviceHandle, ?_⟩
      simp [convertEntry, hfree]
    · obtain ⟨hbefore, hafter⟩ := hunreported first last hfind e he
      exact .inr ⟨(reported_convertEntry hs e start stop).trans hafter, hbefore⟩

theorem allocateSpace_report {r : AllocateRequest}
    (h : coreAllocateSpace env r g = some (status, baseAddress, g')) :
    gcdReport g' = gcdReport g := by
  rcases allocateSpace_cases with
    ⟨_, _, -, heq⟩ | ⟨-, -, heq⟩ | ⟨base, first, last, -, -, -, hselect, heq⟩ <;> rw [heq] at h
  · obtain ⟨⟩ := h
    rfl
  · cases h
  obtain ⟨map, hrange, hset⟩ := Option.map_eq_some_iff.1 h
  obtain ⟨⟩ := hset
  cases hspace : r.space with
  | io => rfl
  | memory =>
    rw [hspace] at hselect hrange
    refine convertRange_reads (I := fun _ => True) (fun _ _ _ => trivial) trivial
      (selectRange_found hselect).1 ?_ hrange zeroGcdEntry
    intro _ _ e _ start stop
    exact .inl ⟨e.imageHandle, e.deviceHandle, rfl⟩

theorem quiet_report {call : GcdCall} (hquiet : Quiet g call)
    (h : call.run env g = some (status, baseAddress, g')) : gcdReport g' = gcdReport g := by
  cases call with
  | allocate r => exact allocateSpace_report h
  | convert r =>
    unfold GcdCall.run at h
    dsimp only at h
    split at h
    · cases h
    rename_i hrun
    obtain ⟨⟩ := h
    exact convertSpace_report hquiet hrun

end Calls

end MuBasecore.GcdReport
