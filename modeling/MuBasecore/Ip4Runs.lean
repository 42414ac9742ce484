import MuBasecore.Ip4Reassembly

/-!
Runs of the reassembly: a datagram is delivered when it is complete, exactly if
no fragment has to be trimmed at its end.
-/

namespace MuBasecore.Ip4Runs

open ByteMemory NetBuffer Ip4Fragments Ip4Reassembly SpanList List

variable {payload : List Byte} {datagram : DatagramId} {packets : List Packet}
  {assemble : AssembleEntry} {packet : Packet}

theorem last_iff_covers (h : ∀ p ∈ packets, FragmentOf payload datagram p)
    (hpos : 0 < payload.length) :
    (∃ p ∈ packets, ip4LastFragment p.head.fragment = true) ↔
      Covers (spans packets) (payload.length - 1) := by
  constructor
  · rintro ⟨p, hp, hlast⟩
    have hstop := (h p hp).last.1 hlast
    have hlt := (h p hp).start_lt
    refine ⟨span p, mem_map_of_mem hp, ?_, ?_⟩
    · change p.info.start ≤ _
      omega
    · change _ < p.info.stop
      omega
  · rintro ⟨s, hs, hmem⟩
    obtain ⟨p, hp, rfl⟩ := mem_map.1 hs
    refine ⟨p, hp, (h p hp).last.2 ?_⟩
    have hle := (h p hp).stop_le
    have hlt : payload.length - 1 < p.info.stop := hmem.2
    omega

theorem payload_pos (h : CutFrom payload packet) : 0 < payload.length := by
  have := h.start_lt
  have := h.stop_le
  omega

theorem covers_concat (i : Nat) :
    Covers (spans (packets ++ [packet])) i ↔ (span packet).Mem i ∨ Covers (spans packets) i := by
  rw [spans_append, covers_append, or_comm]
  refine or_congr ?_ Iff.rfl
  change Covers [span packet] i ↔ _
  rw [covers_cons, or_iff_left (not_covers_nil)]

theorem exists_last_concat :
    (∃ p ∈ packets ++ [packet], ip4LastFragment p.head.fragment = true) ↔
      (∃ p ∈ packets, ip4LastFragment p.head.fragment = true) ∨
        ip4LastFragment packet.head.fragment = true := by
  simp [or_and_right, exists_or]

theorem complete_concat (h : Complete payload packets) : Complete payload (packets ++ [packet]) :=
  ⟨exists_last_concat.2 (.inl h.1), fun i hi => (covers_concat i).2 (.inr (h.2 i hi))⟩

variable {result : AssembleEntry}

section Assembling

variable (h : Assembling payload packets assemble)
include h

theorem assembling_dropped (hpkts : ∀ p ∈ packets, FragmentOf payload datagram p)
    (hpkt : FragmentOf payload datagram packet)
    (hins : Inserted payload assemble packet (result, none)) :
    Assembling payload (packets ++ [packet]) result ∧
      (Complete payload (packets ++ [packet]) → Complete payload packets) := by
  have hpos := payload_pos hpkt.toCutFrom
  obtain ⟨hin, hcov⟩ := insertSpan_spec h.within (x := span packet) (Nat.zero_le _)
    hpkt.start_lt hpkt.stop_le
  have hsame : ∀ i, Covers (spans (packets ++ [packet])) i ↔ Covers (spans packets) i := by
    intro i
    rw [covers_concat]
    refine or_iff_right_of_imp fun hi => ?_
    rw [← h.covers]
    exact hins.dropped rfl i hi
  have hall : ∀ p ∈ packets ++ [packet], FragmentOf payload datagram p := by
    intro p hp
    rcases mem_append.1 hp with hp | hp
    · exact hpkts p hp
    · rw [mem_singleton.1 hp]
      exact hpkt
  have hlast : (∃ p ∈ packets ++ [packet], ip4LastFragment p.head.fragment = true) ↔
      ∃ p ∈ packets, ip4LastFragment p.head.fragment = true := by
    rw [last_iff_covers hall hpos, hsame, last_iff_covers hpkts hpos]
  refine ⟨⟨hins.cut, ?_, (Int.add_zero _).symm.trans hins.curLen, fun i => ?_, ?_⟩,
    fun hcomp => ⟨hlast.1 hcomp.1, fun i hi => (hsame i).1 (hcomp.2 i hi)⟩⟩
  · rw [hins.spans]
    exact hin
  · rw [hins.spans, hcov, h.covers, covers_concat]
  · rw [hins.totalLen, h.totalLen]
    simp only [hlast]

theorem assembling_placed (hpkt : FragmentOf payload datagram packet) {placed : Packet}
    (hins : Inserted payload assemble packet (result, some placed)) :
    Assembling payload (packets ++ [packet]) (updateEntry result placed) := by
  obtain ⟨hin, hcov⟩ := insertSpan_spec h.within (x := span packet) (Nat.zero_le _)
    hpkt.start_lt hpkt.stop_le
  obtain ⟨hhead, hstop⟩ := hins.placed placed rfl
  have hpos := payload_pos hpkt.toCutFrom
  refine ⟨hins.cut, ?_, hins.curLen, fun i => ?_, ?_⟩
  · change Within _ _ (spans result.fragments)
    rw [hins.spans]
    exact hin
  · change Covers (spans result.fragments) i ↔ _
    rw [hins.spans, hcov, h.covers, covers_concat]
  · change (if ip4LastFragment placed.head.fragment = true ∧ result.totalLen = 0 then
      (placed.info.stop : Int) else result.totalLen) = _
    rw [hhead, hstop, hins.totalLen, h.totalLen]
    simp only [exists_last_concat]
    by_cases hpre : ∃ p ∈ packets, ip4LastFragment p.head.fragment = true
    · have hne : ¬ ((payload.length : Int) = 0) := by omega
      simp only [hpre, if_true, true_or, hne, and_false, if_false]
    · by_cases hlast : ip4LastFragment packet.head.fragment = true
      · simp [hpre, hlast, hpkt.last.1 hlast]
      · simp [hpre, hlast]

section

variable (hpos : 0 < payload.length)
include hpos

theorem lengths_iff_complete :
    assemble.totalLen ≠ 0 ∧ assemble.totalLen ≤ assemble.curLen ↔ Complete payload packets := by
  have hle := h.within.total_le
  rw [Complete, h.totalLen, h.curLen]
  have hcov : 0 + total (spans assemble.fragments) = payload.length ↔
      ∀ i < payload.length, Covers (spans packets) i := by
    rw [h.within.total_eq_iff]
    exact ⟨fun hall i hi => (h.covers i).1 (hall i (Nat.zero_le i) hi),
      fun hall i _ hi => (h.covers i).2 (hall i hi)⟩
  rw [← hcov]
  split_ifs with hlast
  · simp only [hlast, true_and]
    omega
  · simp [hlast]

theorem deliver_complete (hcomp : Complete payload packets) :
    ∃ delivered, deliver assemble = (none, some delivered) ∧ delivered.nbuf.bytes = payload := by
  have hcond := (lengths_iff_complete h hpos).2 hcomp
  have htotal : 0 + total (spans assemble.fragments) = payload.length :=
    h.within.total_eq_iff.2 fun i _ hi => (h.covers i).2 (hcomp.2 i hi)
  have hlen : assemble.totalLen = payload.length := by
    rw [h.totalLen, if_pos hcomp.1]
  rcases eq_nil_or_concat assemble.fragments with hnil | ⟨init, last, hspl⟩
  · rw [hnil] at htotal
    change 0 + 0 = _ at htotal
    omega
  · rw [concat_eq_append] at hspl
    have hstop : last.info.stop = payload.length := by
      have hin := h.within
      rw [hspl, spans_append] at hin htotal
      have hbd := (Within.stop_last hin).total_le
      have hle := (hin.mem (s := span last) (by simp [spans])).2.2
      change 0 + total (spans init ++ spans [last]) ≤ last.info.stop at hbd
      change last.info.stop ≤ _ at hle
      omega
    refine ⟨⟨netbufFromBufList (assemble.fragments.map Packet.nbuf), assemble.head, assemble.info⟩,
      ?_, ?_⟩
    · rw [deliver, if_pos hcond, hspl, getLast?_concat]
      dsimp only
      rw [if_neg (by rw [hlen, hstop]; simp)]
    · have hslices : (assemble.fragments.map Packet.nbuf).map NetBuf.bytes =
          (spans assemble.fragments).map (slice payload) := by
        rw [spans, map_map, map_map]
        exact map_congr_left fun f hf => (h.cut f hf).bytes
      rw [bytes_netbufFromBufList, hslices, h.within.flatten_slice payload htotal]
      simp [slice, Span.length]

theorem deliver_incomplete
    (hinc : ¬ Complete payload packets) : deliver assemble = (some assemble, none) := by
  rw [deliver, if_neg fun hcond => hinc ((lengths_iff_complete h hpos).1 hcond)]

end

theorem waiting_of_assembling : Waiting assemble := by
  have hpair := pairwise_map.1 h.within.pairwise
  refine ⟨hpair.imp fun hab => hab.1, hpair.imp fun hab i hi => ?_, ?_⟩
  · have h₁ := hi.1.2
    have h₂ := hi.2.1
    omega
  · rw [h.curLen, heldBytes_eq h.cut]

end Assembling

theorem assembleStep_fits (hpay : payload.length ≤ ip4MaxPacketSize)
    (h : Assembling payload packets assemble)
    (hpkts : ∀ p ∈ packets, FragmentOf payload datagram p)
    (hpkt : FragmentOf payload datagram packet) (hinc : ¬ Complete payload packets)
    (hfits : Fits (spans assemble.fragments) (span packet)) :
    (Complete payload (packets ++ [packet]) → ∃ delivered,
        (assembleStep assemble packet).2 = some delivered ∧ delivered.nbuf.bytes = payload) ∧
      (¬ Complete payload (packets ++ [packet]) → (assembleStep assemble packet).2 = none ∧
        ∃ assemble', (assembleStep assemble packet).1 = some assemble' ∧
          Assembling payload (packets ++ [packet]) assemble') := by
  have hpos := payload_pos hpkt.toCutFrom
  have hins := insertFragment_fits hpay h hpkt.toCutFrom hfits
  rw [assembleStep]
  cases hres : insertFragment assemble packet with
  | mk result placed =>
    rw [hres] at hins
    cases placed with
    | none =>
      obtain ⟨hnext, hback⟩ := assembling_dropped h hpkts hpkt hins
      exact ⟨fun hcomp => absurd (hback hcomp) hinc, fun _ => ⟨rfl, result, rfl, hnext⟩⟩
    | some placed =>
      have hnext := assembling_placed h hpkt hins
      refine ⟨fun hcomp => ?_, fun hnot => ?_⟩
      · obtain ⟨delivered, hdeliver, hbyt⟩ := deliver_complete hnext hpos hcomp
        exact ⟨delivered, congrArg Prod.snd hdeliver, hbyt⟩
      · have hdeliver := deliver_incomplete hnext hpos hnot
        exact ⟨congrArg Prod.snd hdeliver, _, congrArg Prod.fst hdeliver, hnext⟩

theorem length_netbufFromBufList (fragments : List Packet) :
    (netbufFromBufList (fragments.map Packet.nbuf)).bytes.length = heldBytes fragments := by
  rw [bytes_netbufFromBufList, length_flatten, heldBytes, map_map, map_map]
  rfl

theorem assembleStep_overlap (hpay : payload.length ≤ ip4MaxPacketSize)
    (h : Assembling payload packets assemble) (hpkt : FragmentOf payload datagram packet)
    (hfits : ¬ Fits (spans assemble.fragments) (span packet)) :
    (∀ delivered, (assembleStep assemble packet).2 = some delivered →
        delivered.nbuf.bytes ≠ payload) ∧
      ∀ assemble', (assembleStep assemble packet).1 = some assemble' → ¬ Waiting assemble' := by
  obtain ⟨result, placed, hres, hshrt, hlong⟩ :=
    insertFragment_overlap hpay h hpkt.toCutFrom hfits
  rw [assembleStep, hres]
  dsimp only
  refine ⟨fun delivered hdel hbyt => ?_, fun assemble' hent hwaiting => ?_⟩
  · rw [deliver] at hdel
    split at hdel
    · cases hlast : (updateEntry result placed).fragments.getLast? with
      | none =>
        rw [hlast] at hdel
        cases hdel
      | some last =>
        rw [hlast] at hdel
        dsimp only at hdel
        split at hdel
        · cases hdel
        · rw [← Option.some.inj hdel] at hbyt
          have hlng := length_netbufFromBufList result.fragments
          change (netbufFromBufList (result.fragments.map Packet.nbuf)).bytes = _ at hbyt
          rw [hbyt] at hlng
          omega
    · cases hdel
  · rw [deliver_entry hent] at hwaiting
    have hcur : result.curLen + placed.info.length = heldBytes result.fragments :=
      hwaiting.curLen
    omega

/-- The table holds what it should when these packets of the datagram have been
received; a datagram without an entry is like one with a new entry. -/
def Holds (payload : List Byte) (datagram : DatagramId) (packets : List Packet)
    (table : AssembleTable) : Prop :=
  ∃ assemble : Option AssembleEntry, entriesOf table datagram = assemble.toList ∧
    Assembling payload packets (assemble.getD (ip4CreateAssembleEntry datagram))

variable {table : AssembleTable}

theorem spans_heldFragments {assemble : Option AssembleEntry}
    (h : entriesOf table datagram = assemble.toList) :
    heldFragments table datagram = (assemble.getD (ip4CreateAssembleEntry datagram)).fragments := by
  rw [heldFragments, findEntry_eq, h]
  cases assemble <;> rfl

section

variable (hpay : payload.length ≤ ip4MaxPacketSize) (h : Holds payload datagram packets table)
  (hpkts : ∀ p ∈ packets, FragmentOf payload datagram p)
  (hpkt : FragmentOf payload datagram packet)
include hpay h hpkts hpkt

theorem stepOk_iff_fits (hinc : ¬ Complete payload packets) :
    StepOk payload datagram (packets ++ [packet]) (ip4Reassemble table packet) ↔
      Fits (spans (heldFragments table datagram)) (span packet) := by
  obtain ⟨assemble, hents, hasm⟩ := h
  obtain rfl := hpkt.datagram
  obtain ⟨hres, hafter⟩ := ip4Reassemble_self hents
  rw [spans_heldFragments hents]
  constructor
  · intro hok
    by_contra hfits
    obtain ⟨hdel, hwaiting⟩ := assembleStep_overlap hpay hasm hpkt hfits
    by_cases hcomp : Complete payload (packets ++ [packet])
    · obtain ⟨delivered, hsome, hbyt⟩ := hok.delivered hcomp
      exact hdel delivered (hres.symm.trans hsome) hbyt
    · obtain ⟨_, assemble', hfind, hwait⟩ := hok.waiting hcomp
      refine hwaiting assemble' ?_ hwait
      rw [findEntry_eq, hafter] at hfind
      revert hfind
      cases (assembleStep _ packet).1 with
      | none => exact fun hfind => by cases hfind
      | some entry => exact fun hfind => hfind
  · intro hfits
    obtain ⟨hdel, hwaiting⟩ :=
      assembleStep_fits hpay hasm hpkts hpkt hinc hfits
    refine ⟨fun hcomp => ?_, fun hnot => ?_⟩
    · obtain ⟨delivered, hsome, hbyt⟩ := hdel hcomp
      exact ⟨delivered, hres.trans hsome, hbyt⟩
    · obtain ⟨hnone, assemble', hent, hnext⟩ := hwaiting hnot
      refine ⟨hres.trans hnone, assemble', ?_, waiting_of_assembling hnext⟩
      rw [findEntry_eq, hafter, hent]
      rfl

theorem holds_step (hinc : ¬ Complete payload (packets ++ [packet]))
    (hfits : Fits (spans (heldFragments table datagram)) (span packet)) :
    Holds payload datagram (packets ++ [packet]) (ip4Reassemble table packet).1 := by
  obtain ⟨assemble, hents, hasm⟩ := h
  obtain rfl := hpkt.datagram
  rw [spans_heldFragments hents] at hfits
  obtain ⟨_, hwaiting⟩ := assembleStep_fits hpay hasm hpkts hpkt
    (fun hcomp => hinc (complete_concat hcomp)) hfits
  obtain ⟨_, assemble', hent, hnext⟩ := hwaiting hinc
  refine ⟨some assemble', ?_, hnext⟩
  rw [(ip4Reassemble_self hents).2, hent]

end

theorem received_concat_self (h : packet.head.datagram = datagram) :
    received datagram (packets ++ [packet]) = received datagram packets ++ [packet] := by
  simp [received, h]

theorem received_concat_other (h : packet.head.datagram ≠ datagram) :
    received datagram (packets ++ [packet]) = received datagram packets := by
  simp [received, h]

theorem runTable_concat (table : AssembleTable) :
    runTable table (packets ++ [packet]) = (ip4Reassemble (runTable table packets) packet).1 := by
  rw [runTable, foldl_append]
  rfl

theorem forall_place_concat {α : Type} {Q : List α → α → Prop} {l : List α} {y : α} :
    (∀ front x back, l ++ [y] = front ++ x :: back → Q front x) ↔
      (∀ front x back, l = front ++ x :: back → Q front x) ∧ Q l y := by
  constructor
  · intro h
    refine ⟨fun front x back heq => h front x (back ++ [y]) ?_, h l y [] rfl⟩
    rw [heq, append_assoc, cons_append]
  · rintro ⟨hfr, hlast⟩ front x back heq
    rcases eq_nil_or_concat back with rfl | ⟨init, z, rfl⟩
    · obtain ⟨rfl, hy⟩ := append_inj' heq rfl
      rw [cons.injEq] at hy
      rw [← hy.1]
      exact hlast
    · rw [concat_eq_append, ← cons_append, ← append_assoc] at heq
      exact hfr front x init (append_inj' heq rfl).1

theorem runOk_concat :
    RunOk payload datagram table (packets ++ [packet]) ↔
      RunOk payload datagram table packets ∧ (packet.head.datagram = datagram →
        ¬ Complete payload (received datagram packets) →
        StepOk payload datagram (received datagram (packets ++ [packet]))
          (ip4Reassemble (runTable table packets) packet)) :=
  forall_place_concat

theorem runFits_concat :
    RunFits payload datagram table (packets ++ [packet]) ↔
      RunFits payload datagram table packets ∧ (packet.head.datagram = datagram →
        ¬ Complete payload (received datagram packets) →
        Fits (spans (heldFragments (runTable table packets) datagram)) (span packet)) :=
  forall_place_concat

theorem fragmentOf_received
    (h : ∀ p ∈ packets, p.head.datagram = datagram → FragmentOf payload datagram p) :
    ∀ p ∈ received datagram packets, FragmentOf payload datagram p := by
  intro p hp
  obtain ⟨hmem, hdata⟩ := mem_filter.1 hp
  exact h p hmem (by simpa using hdata)

theorem holds_run (hpay : payload.length ≤ ip4MaxPacketSize)
    (hnew : findEntry table datagram = none)
    (hpkts : ∀ p ∈ packets, p.head.datagram = datagram → FragmentOf payload datagram p)
    (hfits : RunFits payload datagram table packets)
    (hinc : ¬ Complete payload (received datagram packets)) :
    Holds payload datagram (received datagram packets) (runTable table packets) := by
  induction packets using List.reverseRecOn with
  | nil =>
    refine ⟨none, ?_, ⟨fun f hf => absurd hf not_mem_nil, Nat.zero_le _, rfl,
      fun i => Iff.rfl, rfl⟩⟩
    rw [findEntry_eq, List.head?_eq_none_iff] at hnew
    exact hnew
  | append_singleton packets packet ih =>
    have hpre : ∀ p ∈ packets, p.head.datagram = datagram → FragmentOf payload datagram p :=
      fun p hp => hpkts p (mem_append_left _ hp)
    obtain ⟨hfits, hlast⟩ := runFits_concat.1 hfits
    rw [runTable_concat]
    by_cases hdata : packet.head.datagram = datagram
    · rw [received_concat_self hdata] at hinc ⊢
      have hearlier : ¬ Complete payload (received datagram packets) :=
        fun hcomp => hinc (complete_concat hcomp)
      exact holds_step hpay (ih hpre hfits hearlier) (fragmentOf_received hpre)
        (hpkts packet (by simp) hdata) hinc (hlast hdata hearlier)
    · rw [received_concat_other hdata] at hinc ⊢
      obtain ⟨assemble, hents, hasm⟩ := ih hpre hfits hinc
      exact ⟨assemble, (entriesOf_other fun heq => hdata heq.symm).trans hents, hasm⟩

/-- In a run in which any packets arrive, those of one datagram among them being
parts of one payload, the datagram is reassembled as it should be exactly if no
fragment has to be trimmed at its end. -/
theorem reassembly_ok_iff_fits (payload : List Byte) (datagram : DatagramId)
    (table : AssembleTable) (packets : List Packet)
    (hpayload : payload.length ≤ ip4MaxPacketSize) (hnew : findEntry table datagram = none)
    (hpackets : ∀ p ∈ packets, p.head.datagram = datagram → FragmentOf payload datagram p) :
    RunOk payload datagram table packets ↔ RunFits payload datagram table packets := by
  induction packets using List.reverseRecOn with
  | nil =>
    refine ⟨fun _ front x back heq => ?_, fun _ front x back heq => ?_⟩
    · simp at heq
    · simp at heq
  | append_singleton packets packet ih =>
    have hbefore : ∀ p ∈ packets, p.head.datagram = datagram → FragmentOf payload datagram p :=
      fun p hp => hpackets p (mem_append_left _ hp)
    rw [runOk_concat, runFits_concat, ih hbefore]
    refine and_congr_right fun hfits => forall_congr' fun hdatagram =>
      forall_congr' fun hincomplete => ?_
    rw [received_concat_self hdatagram]
    exact stepOk_iff_fits hpayload (holds_run hpayload hnew hbefore hfits hincomplete)
      (fragmentOf_received hbefore) (hpackets packet (by simp) hdatagram) hincomplete

def cutPacket (payload : List Byte) (datagram : DatagramId) (start stop : Nat)
    (fragment : UInt16) : Packet where
  nbuf := ⟨[slice payload ⟨start, stop⟩], blocksSize [slice payload ⟨start, stop⟩] % 2 ^ 32, rfl⟩
  head := ⟨datagram, fragment⟩
  info := ⟨start, stop, stop - start⟩

def samplePayload : List Byte :=
  (List.range 24).map (BitVec.ofNat 8)

def sampleDatagram : DatagramId :=
  ⟨0x0100007F, 0x0200007F, 7, 17⟩

def samplePacket (start stop : Nat) (fragment : UInt16) : Packet :=
  cutPacket samplePayload sampleDatagram start stop fragment

theorem sample_fragmentOf {start stop : Nat} {fragment : UInt16} (hlt : start < stop)
    (hle : stop ≤ 24) (hlast : ip4LastFragment fragment = true ↔ stop = 24) :
    FragmentOf samplePayload sampleDatagram (samplePacket start stop fragment) where
  start_lt := hlt
  stop_le := hle
  length := by
    change (stop : Int) - start = ((stop - start : Nat) : Int)
    omega
  bytes := append_nil _
  datagram := rfl
  last := hlast

/-- Two fragments that do not overlap arrive in the wrong order. -/
theorem sample_reassembled :
    RunOk samplePayload sampleDatagram (fun _ => [])
      ([] ++ [samplePacket 8 24 0x0001] ++ [samplePacket 0 8 0x2000]) := by
  refine (reassembly_ok_iff_fits _ _ _ _ (by decide) rfl ?_).2 ?_
  · intro p hp _
    simp only [nil_append, cons_append, mem_cons, not_mem_nil, or_false] at hp
    rcases hp with rfl | rfl
    · exact sample_fragmentOf (by decide) (by decide) (by decide)
    · exact sample_fragmentOf (by decide) (by decide) (by decide)
  · refine runFits_concat.2 ⟨runFits_concat.2 ⟨fun front x back heq => ?_, fun _ _ => ?_⟩,
      fun _ _ => ?_⟩
    · simp at heq
    · decide
    · decide

/-- The second fragment overlaps the first one at its end: a packet is delivered
without the bytes that the second one brings. -/
theorem sample_overlap_delivered :
    FragmentOf samplePayload sampleDatagram (samplePacket 8 24 0x0001) ∧
      FragmentOf samplePayload sampleDatagram (samplePacket 0 16 0x2000) ∧
      ∃ delivered, (ip4Reassemble (runTable (fun _ => []) [samplePacket 8 24 0x0001])
          (samplePacket 0 16 0x2000)).2 = some delivered ∧
        delivered.nbuf.bytes = samplePayload.drop 8 := by
  refine ⟨sample_fragmentOf (by decide) (by decide) (by decide),
    sample_fragmentOf (by decide) (by decide) (by decide), _, rfl, ?_⟩
  decide

end MuBasecore.Ip4Runs
