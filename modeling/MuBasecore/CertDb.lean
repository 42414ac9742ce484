import MuBasecore.EfiTypes
import MuBasecore.VariableFormat

/-!
`CleanCertsFromDb`: certificates whose variable is gone are taken out of "certdb". A
well-formed "certdb" is the encoding of the list of its nodes, on which `FindCertsFromDb`
and `DeleteCertsFromDb` act node by node.
-/

namespace MuBasecore.CertDb

open EfiTypes ByteMemory SlotBuffer VariableFormat List

/-- An `AUTH_CERT_DB_DATA` node. The name is stored without its terminator. -/
structure CertNode where
  vendorGuid : Guid
  name : List (BitVec 16)
  certData : List (BitVec 8)
  noNul : 0 ∉ name

/-- The terminated copy of the name. -/
def CertNode.variableName (node : CertNode) : List (BitVec 16) := node.name ++ [0]

def strLen (string : List (BitVec 16)) : Nat :=
  (string.takeWhile (· ≠ 0)).length

/-- The place of the first node of a variable. -/
def findCertsFromDb (variableName : List (BitVec 16)) (guid : Guid) (data : List CertNode) :
    Option Nat :=
  data.findIdx? fun node => node.vendorGuid = guid ∧
    node.name.length = strLen variableName ∧ node.name = variableName.take node.name.length

/-- The call for a non-volatile variable, so on "certdb". The service that writes the new
content back returns `update`. -/
def deleteCertsFromDb (variableName : List (BitVec 16)) (guid : Guid) (update : EfiStatus)
    (data : List CertNode) : EfiStatus × List CertNode :=
  if data.isEmpty then (.success, data)
  else
    match findCertsFromDb variableName guid data with
    | none => (.notFound, data)
    | some place => (update, if update.isError then data else data.eraseIdx place)

section Encoding

def guidBytes (guid : Guid) : List Byte :=
  (range 16).map fun i => guid.extractLsb' (8 * i) 8

def nameBytes (name : List (BitVec 16)) : List Byte :=
  name.flatMap fun c => bytesU16 c.toNat

def CertNode.size (node : CertNode) : Nat :=
  28 + node.certData.length + 2 * node.name.length

def CertNode.bytes (node : CertNode) : List Byte :=
  guidBytes node.vendorGuid ++ (bytesU32 node.size ++ (bytesU32 node.name.length ++
    (bytesU32 node.certData.length ++ (nameBytes node.name ++ node.certData))))

/-- The content of "certdb": `CertDbListSize` and the nodes. -/
def certDbBytes (data : List CertNode) : List Byte :=
  bytesU32 (4 + (data.flatMap CertNode.bytes).length) ++ data.flatMap CertNode.bytes

/-- The walk of `FindCertsFromDb` from an offset on: the offset and the size of the node. -/
def findNode (variableName : List (BitVec 16)) (guid : Guid) (m : Memory) (dataSize : Nat) :
    Nat → Nat → Except EfiStatus (Nat × Nat)
  | 0, _ => .error .notFound
  | fuel + 1, offset =>
    if offset < dataSize then
      let nodeSize := readU32 m (offset + 16)
      if slotRange m offset 16 = guidBytes guid then
        let nameSize := readU32 m (offset + 20)
        let certSize := readU32 m (offset + 24)
        if nodeSize ≠ 28 + certSize + 2 * nameSize then .error .invalidParameter
        else if nameSize = strLen variableName ∧
            slotRange m (offset + 28) (2 * nameSize) = nameBytes (variableName.take nameSize) then
          .ok (offset, nodeSize)
        else
          findNode variableName guid m dataSize fuel
            ((offset + 28 + 2 * nameSize + certSize) % 2 ^ 32)
      else findNode variableName guid m dataSize fuel ((offset + nodeSize) % 2 ^ 32)
    else .error .notFound

/-- `DeleteCertsFromDb` on the content of "certdb". -/
def deleteNode (variableName : List (BitVec 16)) (guid : Guid) (update : EfiStatus)
    (data : List Byte) : EfiStatus × List Byte :=
  let m : Memory := fun i => data.getD i 0
  if data.length = 4 then (.success, data)
  else if data.length < 4 ∨ readU32 m 0 ≠ data.length % 2 ^ 32 then (.invalidParameter, data)
  else
    match findNode variableName guid m data.length data.length 4 with
    | .error status => (status, data)
    | .ok (offset, size) =>
      if data.length < offset + size then (.notFound, data)
      else (update, if update.isError then data
        else bytesU32 (data.length - size) ++ (data.take offset).drop 4 ++
          data.drop (offset + size))

theorem guidBytes_inj {guid guid' : Guid} : guidBytes guid = guidBytes guid' ↔ guid = guid' := by
  refine ⟨fun h => BitVec.eq_of_getLsbD_eq fun k hk => ?_, congrArg guidBytes⟩
  have hbyte := map_inj_left.1 h (k / 8) (mem_range.2 (by omega))
  have hbit := congrArg (·.getLsbD (k % 8)) hbyte
  simpa [Nat.mod_lt, Nat.div_add_mod] using hbit

theorem nameBytes_inj {name name' : List (BitVec 16)} :
    nameBytes name = nameBytes name' ↔ name = name' := by
  refine ⟨fun h => ?_, congrArg nameBytes⟩
  induction name generalizing name' with
  | nil => cases name' <;> simp_all [nameBytes, bytesU16]
  | cons c name ih =>
    cases name' with
    | nil => simp [nameBytes, bytesU16] at h
    | cons c' name' =>
      simp only [nameBytes, flatMap_cons, bytesU16, cons_append, nil_append, cons.injEq] at h
      obtain ⟨hlow, hhigh, hrest⟩ := h
      rw [ih hrest]
      congr 1
      apply BitVec.eq_of_toNat_eq
      have hlow := congrArg BitVec.toNat hlow
      have hhigh := congrArg BitVec.toNat hhigh
      simp only [BitVec.toNat_ofNat] at hlow hhigh
      omega

theorem length_nameBytes (name : List (BitVec 16)) : (nameBytes name).length = 2 * name.length := by
  simp [nameBytes, bytesU16, Nat.mul_comm]

@[simp] theorem length_guidBytes (guid : Guid) : (guidBytes guid).length = 16 := by
  simp [guidBytes]

@[simp] theorem length_bytesU32 (n : Nat) : (bytesU32 n).length = 4 :=
  rfl

@[simp] theorem length_bytes (node : CertNode) : node.bytes.length = node.size := by
  simp only [CertNode.bytes, length_append, length_guidBytes, length_bytesU32, length_nameBytes,
    CertNode.size]
  omega

/-- The walk comes to the first node of the variable, past the nodes in front of it. -/
theorem findNode_eq (variableName : List (BitVec 16)) (guid : Guid) {m : Memory}
    {dataSize fuel offset : Nat} {nodes : List CertNode} (hlt : dataSize < 2 ^ 32)
    (hm : slotRange m offset (nodes.flatMap CertNode.bytes).length = nodes.flatMap CertNode.bytes)
    (hend : offset + (nodes.flatMap CertNode.bytes).length = dataSize)
    (hfuel : (nodes.flatMap CertNode.bytes).length < fuel) :
    findCertsFromDb variableName guid nodes = none ∧
        findNode variableName guid m dataSize fuel offset = .error .notFound ∨
      ∃ front node back, nodes = front ++ node :: back ∧
        findCertsFromDb variableName guid nodes = some front.length ∧
        findNode variableName guid m dataSize fuel offset =
          .ok (offset + (front.flatMap CertNode.bytes).length, node.size) := by
  induction nodes generalizing offset fuel with
  | nil =>
    obtain ⟨fuel, rfl⟩ := Nat.exists_eq_succ_of_ne_zero (Nat.ne_of_gt hfuel)
    refine .inl ⟨rfl, ?_⟩
    rw [findNode, if_neg (by simpa using hend.ge)]
  | cons node nodes ih =>
    obtain ⟨fuel, rfl⟩ := Nat.exists_eq_succ_of_ne_zero (show fuel ≠ 0 by omega)
    rw [flatMap_cons] at hm hend hfuel
    rw [length_append, length_bytes] at hend hfuel
    obtain ⟨hnode, hrest⟩ := slotRange_append hm
    rw [length_bytes] at hrest
    obtain ⟨hguid, hnode⟩ := slotRange_append hnode
    obtain ⟨hsize, hnode⟩ := slotRange_append hnode
    obtain ⟨hnameSize, hnode⟩ := slotRange_append hnode
    obtain ⟨hcertSize, hnode⟩ := slotRange_append hnode
    have hname := (slotRange_append hnode).1
    have hpos : 28 + node.certData.length + 2 * node.name.length = node.size := rfl
    have hrun := ih hrest (by omega) (show _ < fuel by omega)
    simp only [length_guidBytes, length_bytesU32, length_nameBytes, Nat.add_assoc,
      Nat.reduceAdd] at hguid hsize hnameSize hcertSize hname
    have hstep : findNode variableName guid m dataSize (fuel + 1) offset =
        if node.vendorGuid = guid ∧ node.name.length = strLen variableName ∧
            node.name = variableName.take node.name.length then .ok (offset, node.size)
        else findNode variableName guid m dataSize fuel (offset + node.size) := by
      rw [findNode, if_pos (by omega), readU32_bytesU32 (by omega) hsize,
        readU32_bytesU32 (by omega) hnameSize, readU32_bytesU32 (by omega) hcertSize]
      simp only [hname, nameBytes_inj, hguid, guidBytes_inj]
      rw [if_neg (not_not.2 hpos.symm), show offset + 28 + 2 * node.name.length +
        node.certData.length = offset + node.size by omega, Nat.mod_eq_of_lt (by omega)]
      by_cases hsame : node.vendorGuid = guid <;> simp [hsame]
    rw [hstep, findCertsFromDb, findIdx?_cons]
    by_cases hfound : node.vendorGuid = guid ∧ node.name.length = strLen variableName ∧
        node.name = variableName.take node.name.length
    · rw [if_pos hfound, if_pos (decide_eq_true hfound)]
      exact .inr ⟨[], node, nodes, rfl, rfl, rfl⟩
    · rw [if_neg hfound, if_neg (by simpa using hfound)]
      rcases hrun with ⟨hnone, hrun⟩ | ⟨front, found, back, rfl, hfind, hrun⟩
      · exact .inl ⟨by rw [← findCertsFromDb, hnone]; rfl, hrun⟩
      · refine .inr ⟨node :: front, found, back, rfl, by rw [← findCertsFromDb, hfind]; rfl, ?_⟩
        rw [hrun, flatMap_cons, length_append, length_bytes, Nat.add_assoc]

theorem slotRange_getD (l : List Byte) : slotRange (fun i => l.getD i 0) 0 l.length = l := by
  apply ext_getElem (length_slotRange _ _ _)
  intro i _ hi
  simp [slotRange, hi]

/-- On the encoding of nodes that a 32-bit size can count, the deletion is the one of a node. -/
theorem deleteNode_certDbBytes (variableName : List (BitVec 16)) (guid : Guid)
    (update : EfiStatus) {data : List CertNode} (hlt : (certDbBytes data).length < 2 ^ 32) :
    deleteNode variableName guid update (certDbBytes data) =
      Prod.map id certDbBytes (deleteCertsFromDb variableName guid update data) := by
  have hlen : (certDbBytes data).length = 4 + (data.flatMap CertNode.bytes).length := length_append
  obtain ⟨hhead, hnodes⟩ := slotRange_append (slotRange_getD (certDbBytes data))
  have hfind := findNode_eq variableName guid hlt hnodes (by simp [hlen])
    (show _ < (certDbBytes data).length by omega)
  have hread : readU32 (fun i => (certDbBytes data).getD i 0) 0 = (certDbBytes data).length := by
    rw [hlen]
    exact readU32_bytesU32 (by omega) hhead
  rcases data with - | ⟨first, rest⟩
  · rfl
  have hfour : (certDbBytes (first :: rest)).length ≠ 4 := by
    rw [hlen, flatMap_cons, length_append, length_bytes, CertNode.size]
    omega
  rw [deleteNode, if_neg hfour, if_neg (by rw [hread, Nat.mod_eq_of_lt hlt]; simp [hlen]),
    deleteCertsFromDb, if_neg (by simp)]
  simp only [length_bytesU32, Nat.zero_add] at hfind
  rcases hfind with ⟨hnone, hfind⟩ | ⟨front, node, back, heq, hsome, hfind⟩
  · rw [hfind, hnone]
    rfl
  rw [hfind, hsome]
  generalize first :: rest = data at *
  subst heq
  simp only [flatMap_append, flatMap_cons, length_append, length_bytes] at hlen
  have hbytes : certDbBytes (front ++ node :: back) =
      bytesU32 (certDbBytes (front ++ node :: back)).length ++
        (front.flatMap CertNode.bytes ++ (node.bytes ++ back.flatMap CertNode.bytes)) := by
    rw [certDbBytes, length_append]
    simp
  have hfront : ((certDbBytes (front ++ node :: back)).take
      (4 + (front.flatMap CertNode.bytes).length)).drop 4 = front.flatMap CertNode.bytes := by
    rw [hbytes]
    simp [take_append]
  have hback : (certDbBytes (front ++ node :: back)).drop
      (4 + (front.flatMap CertNode.bytes).length + node.size) = back.flatMap CertNode.bytes := by
    rw [hbytes, ← append_assoc, ← append_assoc]
    exact drop_left' (by simp only [length_append, length_bytesU32, length_bytes])
  have hsize : (certDbBytes (front ++ node :: back)).length - node.size =
      4 + ((front ++ back).flatMap CertNode.bytes).length := by
    rw [hlen, flatMap_append, length_append]
    omega
  simp only
  rw [if_neg (by omega), hfront, hback, hsize, eraseIdx_append_of_length_le le_rfl]
  cases update.isError with
  | true => rfl
  | false => simp [certDbBytes]

end Encoding

-- the attributes of the variables that are there, and what the update service returns in
-- each round of the outer loop
variable (store : List (BitVec 16) → Guid → Option Attributes) (update : Nat → EfiStatus)

def CertNode.isStale (node : CertNode) : Bool :=
  match store node.variableName node.vendorGuid with
  | none => true
  | some attributes => !attributes.has efiVariableTimeBasedAuthenticatedWriteAccess

/-- The outer loop from a round on. `CertCleaned` is set whatever the deletion returns. -/
def cleanRounds : Nat → Nat → List CertNode → Option (EfiStatus × List CertNode)
  | 0, _, _ => none
  | fuel + 1, round, data =>
    match data.find? (·.isStale store) with
    | none => some (.success, data)
    | some node =>
      cleanRounds fuel (round + 1)
        (deleteCertsFromDb node.variableName node.vendorGuid (update round) data).2

def cleanCertsFromDb (fuel : Nat) (data : List CertNode) : Option (EfiStatus × List CertNode) :=
  cleanRounds store update fuel 0 data

def live (data : List CertNode) : List CertNode :=
  data.filter (!·.isStale store)

def staleCount (data : List CertNode) : Nat :=
  data.countP (·.isStale store)

/-- How many of `count` updates from a round on succeed. -/
def updates (round count : Nat) : Nat :=
  (range' round count).countP (update · = .success)

variable {store update} {data : List CertNode} {node : CertNode} {round : Nat}

theorem findCertsFromDb_name (guid : Guid) :
    findCertsFromDb node.variableName guid data =
      data.findIdx? fun other => other.vendorGuid = guid ∧ other.name = node.name := by
  have hlen : strLen node.variableName = node.name.length := by
    have hall : ∀ c ∈ node.name, decide (c ≠ 0) = true := by
      rintro c hc
      exact decide_eq_true fun h => node.noNul (h ▸ hc)
    rw [strLen, CertNode.variableName, takeWhile_append_of_pos hall]
    simp
  rw [findCertsFromDb, hlen]
  congr 1
  funext other
  rw [decide_eq_decide]
  refine and_congr_right fun _ => ⟨?_, ?_⟩
  · rintro ⟨hlen, hname⟩
    simpa [CertNode.variableName, hlen] using hname
  · rintro hname
    simp [CertNode.variableName, hname]

/-- The first stale node is also the first node of its variable. -/
theorem findCertsFromDb_stale (h : data.find? (·.isStale store) = some node) :
    ∃ place, findCertsFromDb node.variableName node.vendorGuid data = some place ∧
      staleCount store (data.eraseIdx place) + 1 = staleCount store data ∧
      live store (data.eraseIdx place) = live store data := by
  simp only [findCertsFromDb_name, staleCount, live]
  induction data with
  | nil => simp at h
  | cons first rest ih =>
    cases hfirst : first.isStale store with
    | true =>
      obtain rfl : first = node := by simpa [hfirst] using h
      exact ⟨0, by simp [findIdx?_cons, hfirst]⟩
    | false =>
      replace h : rest.find? (·.isStale store) = some node := by simpa [hfirst] using h
      have hother : ¬ (first.vendorGuid = node.vendorGuid ∧ first.name = node.name) := by
        rintro ⟨hguid, hname⟩
        have hstale := find?_some h
        rw [CertNode.isStale, CertNode.variableName, ← hguid, ← hname, ← CertNode.variableName,
          ← CertNode.isStale, hfirst] at hstale
        cases hstale
      obtain ⟨place, hplace⟩ := ih h
      exact ⟨place + 1, by simpa [findIdx?_cons, hother, hfirst] using hplace⟩

/-- A round keeps the live nodes, and takes out a stale one if its update succeeds. -/
theorem cleanRounds_stale (update : Nat → EfiStatus) (round : Nat)
    (h : data.find? (·.isStale store) = some node) :
    ∃ next, (∀ fuel, cleanRounds store update (fuel + 1) round data =
        cleanRounds store update fuel (round + 1) next) ∧
      staleCount store next + updates update round 1 = staleCount store data ∧
      live store next = live store data := by
  obtain ⟨place, hfind, hcount, hlive⟩ := findCertsFromDb_stale h
  refine ⟨_, fun fuel => by rw [cleanRounds, h], ?_⟩
  have hne : data.isEmpty = false := by
    cases data <;> simp_all
  by_cases hu : update round = .success <;>
    simp [deleteCertsFromDb, hne, hfind, EfiStatus.isError, hu, updates, hcount, hlive]

theorem updates_succ (count : Nat) :
    updates update round (count + 1) =
      updates update round 1 + updates update (round + 1) count := by
  simp [updates, range'_succ, countP_cons, Nat.add_comm]

theorem staleCount_eq_zero_iff :
    staleCount store data = 0 ↔ data.find? (·.isStale store) = none := by
  simp [staleCount, countP_eq_zero, find?_eq_none]

theorem cleanRounds_some {fuel : Nat} {result : EfiStatus × List CertNode}
    (h : cleanRounds store update fuel round data = some result) :
    ∃ count, staleCount store data ≤ updates update round count := by
  induction fuel generalizing round data with
  | zero => simp [cleanRounds] at h
  | succ fuel ih =>
    cases hfind : data.find? (·.isStale store) with
    | none => exact ⟨0, (staleCount_eq_zero_iff.2 hfind).le⟩
    | some node =>
      obtain ⟨next, hrun, hcount, -⟩ := cleanRounds_stale update round hfind
      obtain ⟨count, hle⟩ := ih (hrun fuel ▸ h)
      refine ⟨count + 1, ?_⟩
      rw [updates_succ]
      omega

theorem cleanRounds_none {fuel : Nat} (h : data.find? (·.isStale store) = none) :
    cleanRounds store update (fuel + 1) round data =
      some (.success, live store data) := by
  have hlive : live store data = data := by
    simpa [live, find?_eq_none] using h
  rw [cleanRounds, h, hlive]

theorem cleanRounds_live {count : Nat}
    (h : staleCount store data ≤ updates update round count) :
    cleanRounds store update (count + 1) round data =
      some (.success, live store data) := by
  induction count generalizing round data with
  | zero => exact cleanRounds_none (staleCount_eq_zero_iff.1 (Nat.le_zero.1 h))
  | succ count ih =>
    cases hfind : data.find? (·.isStale store) with
    | none => exact cleanRounds_none hfind
    | some node =>
      obtain ⟨next, hrun, hcount, hlive⟩ := cleanRounds_stale update round hfind
      rw [updates_succ] at h
      rw [hrun, ih (by omega), hlive]

/-- The clean-up comes to an end exactly if the update service succeeds as often as there
are stale nodes, and it then leaves the other nodes in their order. -/
theorem cleanCertsFromDb_complete_iff (data : List CertNode) :
    (∃ fuel result, cleanCertsFromDb store update fuel data = some result ∧
      ((∀ n, update n = .success) → result.2 = live store data)) ↔
      ∃ count, staleCount store data ≤ updates update 0 count := by
  constructor
  · rintro ⟨fuel, result, hrun, -⟩
    exact cleanRounds_some hrun
  · rintro ⟨count, h⟩
    exact ⟨count + 1, _, cleanRounds_live h, fun _ => rfl⟩

/-- A node without its variable comes up in each round if the update service always fails. -/
theorem failingUpdate_endless :
    ¬ ∃ fuel result, cleanCertsFromDb (fun _ _ => none) (fun _ => .deviceError) fuel
      [⟨0, [65], [], by decide⟩] = some result := by
  rintro ⟨fuel, result, h⟩
  obtain ⟨count, hle⟩ := cleanRounds_some h
  simp [updates, staleCount, CertNode.isStale] at hle

/-- Whichever updates fail, a clean-up that returns has taken out the stale nodes only. -/
theorem cleanCertsFromDb_none_or_live (fuel : Nat) (data : List CertNode) :
    cleanCertsFromDb store update fuel data = none ∨
      cleanCertsFromDb store update fuel data = some (.success, live store data) := by
  unfold cleanCertsFromDb
  generalize 0 = round
  induction fuel generalizing round data with
  | zero => exact .inl rfl
  | succ fuel ih =>
    cases hfind : data.find? (·.isStale store) with
    | none => exact .inr (cleanRounds_none hfind)
    | some node =>
      obtain ⟨next, hrun, -, hlive⟩ := cleanRounds_stale update round hfind
      rw [hrun, ← hlive]
      exact ih next (round + 1)

end MuBasecore.CertDb
