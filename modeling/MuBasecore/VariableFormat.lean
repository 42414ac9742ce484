import MuBasecore.ByteMemory
import MuBasecore.RecordLog

/-!
The variable store as bytes: the variable headers, the sizes that are read from them,
and the walk from one header to the next. Addresses are offsets from the base of the
store, which is aligned for headers.
-/

namespace MuBasecore.VariableFormat

open ByteMemory RecordLog SlotBuffer Function List

abbrev Attributes := BitVec 32

def efiVariableNonVolatile : Attributes := 0x1
def efiVariableBootserviceAccess : Attributes := 0x2
def efiVariableRuntimeAccess : Attributes := 0x4
def efiVariableHardwareErrorRecord : Attributes := 0x8
def efiVariableAuthenticatedWriteAccess : Attributes := 0x10
def efiVariableTimeBasedAuthenticatedWriteAccess : Attributes := 0x20
def efiVariableAppendWrite : Attributes := 0x40

def Attributes.has (attributes bit : Attributes) : Bool :=
  attributes &&& bit != 0

def variableData : Nat := 0x55AA

def varInDeletedTransition : Byte := 0xfe
def varDeleted : Byte := 0xfd
def varAdded : Byte := 0x3f

/-- The state of a variable that is being replaced, `VAR_IN_DELETED_TRANSITION & VAR_ADDED`. -/
def varInDeleted : Byte := varInDeletedTransition &&& varAdded

def headerAlign (n : Nat) : Nat :=
  (n + 3) / 4 * 4

def sizeOfVariableStoreHeader : Nat := 28

def getStartPointer : Nat := headerAlign sizeOfVariableStoreHeader

def getEndPointer (size : Nat) : Nat := headerAlign size

def getVariableHeaderSize (auth : Bool) : Nat :=
  if auth then 60 else 32

-- `NameSize` stands here in the header, `DataSize` and `VendorGuid` after it; in the
-- authenticated format the monotonic count, time stamp and key index stand before it
def nameSizeOffset (auth : Bool) : Nat :=
  if auth then 36 else 8

abbrev GuidBytes := Fin 16 → Byte

section Header

variable (auth : Bool) (m : Memory) (a : Nat)

def startId : Nat := readU16 m a

def variableState : Byte := m (a + 2)

def variableAttributes : Attributes := .ofNat 32 (readU32 m (a + 4))

def vendorGuid : GuidBytes := fun i => m (a + nameSizeOffset auth + 8 + i)

def sizesInvalid : Bool :=
  variableState m a == 0xff ||
    readU32 m (a + nameSizeOffset auth + 4) == 0xffffffff ||
    readU32 m (a + nameSizeOffset auth) == 0xffffffff ||
    readU32 m (a + 4) == 0xffffffff

def nameSizeOfVariable : Nat :=
  if sizesInvalid auth m a then 0 else readU32 m (a + nameSizeOffset auth)

def dataSizeOfVariable : Nat :=
  if sizesInvalid auth m a then 0 else readU32 m (a + nameSizeOffset auth + 4)

def getVariableNamePtr : Nat := a + getVariableHeaderSize auth

def getVariableDataPtr : Nat := getVariableNamePtr auth a + nameSizeOfVariable auth m a

def getNextVariablePtr : Nat :=
  headerAlign (getVariableDataPtr auth m a + dataSizeOfVariable auth m a)

end Header

variable {auth : Bool} {m m' : Memory} {a a' : Nat}

structure VariableRecord where
  state : Byte
  attributes : Attributes
  guid : GuidBytes
  name : List Byte
  data : List Byte
  deriving DecidableEq

def VariableRecord.added (r : VariableRecord) : Bool := r.state == varAdded

def VariableRecord.inDeleted (r : VariableRecord) : Bool := r.state == varInDeleted

def VariableRecord.live (r : VariableRecord) : Bool := r.added || r.inDeleted

theorem VariableRecord.not_inDeleted {r : VariableRecord} (h : r.added) : ¬ r.inDeleted := by
  rw [VariableRecord.added, beq_iff_eq] at h
  rw [VariableRecord.inDeleted, h]
  decide

def variableRecord (auth : Bool) (m : Memory) (a : Nat) : VariableRecord where
  state := variableState m a
  attributes := variableAttributes m a
  guid := vendorGuid auth m a
  name := slotRange m (getVariableNamePtr auth a) (nameSizeOfVariable auth m a)
  data := slotRange m (getVariableDataPtr auth m a) (dataSizeOfVariable auth m a)

theorem le_headerAlign (n : Nat) : n ≤ headerAlign n := by
  rw [headerAlign]
  omega

theorem dvd_headerAlign (n : Nat) : 4 ∣ headerAlign n :=
  dvd_mul_left 4 _

theorem headerAlign_add (h : 4 ∣ a) (n : Nat) : headerAlign (a + n) = a + headerAlign n := by
  rw [headerAlign, headerAlign]
  omega

theorem headerAlign_le {n k : Nat} (h : n ≤ k) (hk : 4 ∣ k) : headerAlign n ≤ k := by
  rw [headerAlign]
  omega

@[simp] theorem getStartPointer_eq : getStartPointer = 28 := rfl

theorem headerSize_eq (auth : Bool) : getVariableHeaderSize auth = nameSizeOffset auth + 24 := by
  cases auth <;> rfl

theorem le_nameSizeOffset (auth : Bool) : 8 ≤ nameSizeOffset auth := by
  cases auth <;> decide

section Copies

variable (h : ∀ i < getVariableHeaderSize auth, m' (a' + i) = m (a + i))
include h

theorem startId_copy : startId m' a' = startId m a := by
  rw [headerSize_eq] at h
  exact readU16_congr fun i hi => h i (by omega)

theorem readU32_copy {k : Nat}
    (hk : k + 4 ≤ getVariableHeaderSize auth) : readU32 m' (a' + k) = readU32 m (a + k) := by
  apply readU32_congr
  intro i hi
  rw [add_assoc, add_assoc]
  exact h (k + i) (by omega)

theorem variableState_copy : variableState m' a' = variableState m a := by
  rw [headerSize_eq] at h
  exact h 2 (by omega)

theorem sizesInvalid_copy : sizesInvalid auth m' a' = sizesInvalid auth m a := by
  have hsize := headerSize_eq auth
  have hoff := le_nameSizeOffset auth
  rw [sizesInvalid, sizesInvalid, variableState_copy h, add_assoc, add_assoc,
    readU32_copy h (by omega), readU32_copy h (by omega), readU32_copy h (by omega)]

theorem nameSize_copy : nameSizeOfVariable auth m' a' = nameSizeOfVariable auth m a := by
  have hsize := headerSize_eq auth
  rw [nameSizeOfVariable, nameSizeOfVariable, sizesInvalid_copy h, readU32_copy h (by omega)]

theorem dataSize_copy : dataSizeOfVariable auth m' a' = dataSizeOfVariable auth m a := by
  have hsize := headerSize_eq auth
  rw [dataSizeOfVariable, dataSizeOfVariable, sizesInvalid_copy h, add_assoc,
    add_assoc, readU32_copy h (by omega)]

end Copies

def variableSize (auth : Bool) (m : Memory) (a : Nat) : Nat :=
  headerAlign (getVariableHeaderSize auth + nameSizeOfVariable auth m a +
    dataSizeOfVariable auth m a)

theorem nextPtr_eq (h : 4 ∣ a) : getNextVariablePtr auth m a = a + variableSize auth m a := by
  rw [getNextVariablePtr, getVariableDataPtr, getVariableNamePtr, add_assoc a,
    add_assoc a, headerAlign_add h, variableSize]

theorem nextPtr_sub (h : 4 ∣ a) : getNextVariablePtr auth m a - a = variableSize auth m a := by
  rw [nextPtr_eq h, Nat.add_sub_cancel_left]

theorem le_getNextVariablePtr (auth : Bool) (m : Memory) (a : Nat) :
    a + getVariableHeaderSize auth + nameSizeOfVariable auth m a +
      dataSizeOfVariable auth m a ≤ getNextVariablePtr auth m a :=
  le_headerAlign _

theorem getVariableHeaderSize_pos (auth : Bool) : 0 < getVariableHeaderSize auth := by
  cases auth <;> decide

/-- The step from one variable header to the next, `IsValidVariableHeader` and
`GetNextVariablePtr` together. -/
def storeFormat (auth : Bool) : Format Byte where
  unit := 4
  length m a :=
    if startId m a = variableData then some (getNextVariablePtr auth m a - a) else none
  length_pos {m a n} h := by
    split at h
    · cases h
      have hle := le_getNextVariablePtr auth m a
      have hpos := getVariableHeaderSize_pos auth
      omega
    · cases h
  dvd_length {m a n} ha h := by
    split at h
    · cases h
      exact Nat.dvd_sub (dvd_headerAlign _) ha
    · cases h
  length_copy {m m' a a' n} ha ha' h hcopy := by
    split at h
    case isTrue hst =>
      cases h
      have hhead : ∀ i < getVariableHeaderSize auth, m' (a' + i) = m (a + i) := by
        intro i hi
        have hle := le_getNextVariablePtr auth m a
        exact hcopy i (by omega)
      rw [if_pos (by rw [startId_copy hhead, hst]), nextPtr_eq ha,
        nextPtr_eq ha', variableSize, variableSize, nameSize_copy hhead,
        dataSize_copy hhead, Nat.add_sub_cancel_left, Nat.add_sub_cancel_left]
    case isFalse => cases h

def walkStore (auth : Bool) (m : Memory) (size : Nat) : List Nat × Nat :=
  walk (storeFormat auth) m (getEndPointer size) (getEndPointer size) getStartPointer

def variableOffsets (auth : Bool) (m : Memory) (size : Nat) : List Nat :=
  (walkStore auth m size).1

/-- `LastVariableOffset` as the walk over the store finds it. -/
def lastVariableOffset (auth : Bool) (m : Memory) (size : Nat) : Nat :=
  (walkStore auth m size).2

def storeRecords (auth : Bool) (m : Memory) (size : Nat) : List VariableRecord :=
  (variableOffsets auth m size).map (variableRecord auth m)

abbrev StoreLog (auth : Bool) (m : Memory) (size : Nat) (l : List Nat) (last : Nat) : Prop :=
  Log (storeFormat auth) m (getEndPointer size) getStartPointer l last

theorem storeLog_walk (auth : Bool) (m : Memory) (size : Nat) :
    StoreLog auth m size (variableOffsets auth m size) (lastVariableOffset auth m size) :=
  log_walk _ (by omega)

theorem StoreLog.walkStore_eq {size : Nat} {l : List Nat}
    {last : Nat} (h : StoreLog auth m size l last) : walkStore auth m size = (l, last) :=
  h.walk_eq (by omega)

theorem lt_of_lt_getEndPointer {size : Nat} (h : 4 ∣ a) (hstop : a < getEndPointer size) :
    a < size := by
  rw [getEndPointer, headerAlign] at hstop
  omega

theorem dvd_startPtr (auth : Bool) : (storeFormat auth).unit ∣ getStartPointer :=
  dvd_headerAlign _

theorem format_length (h : 4 ∣ a) (hst : startId m a = variableData) :
    (storeFormat auth).length m a = some (variableSize auth m a) := by
  change (if _ then some _ else none) = _
  rw [if_pos hst, nextPtr_sub h]

theorem format_length_iff {n : Nat} (h : 4 ∣ a) :
    (storeFormat auth).length m a = some n ↔
      startId m a = variableData ∧ n = variableSize auth m a := by
  constructor
  · intro hn
    by_cases hst : startId m a = variableData
    · rw [format_length h hst] at hn
      cases hn
      exact ⟨hst, rfl⟩
    · change (if _ then some _ else none) = _ at hn
      rw [if_neg hst] at hn
      cases hn
  · rintro ⟨hst, rfl⟩
    exact format_length h hst

theorem le_variableSize (auth : Bool) (m : Memory) (a : Nat) :
    getVariableHeaderSize auth + nameSizeOfVariable auth m a + dataSizeOfVariable auth m a ≤
      variableSize auth m a :=
  le_headerAlign _

theorem record_copy (h : ∀ i < variableSize auth m a, m' (a' + i) = m (a + i)) :
    variableRecord auth m' a' = variableRecord auth m a := by
  have hle := le_variableSize auth m a
  have hhead : ∀ i < getVariableHeaderSize auth, m' (a' + i) = m (a + i) :=
    fun i hi => h i (by omega)
  have hsize := headerSize_eq auth
  have hoff := le_nameSizeOffset auth
  have hattr : variableAttributes m' a' = variableAttributes m a := by
    rw [variableAttributes, variableAttributes, readU32_copy hhead (by omega)]
  have hguid : vendorGuid auth m' a' = vendorGuid auth m a := by
    funext i
    have hi := i.isLt
    rw [vendorGuid, vendorGuid, add_assoc, add_assoc, add_assoc, add_assoc]
    exact hhead _ (by omega)
  have hrng : ∀ b n, b + n ≤ variableSize auth m a →
      slotRange m' (a' + b) n = slotRange m (a + b) n := by
    intro b n hb
    apply map_congr_left
    intro i hi
    rw [mem_range] at hi
    rw [add_assoc, add_assoc]
    exact h (b + i) (by omega)
  rw [variableRecord, variableRecord, variableState_copy hhead, hattr, hguid,
    nameSize_copy hhead, dataSize_copy hhead, getVariableDataPtr,
    getVariableDataPtr, nameSize_copy hhead, getVariableNamePtr, getVariableNamePtr,
    hrng _ _ (by omega), add_assoc a', add_assoc a, hrng _ _ (by omega)]

def setState (m : Memory) (a : Nat) (s : Byte) : Memory :=
  Function.update m (a + 2) s

theorem setState_of_ne {i : Nat} (s : Byte) (h : i ≠ a + 2) :
    setState m a s i = m i := by
  rw [setState, update_of_ne h]

theorem startId_setState (s : Byte) : startId (setState m a s) a = startId m a :=
  readU16_congr fun i hi => setState_of_ne s (by omega)

theorem readU32_setState (m : Memory) {b : Nat} (s : Byte) (h : a + 2 < b) :
    readU32 (setState m a s) b = readU32 m b :=
  readU32_congr fun i hi => setState_of_ne s (by omega)

section SetState

variable {s : Byte} (hs : s ≠ 0xff) (hold : variableState m a ≠ 0xff)
include hs hold

theorem sizesInvalid_setState : sizesInvalid auth (setState m a s) a = sizesInvalid auth m a := by
  have hoff := le_nameSizeOffset auth
  have hnew : variableState (setState m a s) a = s := update_self _ _ _
  rw [sizesInvalid, sizesInvalid, hnew, beq_eq_false_iff_ne.2 hs,
    beq_eq_false_iff_ne.2 hold, readU32_setState m s (by omega),
    readU32_setState m s (by omega), readU32_setState m s (by omega)]

theorem nameSize_setState :
    nameSizeOfVariable auth (setState m a s) a = nameSizeOfVariable auth m a := by
  have hoff := le_nameSizeOffset auth
  rw [nameSizeOfVariable, nameSizeOfVariable, sizesInvalid_setState hs hold,
    readU32_setState m s (by omega)]

theorem dataSize_setState :
    dataSizeOfVariable auth (setState m a s) a = dataSizeOfVariable auth m a := by
  have hoff := le_nameSizeOffset auth
  rw [dataSizeOfVariable, dataSizeOfVariable, sizesInvalid_setState hs hold,
    readU32_setState m s (by omega)]

theorem variableSize_setState : variableSize auth (setState m a s) a = variableSize auth m a := by
  rw [variableSize, variableSize, nameSize_setState hs hold, dataSize_setState hs hold]

theorem record_setState :
    variableRecord auth (setState m a s) a = { variableRecord auth m a with state := s } := by
  have hsize := headerSize_eq auth
  have hoff := le_nameSizeOffset auth
  have hrng : ∀ b n, a + 2 < b → slotRange (setState m a s) b n = slotRange m b n := by
    intro b n hb
    apply slotRange_congr
    intro j hj _
    exact setState_of_ne s (by omega)
  have hguid : vendorGuid auth (setState m a s) a = vendorGuid auth m a := by
    funext i
    exact setState_of_ne s (by omega)
  have hattr : variableAttributes (setState m a s) a = variableAttributes m a := by
    rw [variableAttributes, variableAttributes, readU32_setState m s (by omega)]
  have hstt : variableState (setState m a s) a = s := update_self _ _ _
  rw [variableRecord, variableRecord, hstt, hattr, hguid, getVariableDataPtr,
    getVariableDataPtr, nameSize_setState hs hold,
    dataSize_setState hs hold, getVariableNamePtr, hrng _ _ (by omega),
    hrng _ _ (by omega)]

end SetState

theorem format_length_erased (h : m a = 0xff) : (storeFormat auth).length m a = none := by
  change (if startId m a = variableData then _ else _) = _
  apply if_neg
  rw [startId, readU16, h, variableData]
  have hbyte : (0xff : Byte).toNat = 255 := rfl
  omega

/-- What stands between the attributes and the sizes: the monotonic count, the time stamp and
the index of the public key, all zero for a variable without authentication. -/
def authFields (auth : Bool) : List Byte :=
  if auth then List.replicate 28 0 else []

def variableBytes (auth : Bool) (state : Byte) (attributes : Attributes) (guid : GuidBytes)
    (name data : List Byte) : List Byte :=
  [0xaa, 0x55, state, 0] ++ (bytesU32 attributes.toNat ++ (authFields auth ++
    (bytesU32 name.length ++ (bytesU32 data.length ++ (List.ofFn guid ++ (name ++ data))))))

def erased : Memory := fun _ => 0xff

theorem length_variableBytes (state : Byte) (attributes : Attributes)
    (guid : GuidBytes) (name data : List Byte) :
    (variableBytes auth state attributes guid name data).length =
      getVariableHeaderSize auth + name.length + data.length := by
  cases auth <;>
    simp [variableBytes, authFields, bytesU32, getVariableHeaderSize] <;> omega

section WrittenVariable

variable {state : Byte} {attributes : Attributes} {guid : GuidBytes} {name data : List Byte}

def Written (auth : Bool) (m : Memory) (a : Nat) (state : Byte) (attributes : Attributes)
    (guid : GuidBytes) (name data : List Byte) : Prop :=
  slotRange m a (variableBytes auth state attributes guid name data).length =
    variableBytes auth state attributes guid name data

structure Encodable (attributes : Attributes) (name data : List Byte) : Prop where
  attributes : attributes.toNat ≠ 0xffffffff
  name : name.length < 0xffffffff
  data : data.length < 0xffffffff

variable (h : Written auth m a state attributes guid name data)
  (henc : Encodable attributes name data)
include h henc

theorem Written.fields :
    startId m a = variableData ∧ variableState m a = state ∧ readU32 m (a + 4) = attributes.toNat ∧
      readU32 m (a + nameSizeOffset auth) = name.length ∧
      readU32 m (a + nameSizeOffset auth + 4) = data.length ∧
      slotRange m (a + nameSizeOffset auth + 8) 16 = ofFn guid ∧
      slotRange m (a + getVariableHeaderSize auth) name.length = name ∧
      slotRange m (a + getVariableHeaderSize auth + name.length) data.length = data := by
  obtain ⟨hfst, h⟩ := slotRange_append h
  obtain ⟨hattr, h⟩ := slotRange_append h
  obtain ⟨_, h⟩ := slotRange_append h
  obtain ⟨hname, h⟩ := slotRange_append h
  obtain ⟨hdata, h⟩ := slotRange_append h
  obtain ⟨hguid, h⟩ := slotRange_append h
  obtain ⟨hnames, hdatas⟩ := slotRange_append h
  have hlist : slotRange m a 4 = [m a, m (a + 1), m (a + 2), m (a + 3)] := rfl
  change slotRange m a 4 = _ at hfst
  rw [hlist] at hfst
  simp only [cons.injEq, and_true] at hfst
  obtain ⟨h0, h1, h2, _⟩ := hfst
  have hfour : ∀ n, (bytesU32 n).length = 4 := fun _ => rfl
  have hoff : nameSizeOffset auth = 8 + (authFields auth).length := by cases auth <;> rfl
  have hhead := headerSize_eq auth
  simp only [length_cons, length_nil, hfour, length_ofFn]
    at hattr hname hdata hguid hnames hdatas
  refine ⟨?_, h2, ?_, ?_, ?_, ?_, ?_, ?_⟩
  · rw [startId, readU16, h0, h1]
    rfl
  · exact readU32_bytesU32 attributes.isLt hattr
  · have hlt := henc.name
    rw [show a + nameSizeOffset auth = a + (0 + 1 + 1 + 1 + 1) + 4 + (authFields auth).length by
      omega]
    exact readU32_bytesU32 (by omega) hname
  · have hlt := henc.data
    rw [show a + nameSizeOffset auth + 4 =
      a + (0 + 1 + 1 + 1 + 1) + 4 + (authFields auth).length + 4 by omega]
    exact readU32_bytesU32 (by omega) hdata
  · rw [show a + nameSizeOffset auth + 8 =
      a + (0 + 1 + 1 + 1 + 1) + 4 + (authFields auth).length + 4 + 4 by omega]
    exact hguid
  · rw [show a + getVariableHeaderSize auth =
      a + (0 + 1 + 1 + 1 + 1) + 4 + (authFields auth).length + 4 + 4 + 16 by omega]
    exact hnames
  · rw [show a + getVariableHeaderSize auth + name.length =
      a + (0 + 1 + 1 + 1 + 1) + 4 + (authFields auth).length + 4 + 4 + 16 + name.length by omega]
    exact hdatas

theorem Written.startId_eq : startId m a = variableData :=
  (h.fields henc).1

theorem Written.sizes_eq (hstt : state ≠ 0xff) :
    nameSizeOfVariable auth m a = name.length ∧ dataSizeOfVariable auth m a = data.length := by
  obtain ⟨_, hs, hattr, hname, hdata, _⟩ := h.fields henc
  have hval : sizesInvalid auth m a = false := by
    rw [sizesInvalid, hs, hattr, hname, hdata, beq_eq_false_iff_ne.2 hstt,
      beq_eq_false_iff_ne.2 henc.attributes,
      beq_eq_false_iff_ne.2 (ne_of_lt henc.name),
      beq_eq_false_iff_ne.2 (ne_of_lt henc.data)]
    rfl
  rw [nameSizeOfVariable, dataSizeOfVariable, hval, hname, hdata]
  exact ⟨rfl, rfl⟩

theorem Written.variableSize_eq (hstt : state ≠ 0xff) :
    variableSize auth m a =
      headerAlign (variableBytes auth state attributes guid name data).length := by
  obtain ⟨hname, hdata⟩ := h.sizes_eq henc hstt
  rw [variableSize, hname, hdata, length_variableBytes]

theorem Written.variableRecord_eq (hstt : state ≠ 0xff) :
    variableRecord auth m a = ⟨state, attributes, guid, name, data⟩ := by
  obtain ⟨_, hs, hattr, _, _, hguid, hnames, hdatas⟩ := h.fields henc
  obtain ⟨hname, hdata⟩ := h.sizes_eq henc hstt
  have hguids : vendorGuid auth m a = guid := by
    funext i
    have hi := congrArg (fun l => l[(i : Nat)]?) hguid
    simp only [slotRange, List.getElem?_map, List.getElem?_range i.isLt, List.getElem?_ofFn,
      i.isLt, dif_pos, Option.map_some, Option.some.injEq] at hi
    exact hi
  have hattrs : variableAttributes m a = attributes := by
    rw [variableAttributes, hattr, BitVec.ofNat_toNat, BitVec.setWidth_eq]
  rw [variableRecord, hs, hattrs, hguids, hname, hdata, getVariableDataPtr, hname,
    getVariableNamePtr, hnames, hdatas]

end WrittenVariable

structure StoreLayout (auth : Bool) (m : Memory) (size : Nat) (l : List Nat) (last : Nat) :
    Prop where
  log : StoreLog auth m size l last
  last_le : last ≤ size
  free : ∀ i, last ≤ i → i < size → m i = 0xff

variable {x : Nat}

section Layout

variable {size last : Nat} {l : List Nat} (h : StoreLayout auth m size l last)
include h

theorem StoreLayout.storeRecords_eq : storeRecords auth m size = l.map (variableRecord auth m) := by
  rw [storeRecords, variableOffsets, h.log.walkStore_eq]

theorem StoreLayout.variableOffsets_eq : variableOffsets auth m size = l := by
  rw [variableOffsets, h.log.walkStore_eq]

theorem StoreLayout.of_mem (hx : x ∈ l) :
    4 ∣ x ∧ getStartPointer ≤ x ∧ startId m x = variableData ∧
      x + variableSize auth m x ≤ last := by
  have hdvd := h.log.dvd_of_mem (dvd_startPtr auth) hx
  obtain ⟨hle, _, n, hn, hlast⟩ := h.log.of_mem hx
  obtain ⟨hst, rfl⟩ := (format_length_iff hdvd).1 hn
  exact ⟨hdvd, hle, hst, hlast⟩

theorem StoreLayout.dvd_last : 4 ∣ last :=
  h.log.dvd (dvd_startPtr auth)

theorem StoreLayout.apart {y : Nat} (hx : x ∈ l) (hy : y ∈ l) (hxy : x ≠ y) :
    x + variableSize auth m x ≤ y ∨ y + variableSize auth m y ≤ x := by
  obtain ⟨hxdvd, _, hxstart, _⟩ := h.of_mem hx
  obtain ⟨hydvd, _, hystart, _⟩ := h.of_mem hy
  rcases h.log.apart hx hy hxy with hlt | hlt
  · exact .inl (hlt _ (format_length hxdvd hxstart))
  · exact .inr (hlt _ (format_length hydvd hystart))

theorem StoreLayout.congr (hm : ∀ i, i < size → m' i = m i) : StoreLayout auth m' size l last := by
  have hfree : ∀ i, last ≤ i → i < size → m' i = 0xff := by
    intro i hi hsize
    rw [hm i hsize, h.free i hi hsize]
  refine ⟨?_, h.last_le, hfree⟩
  have hnil : Log (storeFormat auth) m' (getEndPointer size) last [] last := by
    refine .nil fun hstop => format_length_erased (hfree _ le_rfl ?_)
    exact lt_of_lt_getEndPointer h.dvd_last hstop
  have hlog := h.log.append (fun x hx => h.log.length_eq_of_agree (dvd_startPtr auth)
    (fun i _ hi => hm i (hi.trans_le h.last_le)) hx) hnil
  rwa [append_nil] at hlog

theorem StoreLayout.record_congr (hm : ∀ i, i < size → m' i = m i) (hx : x ∈ l) :
    variableRecord auth m' x = variableRecord auth m x := by
  obtain ⟨_, _, _, hlast⟩ := h.of_mem hx
  have hle := h.last_le
  exact record_copy fun i hi => hm _ (by omega)

end Layout

end MuBasecore.VariableFormat
