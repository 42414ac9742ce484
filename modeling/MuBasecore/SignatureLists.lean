import MuBasecore.ByteMemory
import MuBasecore.EfiTypes
import MuBasecore.RoundedLoop
import MuBasecore.Word64

/-!
`CheckSignatureListFormat` of the authenticated variables. The sizes of a list are
subtracted from each other without a test, so that a list which is shorter than its
own header can pass the check.
-/

namespace MuBasecore.SignatureLists

open ByteMemory EfiTypes RoundedLoop Word64 List

def efiGuid (data1 data2 data3 : Nat) (data4 : List Nat) : Guid :=
  .ofNat 128 (data1 + 2 ^ 32 * data2 + 2 ^ 48 * data3 + 2 ^ 64 * Nat.ofDigits 256 data4)

def gEfiGlobalVariableGuid : Guid :=
  efiGuid 0x8BE4DF61 0x93CA 0x11d2 [0xAA, 0x0D, 0x00, 0xE0, 0x98, 0x03, 0x2B, 0x8C]

def gEfiImageSecurityDatabaseGuid : Guid :=
  efiGuid 0xd719b2cb 0x3d3a 0x4596 [0xa3, 0xbc, 0xda, 0xd0, 0xe, 0x67, 0x65, 0x6f]

def gEfiCertX509Guid : Guid :=
  efiGuid 0xa5c059a1 0x94e4 0x4aa7 [0x87, 0xb5, 0xab, 0x15, 0x5c, 0x2b, 0xf0, 0x72]

structure SignatureItem where
  sigType : Guid
  sigHeaderSize : Nat
  sigDataSize : Nat

def uint32Max : Nat := 2 ^ 32 - 1

def mSupportSigItem : List SignatureItem :=
  [⟨efiGuid 0xc1c41626 0x504c 0x4092 [0xac, 0xa9, 0x41, 0xf9, 0x36, 0x93, 0x43, 0x28], 0, 32⟩,
    ⟨efiGuid 0x3c5766e8 0x269c 0x4e34 [0xaa, 0x14, 0xed, 0x77, 0x6e, 0x85, 0xb3, 0xb6], 0, 256⟩,
    ⟨efiGuid 0xe2b36190 0x879b 0x4a3d [0xad, 0x8d, 0xf2, 0xe7, 0xbb, 0xa3, 0x27, 0x84], 0, 256⟩,
    ⟨efiGuid 0x826ca512 0xcf10 0x4ac9 [0xb1, 0x87, 0xbe, 0x1, 0x49, 0x66, 0x31, 0xbd], 0, 20⟩,
    ⟨efiGuid 0x67f8444f 0x8743 0x48f1 [0xa3, 0x28, 0x1e, 0xaa, 0xb8, 0x73, 0x60, 0x80], 0, 256⟩,
    ⟨gEfiCertX509Guid, 0, uint32Max⟩,
    ⟨efiGuid 0xb6e5233 0xa65c 0x44c9 [0x94, 0x7, 0xd9, 0xab, 0x83, 0xbf, 0xc8, 0xbd], 0, 28⟩,
    ⟨efiGuid 0xff3e5307 0x9fd0 0x48c9 [0x85, 0xf1, 0x8a, 0xd5, 0x6c, 0x70, 0x1e, 0x1], 0, 48⟩,
    ⟨efiGuid 0x93e0fae 0xa6c4 0x4f50 [0x9f, 0x1b, 0xd4, 0x1e, 0x2b, 0x89, 0xc1, 0x9a], 0, 64⟩,
    ⟨efiGuid 0x3bd2a492 0x96c0 0x4079 [0xb4, 0x20, 0xfc, 0xf9, 0x8e, 0xf1, 0x03, 0xed], 0, 48⟩,
    ⟨efiGuid 0x7076876e 0x80c2 0x4ee6 [0xaa, 0xd2, 0x28, 0xb3, 0x49, 0xa6, 0x86, 0x5b], 0, 64⟩,
    ⟨efiGuid 0x446dbf63 0x2502 0x4cda [0xbc, 0xfa, 0x24, 0x65, 0xd2, 0xb0, 0xfe, 0x9d], 0, 80⟩]

/-- `EFI_SIGNATURE_LIST`. -/
structure SignatureList where
  signatureType : Guid
  signatureListSize : Nat
  signatureHeaderSize : Nat
  signatureSize : Nat

def signatureList (m : Memory) (a : Nat) : SignatureList where
  signatureType := .ofNat 128 (readU64 m a + 2 ^ 64 * readU64 m (a + 8))
  signatureListSize := readU32 m (a + 16)
  signatureHeaderSize := readU32 m (a + 20)
  signatureSize := readU32 m (a + 24)

abbrev listSize (m : Memory) (a : Nat) : Nat := (signatureList m a).signatureListSize

def sizeOfSignatureList : Nat := 28

def sizeOfGuid : Nat := 16

namespace SignatureList

/-- The loop over `mSupportSigItem`. -/
def supported (l : SignatureList) : Bool :=
  match mSupportSigItem.find? fun item => item.sigType = l.signatureType with
  | none => false
  | some item =>
    (item.sigDataSize = uint32Max ∨ sub64 l.signatureSize sizeOfGuid = item.sigDataSize) ∧
      (item.sigHeaderSize = uint32Max ∨ l.signatureHeaderSize = item.sigHeaderSize)

def signaturesSize (l : SignatureList) : Nat :=
  sub64 (sub64 l.signatureListSize sizeOfSignatureList) l.signatureHeaderSize

end SignatureList

def addCount (sigCount : Nat) (l : SignatureList) : Nat :=
  (sigCount + l.signaturesSize / l.signatureSize) % 2 ^ 32

/-- The tests in front of the division by `SignatureSize`. `RsaGetPublicKeyFromX509` is given
the address and the length of the certificate. -/
def admits (rsa : Nat → Nat → Bool) (m : Memory) (a : Nat) : Bool :=
  let l := signatureList m a
  let certLen := sub64 l.signatureSize sizeOfGuid
  l.supported && (l.signatureType != gEfiCertX509Guid || certLen == 0 ||
    rsa (a + sizeOfSignatureList + l.signatureHeaderSize + sizeOfGuid) certLen)

/-- The loop of `CheckSignatureListFormat`, with `none` for a list that is rejected. A
division by zero does not return. -/
def checkLists (rsa : Nat → Nat → Bool) (m : Memory) :
    Nat → Nat → Nat → Nat → Option (Option (Nat × Nat))
  | 0, _, _, _ => none
  | rounds + 1, sigList, sigDataSize, sigCount =>
    let l := signatureList m sigList
    if 0 < sigDataSize ∧ listSize m sigList ≤ sigDataSize then
      if admits rsa m sigList = false then some none
      else if l.signatureSize = 0 then none
      else if l.signaturesSize % l.signatureSize ≠ 0 then some none
      else
        checkLists rsa m rounds (sigList + listSize m sigList) (sigDataSize - listSize m sigList)
          (addCount sigCount l)
    else some (some (sigList, sigCount))

/-- Whether the variable is PK, for the variables that hold signature lists. -/
def isPk (variableName : String) (vendorGuid : Guid) : Option Bool :=
  if vendorGuid = gEfiGlobalVariableGuid ∧ variableName = "PK" then some true
  else if vendorGuid = gEfiGlobalVariableGuid ∧ variableName = "KEK" ∨
      vendorGuid = gEfiImageSecurityDatabaseGuid ∧
        (variableName = "db" ∨ variableName = "dbx" ∨ variableName = "dbt") then some false
  else none

def finish (pk : Bool) (dataSize : Nat) : Option (Nat × Nat) → EfiStatus
  | none => .invalidParameter
  | some (sigList, sigCount) =>
    if sigList ≠ dataSize then .invalidParameter
    else if pk = true ∧ 1 < sigCount then .invalidParameter
    else .success

def checkSignatureListFormat (rsa : Nat → Nat → Bool) (variableName : String) (vendorGuid : Guid)
    (m : Memory) (dataSize rounds : Nat) : Option EfiStatus :=
  if dataSize = 0 then some .success
  else
    match isPk variableName vendorGuid with
    | none => some .success
    | some pk => (checkLists rsa m rounds 0 dataSize 0).map (finish pk dataSize)

def Lists (m : Memory) : Nat → List SignatureList → Nat → Prop
  | a, [], e => a = e
  | a, l :: ls, e => l = signatureList m a ∧ Lists m (a + l.signatureListSize) ls e

/-- The list holds a whole number of signatures. -/
def WellFormed (l : SignatureList) : Prop :=
  16 ≤ l.signatureSize ∧
    ∃ k, l.signatureListSize = 28 + l.signatureHeaderSize + k * l.signatureSize

def signatureCount (l : SignatureList) : Nat :=
  (l.signatureListSize - 28 - l.signatureHeaderSize) / l.signatureSize

/-- The check returns, and what it accepts is a concatenation of signature lists, with one
signature at most for PK. -/
def FormatSound (rsa : Nat → Nat → Bool) (variableName : String) (vendorGuid : Guid) (m : Memory)
    (dataSize : Nat) : Prop :=
  ∃ status, Returns (checkSignatureListFormat rsa variableName vendorGuid m dataSize) status ∧
    (status = .success → ∃ ls, Lists m 0 ls dataSize ∧ (∀ l ∈ ls, WellFormed l) ∧
      (isPk variableName vendorGuid = some true → (ls.map signatureCount).sum ≤ 1))

structure Passes (rsa : Nat → Nat → Bool) (m : Memory) (dataSize a : Nat) : Prop where
  lt : a < dataSize
  fits : a + listSize m a ≤ dataSize
  admitted : admits rsa m a = true
  size_ne : (signatureList m a).signatureSize ≠ 0
  divides : (signatureList m a).signaturesSize % (signatureList m a).signatureSize = 0

/-- Lists that pass the check one after the other. -/
def Passed (rsa : Nat → Nat → Bool) (m : Memory) (dataSize : Nat) :
    Nat → List SignatureList → Nat → Prop
  | a, [], e => a = e
  | a, l :: ls, e =>
    l = signatureList m a ∧ Passes rsa m dataSize a ∧ Passed rsa m dataSize (a + listSize m a) ls e

/-- No list that passes every test of the check has the size zero, and none whose type and
certificates are admitted has signatures of the size zero. If lists that pass make up the data,
each has room for its header and the signatures for their owner, and for PK there are less than
`2 ^ 32` signatures. -/
def Sized (rsa : Nat → Nat → Bool) (pk : Bool) (m : Memory) (dataSize : Nat) : Prop :=
  ∀ ls a, Passed rsa m dataSize 0 ls a →
    (a < dataSize → a + listSize m a ≤ dataSize → admits rsa m a = true →
      (signatureList m a).signatureSize ≠ 0) ∧
    (Passes rsa m dataSize a → listSize m a ≠ 0) ∧
    (a = dataSize → (pk = true → ls.foldl addCount 0 ≤ 1) →
      (∀ l ∈ ls, 28 + l.signatureHeaderSize ≤ l.signatureListSize ∧ 16 ≤ l.signatureSize) ∧
        (pk = true → (ls.map signatureCount).sum < 2 ^ 32))

variable {rsa : Nat → Nat → Bool} {m : Memory} {dataSize a b e count : Nat} {pk : Bool}
  {l : SignatureList} {ls ls' : List SignatureList}

theorem eq_of_finish_success {out : Option (Nat × Nat)} (h : finish pk dataSize out = .success) :
    ∃ count, out = some (dataSize, count) ∧ (pk = true → count ≤ 1) := by
  cases out with
  | none => exact nomatch h
  | some result =>
    obtain ⟨sigList, sigCount⟩ := result
    rw [finish] at h
    split_ifs at h with hend hcnt
    refine ⟨sigCount, by rw [Decidable.not_not.1 hend], fun hpk => ?_⟩
    exact Nat.le_of_not_lt fun hlt => hcnt ⟨hpk, hlt⟩

theorem Lists.le (h : Lists m a ls e) : a ≤ e := by
  induction ls generalizing a with
  | nil => exact le_of_eq h
  | cons l ls ih => exact le_trans (Nat.le_add_right _ _) (ih h.2)

theorem Passed.lists (h : Passed rsa m dataSize a ls e) : Lists m a ls e := by
  induction ls generalizing a with
  | nil => exact h
  | cons l ls ih =>
    obtain ⟨rfl, -, hrest⟩ := h
    exact ⟨rfl, ih hrest⟩

theorem Passed.concat (h : Passed rsa m dataSize a ls b) (hpasses : Passes rsa m dataSize b) :
    Passed rsa m dataSize a (ls ++ [signatureList m b]) (b + listSize m b) := by
  induction ls generalizing a with
  | nil =>
    obtain rfl : a = b := h
    exact ⟨rfl, hpasses, rfl⟩
  | cons l ls ih => exact ⟨h.1, h.2.1, ih h.2.2⟩

theorem Passed.eq_of_lists (h : Passed rsa m dataSize a ls dataSize)
    (h' : Lists m a ls' dataSize) (hwell : ∀ l ∈ ls', WellFormed l) : ls = ls' := by
  induction ls generalizing a ls' with
  | nil =>
    obtain rfl : a = dataSize := h
    cases ls' with
    | nil => rfl
    | cons l' ls' =>
      obtain ⟨-, k, hsize⟩ := hwell l' mem_cons_self
      have hle := h'.2.le
      omega
  | cons l ls ih =>
    obtain ⟨rfl, hpasses, hrest⟩ := h
    cases ls' with
    | nil => exact absurd h' (ne_of_lt hpasses.lt)
    | cons l' ls' =>
      obtain ⟨rfl, hrest'⟩ := h'
      rw [ih hrest hrest' fun l hl => hwell l (mem_cons_of_mem _ hl)]

/-- A list with room for its header is counted as it is. -/
theorem Passed.wellFormed (h : Passed rsa m dataSize a ls e)
    (hroom : ∀ l ∈ ls, 28 + l.signatureHeaderSize ≤ l.signatureListSize ∧ 16 ≤ l.signatureSize)
    (hcnt : count < 2 ^ 32) :
    (∀ l ∈ ls, WellFormed l) ∧
      ls.foldl addCount count = (count + (ls.map signatureCount).sum) % 2 ^ 32 := by
  induction ls generalizing a count with
  | nil => exact ⟨fun l hl => absurd hl not_mem_nil, (Nat.mod_eq_of_lt hcnt).symm⟩
  | cons l ls ih =>
    obtain ⟨rfl, hpasses, hrest⟩ := h
    obtain ⟨hheader, howner⟩ := hroom _ mem_cons_self
    have hlt : (signatureList m a).signatureListSize < 2 ^ 32 := readU32_lt
    have hsize : (signatureList m a).signaturesSize = (signatureList m a).signatureListSize - 28 -
        (signatureList m a).signatureHeaderSize := by
      unfold SignatureList.signaturesSize sub64 sizeOfSignatureList
      omega
    have hnext : addCount count (signatureList m a) < 2 ^ 32 := Nat.mod_lt _ (by decide)
    obtain ⟨hwell, hfold⟩ := ih hrest (fun l hl => hroom l (mem_cons_of_mem _ hl)) hnext
    have hdivides := hpasses.divides
    rw [hsize] at hdivides
    refine ⟨forall_mem_cons.2 ⟨⟨howner, signatureCount (signatureList m a), ?_⟩, hwell⟩, ?_⟩
    · rw [signatureCount, Nat.div_mul_cancel (Nat.dvd_of_mod_eq_zero hdivides)]
      omega
    · rw [foldl_cons, hfold, addCount, hsize, ← signatureCount, map_cons, sum_cons]
      omega

theorem Passes.checkLists_succ (h : Passes rsa m dataSize a) (rounds count : Nat) :
    checkLists rsa m (rounds + 1) a (dataSize - a) count =
      checkLists rsa m rounds (a + listSize m a) (dataSize - (a + listSize m a))
        (addCount count (signatureList m a)) := by
  have hlt := h.lt
  have hfits := h.fits
  rw [checkLists, if_pos (by omega), if_neg (by simp [h.admitted]), if_neg h.size_ne,
    if_neg (by simp [h.divides]), Nat.sub_sub]

theorem Passes.checkLists_eq_none (h : Passes rsa m dataSize a) (hzero : listSize m a = 0)
    (rounds count : Nat) : checkLists rsa m rounds a (dataSize - a) count = none := by
  induction rounds generalizing count with
  | zero => rfl
  | succ rounds ih =>
    rw [h.checkLists_succ, hzero, add_zero]
    exact ih _

theorem Passed.checkLists_eq (h : Passed rsa m dataSize a ls e) (rounds count : Nat) :
    checkLists rsa m (rounds + ls.length) a (dataSize - a) count =
      checkLists rsa m rounds e (dataSize - e) (ls.foldl addCount count) := by
  induction ls generalizing a count with
  | nil =>
    obtain rfl : a = e := h
    rfl
  | cons l ls ih =>
    obtain ⟨rfl, hpasses, hrest⟩ := h
    rw [length_cons, ← add_assoc, hpasses.checkLists_succ]
    exact ih hrest _

theorem Sized.checkLists_returns (hsized : Sized rsa pk m dataSize) (ls : List SignatureList)
    (a : Nat) (h : Passed rsa m dataSize 0 ls a) :
    ∃ out, Returns (fun rounds => checkLists rsa m rounds a (dataSize - a)
        (ls.foldl addCount 0)) out ∧
      ∀ count, out = some (dataSize, count) →
        ∃ ls, Passed rsa m dataSize 0 ls dataSize ∧ count = ls.foldl addCount 0 := by
  obtain ⟨hsize, hprog, -⟩ := hsized ls a h
  by_cases hfits : a < dataSize ∧ a + listSize m a ≤ dataSize
  swap
  · refine ⟨some (a, ls.foldl addCount 0), Returns.succ rfl (fun n => ?_) (returns_const _), ?_⟩
    · rw [checkLists, if_neg (by omega)]
    · rintro count ⟨⟩
      exact ⟨ls, h, rfl⟩
  by_cases hpasses : Passes rsa m dataSize a
  · have hpos := hprog hpasses
    obtain ⟨out, hret, hend⟩ := hsized.checkLists_returns _ _ (h.concat hpasses)
    rw [foldl_append] at hret
    exact ⟨out, Returns.succ rfl (fun n => hpasses.checkLists_succ n _) hret, hend⟩
  · refine ⟨none, Returns.succ rfl (fun n => ?_) (returns_const _), fun _ heq => nomatch heq⟩
    rw [checkLists, if_pos (by omega)]
    split
    · rfl
    next hadmits =>
      rw [Bool.not_eq_false] at hadmits
      have hne := hsize hfits.1 hfits.2 hadmits
      rw [if_neg hne, if_pos fun hdivides => hpasses ⟨hfits.1, hfits.2, hadmits, hne, hdivides⟩]
termination_by dataSize - a

/-- What the check accepts is well formed exactly if the sizes in the lists do not wrap. -/
theorem formatSound_iff_sized (rsa : Nat → Nat → Bool) (variableName : String) (vendorGuid : Guid)
    {pk : Bool} (hpk : isPk variableName vendorGuid = some pk) (m : Memory) (dataSize : Nat) :
    FormatSound rsa variableName vendorGuid m dataSize ↔ Sized rsa pk m dataSize := by
  rcases Nat.eq_zero_or_pos dataSize with rfl | hpos
  · refine iff_of_true ⟨.success, returns_const _, fun _ => ⟨[], rfl, by simp, by simp⟩⟩ ?_
    rintro (_ | ⟨l, ls⟩) a hpassed
    · obtain rfl : 0 = a := hpassed
      exact ⟨fun h => absurd h (by decide), fun h => absurd h.lt (by decide), fun _ _ => by simp⟩
    · exact absurd hpassed.2.1.lt (by decide)
  have hcheck : checkSignatureListFormat rsa variableName vendorGuid m dataSize =
      fun rounds => (checkLists rsa m rounds 0 dataSize 0).map (finish pk dataSize) := by
    funext rounds
    rw [checkSignatureListFormat, if_neg (Nat.ne_of_gt hpos), hpk]
  rw [FormatSound, hcheck, hpk]
  constructor
  · rintro ⟨status, hreturns, hsound⟩ ls a hpassed
    -- the loop goes on from the list it has come to, and has to return from there
    have hsome : ∃ k, (checkLists rsa m k a (dataSize - a) (ls.foldl addCount 0)).map
        (finish pk dataSize) = some status := by
      obtain ⟨k, hk⟩ := hreturns
      have hfrom := hpassed.checkLists_eq k 0
      rw [Nat.sub_zero] at hfrom
      refine ⟨k, ?_⟩
      rw [← hfrom]
      exact (hk _).trans (if_pos (Nat.le_add_right _ _))
    obtain ⟨k, hsome⟩ := hsome
    refine ⟨fun hlt hle hadmits hzero => ?_, fun hpasses hzero => ?_, ?_⟩
    · cases k with
      | zero => exact nomatch hsome
      | succ k =>
        rw [checkLists, if_pos (by omega), if_neg (by simp [hadmits]), if_pos hzero] at hsome
        exact nomatch hsome
    · rw [hpasses.checkLists_eq_none hzero] at hsome
      exact nomatch hsome
    · rintro rfl hcount
      have hsuccess : status = .success := by
        cases k with
        | zero => exact nomatch hsome
        | succ k =>
          rw [checkLists, if_neg (by omega), Option.map_some, finish, if_neg (by simp), if_neg fun
            hmany => not_le.mpr hmany.2 (hcount hmany.1)] at hsome
          exact (Option.some.inj hsome).symm
      obtain ⟨ls', hlists, hwell, hone⟩ := hsound hsuccess
      obtain rfl := hpassed.eq_of_lists hlists hwell
      refine ⟨fun l hl => ?_, fun hpk => lt_of_le_of_lt (hone (congrArg some hpk)) (by decide)⟩
      obtain ⟨hsize, k, hk⟩ := hwell l hl
      exact ⟨by omega, hsize⟩
  · intro hsized
    obtain ⟨out, hreturns, hend⟩ := hsized.checkLists_returns [] 0 rfl
    refine ⟨_, hreturns.map _, fun hsuccess => ?_⟩
    obtain ⟨count, rfl, hcount⟩ := eq_of_finish_success hsuccess
    obtain ⟨ls, hpassed, rfl⟩ := hend count rfl
    obtain ⟨hroom, hmany⟩ := (hsized ls dataSize hpassed).2.2 rfl hcount
    obtain ⟨hwell, hfold⟩ := hpassed.wellFormed hroom (Nat.two_pow_pos 32)
    refine ⟨ls, hpassed.lists, hwell, fun hpk => ?_⟩
    have hpk := Option.some.inj hpk
    have hle := hcount hpk
    rwa [hfold, zero_add, Nat.mod_eq_of_lt (hmany hpk)] at hle

/-- A list of SHA-256 hashes at the start of the memory. -/
def sha256List (listSize : Nat) : Memory := fun i =>
  ([0x26, 0x16, 0xc4, 0xc1, 0x4c, 0x50, 0x92, 0x40,
    0xac, 0xa9, 0x41, 0xf9, 0x36, 0x93, 0x43, 0x28] ++
    bytesU32 listSize ++ bytesU32 0 ++ bytesU32 48).getD i 0

theorem oneHash_formatSound :
    FormatSound (fun _ _ => false) "db" gEfiImageSecurityDatabaseGuid (sha256List 76) 76 := by
  refine (formatSound_iff_sized _ _ _ (show isPk "db" _ = some false by decide +kernel)
    (sha256List 76) 76).mpr ?_
  rintro (_ | ⟨l, _ | ⟨l', ls⟩⟩) a hpassed
  · obtain rfl : 0 = a := hpassed
    exact ⟨fun _ _ _ => by decide +kernel, fun _ => by decide +kernel, fun h => nomatch h⟩
  · obtain ⟨rfl, -, hend⟩ := hpassed
    obtain rfl : 76 = a := hend
    refine ⟨fun h => absurd h (by decide), fun h => absurd h.lt (by decide),
      fun _ _ => ⟨?_, fun h => nomatch h⟩⟩
    intro l hl
    rw [mem_singleton.mp hl]
    decide +kernel
  · obtain ⟨-, -, -, hpasses, -⟩ := hpassed
    exact absurd hpasses.lt (by decide +kernel)

/-- Twelve bytes are accepted as a list of hashes, though they do not even hold the header. -/
theorem halfHeader_accepted :
    checkSignatureListFormat (fun _ _ => false) "db" gEfiImageSecurityDatabaseGuid (sha256List 12)
        12 2 = some .success ∧
      ¬ FormatSound (fun _ _ => false) "db" gEfiImageSecurityDatabaseGuid (sha256List 12) 12 := by
  have hsuccess : checkSignatureListFormat (fun _ _ => false) "db" gEfiImageSecurityDatabaseGuid
      (sha256List 12) 12 2 = some .success := by
    decide +kernel
  refine ⟨hsuccess, ?_⟩
  rintro ⟨status, hreturns, hsound⟩
  obtain ⟨ls, hlists, hwell, -⟩ := hsound (hreturns.eq_of_some hsuccess).symm
  cases ls with
  | nil => exact nomatch hlists
  | cons l ls =>
    obtain ⟨-, k, hk⟩ := hwell l mem_cons_self
    rw [hlists.1] at hk
    change 12 = _ at hk
    omega

end MuBasecore.SignatureLists
