import MuBasecore.AmlSerialize

/-!
The package length of an AML object counts the bytes of its own encoding. Where they take the
length over `2 ^ 20`, no package length is found.
-/

namespace MuBasecore.AmlPkgLength

open EfiTypes ByteMemory AmlSerialize List

def amlComputePkgLength (length : Nat) : Except EfiStatus Nat :=
  let pkgLenWidth := amlComputePkgLengthWidth length
  if pkgLenWidth = 0 then .error .invalidParameter
  else
    let length := length + pkgLenWidth
    let reComputedPkgLenWidth := amlComputePkgLengthWidth length
    if reComputedPkgLenWidth ≠ pkgLenWidth then
      if reComputedPkgLenWidth ≠ 0 ∧ reComputedPkgLenWidth < 4 then .ok (length + 1)
      else .error .invalidParameter
    else .ok length

/-- The number of bytes that are read, and the package length. -/
def amlGetPkgLength (m : Memory) (buffer : Nat) : Nat × Nat :=
  let leadByte := (m buffer).toNat
  let byteCount := leadByte / 2 ^ 6
  let following : Nat → Nat := fun i => (m (buffer + i)).toNat
  (byteCount + 1,
    match byteCount with
    | 0 => leadByte
    | 1 => following 1 * 2 ^ 4 + leadByte % 2 ^ 4
    | 2 => (following 1 + following 2 * 2 ^ 8) * 2 ^ 4 + leadByte % 2 ^ 4
    | _ => (following 1 + following 2 * 2 ^ 8 + following 3 * 2 ^ 16) * 2 ^ 4 + leadByte % 2 ^ 4)

/-- A package length that counts its own width. -/
def FixedPoint (length p : Nat) : Prop :=
  p ≤ 2 ^ 28 - 1 ∧ p = length + amlComputePkgLengthWidth p

/-- The least fixed point is found, if there is one. -/
def LeastFound (length : Nat) : Prop :=
  (∃ p, FixedPoint length p) → ∃ p, amlComputePkgLength length = .ok p ∧ FixedPoint length p ∧
    ∀ p', FixedPoint length p' → p ≤ p'

theorem width_cases (n : Nat) :
    n < 2 ^ 6 ∧ amlComputePkgLengthWidth n = 1 ∨
    2 ^ 6 ≤ n ∧ n < 2 ^ 12 ∧ amlComputePkgLengthWidth n = 2 ∨
    2 ^ 12 ≤ n ∧ n < 2 ^ 20 ∧ amlComputePkgLengthWidth n = 3 ∨
    2 ^ 20 ≤ n ∧ n < 2 ^ 28 ∧ amlComputePkgLengthWidth n = 4 ∨
    2 ^ 28 ≤ n ∧ amlComputePkgLengthWidth n = 0 := by
  unfold amlComputePkgLengthWidth
  split_ifs <;> omega

theorem leastFound_iff {length : Nat} :
    LeastFound length ↔ ¬ (2 ^ 20 - 3 ≤ length ∧ length < 2 ^ 20) := by
  have hlen := width_cases length
  have hsum := width_cases (length + amlComputePkgLengthWidth length)
  constructor
  · rintro hfound ⟨hlow, hhigh⟩
    have hpkg := width_cases (length + 4)
    obtain ⟨p, hok, -⟩ := hfound ⟨length + 4, by omega, by omega⟩
    simp only [amlComputePkgLength] at hok
    rw [if_neg (by omega), if_pos (by omega), if_neg (by omega)] at hok
    cases hok
  · rintro hout ⟨p, hp⟩
    have hleast : ∀ p', FixedPoint length p' → length + amlComputePkgLengthWidth length ≤ p' ∧
        (amlComputePkgLengthWidth (length + amlComputePkgLengthWidth length) ≠
          amlComputePkgLengthWidth length → length + amlComputePkgLengthWidth length + 1 ≤ p') := by
      rintro p' ⟨hle, heq⟩
      have hpkg := width_cases p'
      omega
    obtain ⟨hle, heq⟩ := hp
    have hpkg := width_cases p
    simp only [amlComputePkgLength]
    rw [if_neg (by omega)]
    split
    next hne =>
      have hnext := width_cases (length + amlComputePkgLengthWidth length + 1)
      rw [if_pos (by omega)]
      exact ⟨_, rfl, ⟨by omega, by omega⟩, fun p' hp' => (hleast p' hp').2 hne⟩
    · exact ⟨_, rfl, ⟨by omega, by omega⟩, fun p' hp' => (hleast p' hp').1⟩

theorem amlSetPkgLength_long {p : Nat} (hlong : 2 ^ 6 ≤ p) (hp : p < 2 ^ 28) :
    amlSetPkgLength p = .ofNat 8 ((amlComputePkgLengthWidth p - 1) * 64 + p % 16) ::
      (List.range (amlComputePkgLengthWidth p - 1)).map
        fun i => .ofNat 8 (p / 2 ^ (4 + i * 8)) := by
  have hoffset : (if p ≥ 2 ^ 20 then 3 else if p ≥ 2 ^ 12 then 2 else 1) =
      amlComputePkgLengthWidth p - 1 := by
    have hwidth := width_cases p
    split_ifs <;> omega
  rw [amlSetPkgLength, if_neg (by omega), if_neg (by omega), hoffset]

theorem amlGetPkgLength_set {p : Nat} (hp : p < 2 ^ 28) (m : Memory) (a : Nat) :
    amlGetPkgLength (writeBytes m a (amlSetPkgLength p)) a = (amlComputePkgLengthWidth p, p) := by
  have hwidth := width_cases p
  rcases Nat.lt_or_ge p (2 ^ 6) with hsml | hlong
  · have hset : amlSetPkgLength p = [.ofNat 8 p] := if_pos hsml
    have hlead : (writeBytes m a (amlSetPkgLength p) a).toNat = p := by
      simp [hset, writeBytes]
      omega
    have hzero : p / 2 ^ 6 = 0 := by omega
    simp only [amlGetPkgLength, hlead, hzero]
    congr 1
    omega
  · rw [amlSetPkgLength_long hlong hp]
    obtain ⟨k, hk⟩ : ∃ k, amlComputePkgLengthWidth p = k + 1 :=
      Nat.exists_eq_add_one_of_ne_zero (by omega)
    have hbytes : k = 1 ∧ p < 2 ^ 12 ∨ k = 2 ∧ p < 2 ^ 20 ∨ k = 3 := by omega
    rw [hk, Nat.add_sub_cancel]
    generalize hw : writeBytes m a _ = w
    have hlead : (w a).toNat = k * 64 + p % 16 := by
      simp [← hw, writeBytes]
      omega
    have hnext : ∀ i < k, (w (a + (i + 1))).toNat = p / 2 ^ (4 + i * 8) % 256 := by
      intro i hi
      rw [← hw, writeBytes_add m a (by simpa using hi)]
      simp
    have hcount : (k * 64 + p % 16) / 2 ^ 6 = k := by omega
    simp only [amlGetPkgLength, hlead, hcount]
    congr 1
    have h0 : (w (a + 1)).toNat = p / 2 ^ 4 % 256 := hnext 0 (by omega)
    rcases hbytes with ⟨rfl, hlt⟩ | ⟨rfl, hlt⟩ | rfl
    · change (w (a + 1)).toNat * 2 ^ 4 + (1 * 64 + p % 16) % 2 ^ 4 = p
      omega
    · have h1 : (w (a + 2)).toNat = p / 2 ^ 12 % 256 := hnext 1 (by omega)
      change ((w (a + 1)).toNat + (w (a + 2)).toNat * 2 ^ 8) * 2 ^ 4 + (2 * 64 + p % 16) % 2 ^ 4 = p
      omega
    · have h1 : (w (a + 2)).toNat = p / 2 ^ 12 % 256 := hnext 1 (by omega)
      have h2 : (w (a + 3)).toNat = p / 2 ^ 20 % 256 := hnext 2 (by omega)
      change ((w (a + 1)).toNat + (w (a + 2)).toNat * 2 ^ 8 + (w (a + 3)).toNat * 2 ^ 16) * 2 ^ 4 +
        (3 * 64 + p % 16) % 2 ^ 4 = p
      omega

/-- The least package length is found just if the three lengths below `2 ^ 20` are left out, and
a package length is read as it was written. -/
theorem amlComputePkgLength_least_iff (length : Nat) :
    (LeastFound length ∧ ∀ p < 2 ^ 28, ∀ m a,
      (amlSetPkgLength p).length = amlComputePkgLengthWidth p ∧
      amlGetPkgLength (writeBytes m a (amlSetPkgLength p)) a = (amlComputePkgLengthWidth p, p)) ↔
      ¬ (2 ^ 20 - 3 ≤ length ∧ length < 2 ^ 20) := by
  rw [leastFound_iff, and_iff_left]
  exact fun p hp m a => ⟨length_amlSetPkgLength p, amlGetPkgLength_set hp m a⟩

theorem belowTwentyBits_refused : FixedPoint (2 ^ 20 - 1) (2 ^ 20 + 3) ∧
    amlComputePkgLength (2 ^ 20 - 1) = .error .invalidParameter := by
  refine ⟨⟨?_, ?_⟩, ?_⟩ <;> decide

end MuBasecore.AmlPkgLength
