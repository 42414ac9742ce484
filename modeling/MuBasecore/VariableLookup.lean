import MuBasecore.VariableFormat

/-!
`FindVariableEx` over the variables of one store, and what it finds: the first added
record of the name, and if there is none the last one that is in deleted transition.
-/

namespace MuBasecore.VariableLookup

open ByteMemory VariableFormat List

/-- A null-terminated string of `CHAR16`, without its terminator. -/
structure VariableName where
  chars : List (BitVec 16)
  nonzero : ∀ c ∈ chars, c ≠ 0
  deriving DecidableEq

def charBytes (c : BitVec 16) : List Byte :=
  [.ofNat 8 c.toNat, .ofNat 8 (c.toNat / 256)]

def stringBytes (chars : List (BitVec 16)) : List Byte :=
  chars.flatMap charBytes ++ [0, 0]

/-- The string in memory; its length is what `StrSize` gives. -/
def VariableName.bytes (name : VariableName) : List Byte := stringBytes name.chars

/-- `VariableName[0] == 0`. -/
def startsWithNull (name : List Byte) : Bool :=
  name.getD 0 0 == 0 && name.getD 1 0 == 0

/-- The test inside the loop of `FindVariableEx`. All records are looked at if the runtime
check is ignored or does not apply; `name` is the memory at `VariableName`, of which
`CompareMem` reads as many bytes as the record's name has. -/
def selects (all : Bool) (name : List Byte) (guid : GuidBytes) (r : VariableRecord) : Bool :=
  r.live && (all || r.attributes.has efiVariableRuntimeAccess) &&
    (startsWithNull name || (r.guid == guid && r.name.isPrefixOf name))

/-- `VARIABLE_POINTER_TRACK`. A pointer to a variable is the rest of the walk over the store
from that variable on, and a null pointer the empty rest. -/
structure PointerTrack (α : Type) where
  currPtr : List α
  inDeletedTransitionPtr : List α

section Find

variable {α : Type} (view : α → VariableRecord) (sel : VariableRecord → Bool)

def findLoop (inDeletedVariable : List α) : List α → PointerTrack α
  | [] => ⟨inDeletedVariable, []⟩
  | x :: rest =>
    if sel (view x) then
      if (view x).inDeleted then findLoop (x :: rest) rest
      else ⟨x :: rest, inDeletedVariable⟩
    else findLoop inDeletedVariable rest

def findVariableEx (all : Bool) (name : List Byte) (guid : GuidBytes) (store : List α) :
    PointerTrack α :=
  findLoop view (selects all name guid) [] store

variable {view sel}

theorem findLoop_head? (deleted l : List α) :
    (findLoop view sel deleted l).currPtr.head? =
      (l.find? fun x => sel (view x) && !(view x).inDeleted).or
        (((l.filter fun x => sel (view x) && (view x).inDeleted).getLast?).or deleted.head?) := by
  induction l generalizing deleted with
  | nil => simp [findLoop]
  | cons x l ih =>
    rw [findLoop]
    by_cases hsel : sel (view x)
    · by_cases hdel : (view x).inDeleted
      · rw [if_pos hsel, if_pos hdel, ih]
        simp [hsel, hdel, getLast?_cons]
      · simp [hsel, hdel]
    · rw [if_neg hsel, ih]
      simp [hsel]

/-- The record that `FindVariableEx` finds. -/
def lookup (all : Bool) (name : List Byte) (guid : GuidBytes) (rs : List VariableRecord) :
    Option VariableRecord :=
  (findVariableEx id all name guid rs).currPtr.head?

theorem lookup_eq (all : Bool) (name : List Byte) (guid : GuidBytes) (rs : List VariableRecord) :
    lookup all name guid rs =
      (rs.find? fun r => selects all name guid r && !r.inDeleted).or
        (rs.filter fun r => selects all name guid r && r.inDeleted).getLast? := by
  rw [lookup, findVariableEx, findLoop_head?]
  simp

end Find

theorem charBytes_injective {c d : BitVec 16} (h : charBytes c = charBytes d) : c = d := by
  simp only [charBytes, cons.injEq, and_true] at h
  obtain ⟨hlow, hhigh⟩ := h
  have hlow := congrArg BitVec.toNat hlow
  have hhigh := congrArg BitVec.toNat hhigh
  simp only [BitVec.toNat_ofNat] at hlow hhigh
  apply BitVec.eq_of_toNat_eq
  omega

theorem charBytes_zero : charBytes 0 = [0, 0] := rfl

theorem stringBytes_cons (c : BitVec 16) (chars : List (BitVec 16)) :
    stringBytes (c :: chars) = charBytes c ++ stringBytes chars := by
  rw [stringBytes, flatMap_cons, append_assoc, stringBytes]

theorem prefix_of_append {l l' t t' : List Byte} (hlen : l.length = l'.length)
    (h : l ++ t <+: l' ++ t') : l = l' ∧ t <+: t' := by
  obtain ⟨s, hs⟩ := h
  rw [append_assoc] at hs
  obtain ⟨hl, ht⟩ := append_inj hs hlen
  exact ⟨hl, s, ht⟩

theorem stringBytes_prefix {chars chars' : List (BitVec 16)} (h : ∀ c ∈ chars, c ≠ 0)
    (h' : ∀ c ∈ chars', c ≠ 0) (hinit : stringBytes chars <+: stringBytes chars') :
    chars = chars' := by
  have hnil : stringBytes [] = charBytes 0 ++ [] := rfl
  induction chars generalizing chars' with
  | nil =>
    cases chars' with
    | nil => rfl
    | cons d ds =>
      rw [hnil, stringBytes_cons] at hinit
      have hd := charBytes_injective (prefix_of_append (by rfl) hinit).1
      exact absurd hd.symm (h' d mem_cons_self)
  | cons c cs ih =>
    cases chars' with
    | nil =>
      rw [hnil, stringBytes_cons] at hinit
      have hc := charBytes_injective (prefix_of_append (by rfl) hinit).1
      exact absurd hc (h c mem_cons_self)
    | cons d ds =>
      rw [stringBytes_cons, stringBytes_cons] at hinit
      obtain ⟨hhead, htail⟩ := prefix_of_append (by rfl) hinit
      rw [charBytes_injective hhead, ih (fun c hc => h c (mem_cons_of_mem _ hc))
        (fun c hc => h' c (mem_cons_of_mem _ hc)) htail]

theorem VariableName.bytes_prefix_iff (name name' : VariableName) :
    name.bytes <+: name'.bytes ↔ name.bytes = name'.bytes := by
  constructor
  · intro h
    rw [VariableName.bytes, VariableName.bytes, stringBytes_prefix name.nonzero name'.nonzero h]
  · rintro h
    rw [h]

theorem VariableName.bytes_injective {name name' : VariableName}
    (h : name.bytes = name'.bytes) : name = name' := by
  have hchars := stringBytes_prefix name.nonzero name'.nonzero ((name.bytes_prefix_iff name').2 h)
  cases name
  cases name'
  cases hchars
  rfl

theorem VariableName.startsWithNull_bytes {name : VariableName} (h : name.chars ≠ []) :
    startsWithNull name.bytes = false := by
  obtain ⟨chars, hnonzero⟩ := name
  cases chars with
  | nil => exact absurd rfl h
  | cons c cs =>
    rw [Bool.eq_false_iff]
    intro hnull
    simp only [startsWithNull, VariableName.bytes, stringBytes_cons, charBytes,
      cons_append, getD_cons_zero, getD_cons_succ, Bool.and_eq_true,
      beq_iff_eq] at hnull
    have hc : charBytes c = charBytes 0 := by
      rw [charBytes_zero, charBytes, hnull.1, hnull.2]
    exact hnonzero c mem_cons_self (charBytes_injective hc)

def ProperName (bytes : List Byte) : Prop :=
  ∃ name : VariableName, name.chars ≠ [] ∧ name.bytes = bytes

def hasKey (name : List Byte) (guid : GuidBytes) (r : VariableRecord) : Bool :=
  r.guid == guid && r.name == name

theorem selects_eq {name : List Byte} (hname : ProperName name) (all : Bool)
    (guid : GuidBytes) {r : VariableRecord} (hr : ProperName r.name) :
    selects all name guid r =
      (r.live && (all || r.attributes.has efiVariableRuntimeAccess) && hasKey name guid r) := by
  obtain ⟨n, hn, rfl⟩ := hname
  obtain ⟨n', _, hn'⟩ := hr
  have hinit : r.name.isPrefixOf n.bytes = (r.name == n.bytes) := by
    rw [← hn', Bool.eq_iff_iff, isPrefixOf_iff_prefix, beq_iff_eq]
    exact n'.bytes_prefix_iff n
  rw [selects, VariableName.startsWithNull_bytes hn, hinit, Bool.false_or, hasKey]

end MuBasecore.VariableLookup
