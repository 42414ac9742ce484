import MuBasecore.ByteMemory
import MuBasecore.EfiTypes

/-!
The tree of an AML definition block, and its enumeration by a callback that can stop it.
-/

variable {σ : Type}

namespace MuBasecore.AmlTree

open ByteMemory

/-- What is read of `AML_BYTE_ENCODING` when a tree is serialized. -/
structure AmlByteEncoding where
  opCode : Byte
  subOpCode : Byte
  hasPkgLength : Bool
  isPseudoOpcode : Bool
deriving DecidableEq

inductive AmlNode
  | data (buffer : List Byte) (nonempty : buffer ≠ [])
  | object (encoding : AmlByteEncoding) (pkgLen : Nat) (fixedArgs variableArgs : List AmlNode)

structure AmlRoot where
  sdtHeader : List Byte
  header_length : sdtHeader.length = 36
  variableArgs : List AmlNode

inductive Place
  | top
  | fixedArgument (parent : AmlByteEncoding) (index : Nat)
  | variableArgument (parent : AmlByteEncoding)

def amlExtOp : Byte := 0x5B

def amlMethodInvocOp : Byte := 0xD0

def Place.ignored : Place → Bool
  | .fixedArgument parent index =>
    parent.opCode == amlMethodInvocOp && parent.subOpCode == 0 && index == 1
  | _ => false

section Enumeration

variable (callback : Place → AmlNode → σ → σ × Bool)

mutual

/-- `AmlEnumTree` below the root. -/
def amlEnumTree : AmlNode → Place → σ → σ × Bool
  | .data buffer nonempty, place, s => callback place (.data buffer nonempty) s
  | .object encoding pkgLen fixedArgs variableArgs, place, s =>
    match callback place (.object encoding pkgLen fixedArgs variableArgs) s with
    | (s, false) => (s, false)
    | (s, true) =>
      match enumFixed encoding 0 fixedArgs s with
      | (s, false) => (s, false)
      | (s, true) => enumVariable (.variableArgument encoding) variableArgs s

def enumFixed (encoding : AmlByteEncoding) : Nat → List AmlNode → σ → σ × Bool
  | _, [], s => (s, true)
  | index, node :: rest, s =>
    match amlEnumTree node (.fixedArgument encoding index) s with
    | (s, false) => (s, false)
    | (s, true) => enumFixed encoding (index + 1) rest s

def enumVariable (place : Place) : List AmlNode → σ → σ × Bool
  | [], s => (s, true)
  | node :: rest, s =>
    match amlEnumTree node place s with
    | (s, false) => (s, false)
    | (s, true) => enumVariable place rest s

end

def enumList : List (Place × AmlNode) → σ → σ × Bool
  | [], s => (s, true)
  | (place, node) :: rest, s =>
    match callback place node s with
    | (s, false) => (s, false)
    | (s, true) => enumList rest s

theorem enumList_append (l l' : List (Place × AmlNode)) (s : σ) :
    enumList callback (l ++ l') s =
      match enumList callback l s with
      | (s, false) => (s, false)
      | (s, true) => enumList callback l' s := by
  induction l generalizing s with
  | nil => rfl
  | cons visit rest ih =>
    obtain ⟨place, node⟩ := visit
    rw [List.cons_append, enumList, enumList]
    rcases callback place node s with ⟨s', _ | _⟩
    · rfl
    · exact ih s'

end Enumeration

mutual

def visits : AmlNode → Place → List (Place × AmlNode)
  | .data buffer nonempty, place => [(place, .data buffer nonempty)]
  | .object encoding pkgLen fixedArgs variableArgs, place =>
    (place, .object encoding pkgLen fixedArgs variableArgs) ::
      (visitsFixed encoding 0 fixedArgs ++
        visitsVariable (.variableArgument encoding) variableArgs)

def visitsFixed (encoding : AmlByteEncoding) : Nat → List AmlNode → List (Place × AmlNode)
  | _, [] => []
  | index, node :: rest =>
    visits node (.fixedArgument encoding index) ++ visitsFixed encoding (index + 1) rest

def visitsVariable (place : Place) : List AmlNode → List (Place × AmlNode)
  | [] => []
  | node :: rest => visits node place ++ visitsVariable place rest

end

variable (callback : Place → AmlNode → σ → σ × Bool)

mutual

theorem amlEnumTree_eq (node : AmlNode) (place : Place) (s : σ) :
    amlEnumTree callback node place s = enumList callback (visits node place) s := by
  cases node with
  | data buffer nonempty =>
    rw [amlEnumTree, visits, enumList]
    rcases callback place (.data buffer nonempty) s with ⟨s', _ | _⟩ <;> rfl
  | object enc pkgLen fixedArgs variableArgs =>
    rw [amlEnumTree, visits, enumList]
    rcases callback place (.object enc pkgLen fixedArgs variableArgs) s with ⟨s', _ | _⟩
    · rfl
    · dsimp only
      rw [enumList_append, enumFixed_eq]
      rcases enumList callback (visitsFixed enc 0 fixedArgs) s' with ⟨s'', _ | _⟩
      · rfl
      · exact enumVariable_eq _ variableArgs s''

theorem enumFixed_eq (enc : AmlByteEncoding) (index : Nat) (nodes : List AmlNode) (s : σ) :
    enumFixed callback enc index nodes s = enumList callback (visitsFixed enc index nodes) s := by
  cases nodes with
  | nil => rfl
  | cons node rest =>
    rw [enumFixed, visitsFixed, enumList_append, amlEnumTree_eq]
    rcases enumList callback (visits node (.fixedArgument enc index)) s with ⟨s', _ | _⟩
    · rfl
    · exact enumFixed_eq enc (index + 1) rest s'

theorem enumVariable_eq (place : Place) (nodes : List AmlNode) (s : σ) :
    enumVariable callback place nodes s = enumList callback (visitsVariable place nodes) s := by
  cases nodes with
  | nil => rfl
  | cons node rest =>
    rw [enumVariable, visitsVariable, enumList_append, amlEnumTree_eq]
    rcases enumList callback (visits node place) s with ⟨s', _ | _⟩
    · rfl
    · exact enumVariable_eq place rest s'

end

end MuBasecore.AmlTree
