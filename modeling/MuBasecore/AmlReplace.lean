import MuBasecore.EfiTypes
import MuBasecore.LinkedPath

/-!
`AmlReplaceVariableArgument`. The new node is linked behind the successor of the old one, and under
a root it is data nodes that are accepted.
-/

namespace MuBasecore.AmlReplace

open EfiTypes LinkedPath List Function

section Lists

variable {α : Type} [DecidableEq α]

/-- The two links of each `LIST_ENTRY`. -/
structure Links (α : Type) where
  forward : α → α
  back : α → α

def Links.setForward (s : Links α) (entry link : α) : Links α :=
  { s with forward := update s.forward entry link }

def Links.setBack (s : Links α) (entry link : α) : Links α :=
  { s with back := update s.back entry link }

def initializeListHead (s : Links α) (listHead : α) : Links α :=
  (s.setForward listHead listHead).setBack listHead listHead

def insertHeadList (s : Links α) (listHead entry : α) : Links α :=
  let s := s.setForward entry (s.forward listHead)
  let s := s.setBack entry listHead
  let s := s.setBack (s.forward entry) entry
  s.setForward listHead entry

def removeEntryList (s : Links α) (entry : α) : Links α × α :=
  let s := s.setBack (s.forward entry) (s.back entry)
  let s := s.setForward (s.back entry) (s.forward entry)
  (s, s.forward entry)

/-- The old entry is taken out, and the new one goes in behind the successor of the old one. -/
def relink (s : Links α) (oldEntry newEntry : α) : Links α :=
  let (s, nextLink) := removeEntryList s oldEntry
  insertHeadList (initializeListHead s oldEntry) nextLink newEntry

/-- From the head the entries are met, and then the head again; each entry is behind the one it
leads to. -/
structure Ring (s : Links α) (head : α) (l : List α) : Prop where
  forward : Path s.forward head (head :: l) head
  back : ∀ e ∈ head :: l, s.back (s.forward e) = e
  nodup : (head :: l).Nodup

variable {s : Links α} {f : α → α} {head x y z new : α} {front rest : List α}

theorem removeEntryList_eq : removeEntryList s x =
    (⟨update s.forward (s.back x) (s.forward x),
      update s.back (s.forward x) (s.back x)⟩, s.forward x) := by
  simp [removeEntryList, Links.setBack, Links.setForward, update_apply]

theorem path_remove (h : Path f head (front ++ y :: x :: rest) z)
    (hnd : (front ++ y :: x :: rest).Nodup) :
    Path (update f y (f x)) head (front ++ y :: rest) z := by
  obtain ⟨m, hfront, hm, -, hrest⟩ := path_append.1 h
  have hnot := (nodup_cons.1 (nodup_middle.1 hnd)).1
  have hsame : ∀ e ∈ front ++ x :: rest, update f y (f x) e = f e := fun e he =>
    update_of_ne (ne_of_mem_of_not_mem he hnot) ..
  refine path_append.2 ⟨m, hfront.congr fun e he => hsame e (by simp [he]), hm, ?_⟩
  rw [update_self]
  exact hrest.congr fun e he => hsame e (by simp [he])

theorem path_insert (h : Path f head (front ++ y :: rest) z) (hnd : (front ++ y :: rest).Nodup)
    (hnew : new ∉ front ++ y :: rest) :
    Path (update (update f new (f y)) y new) head (front ++ y :: new :: rest) z := by
  obtain ⟨m, hfront, hm, hrest⟩ := path_append.1 h
  have hnot := (nodup_cons.1 (nodup_middle.1 hnd)).1
  have hsame : ∀ e ∈ front ++ rest, update (update f new (f y)) y new e = f e := by
    intro e he
    rw [update_of_ne (ne_of_mem_of_not_mem he hnot), update_of_ne]
    rintro rfl
    simp at he hnew
    tauto
  refine path_append.2 ⟨m, hfront.congr fun e he => hsame e (by simp [he]), hm,
    update_self .., ?_⟩
  rw [update_of_ne fun heq => hnew (by simp [heq]), update_self]
  exact hrest.congr fun e he => hsame e (by simp [he])

theorem Ring.remove (h : Ring s head (front ++ x :: rest)) :
    Path (update s.forward (s.back x) (s.forward x)) head (head :: (front ++ rest)) head := by
  obtain ⟨init, y, hlast⟩ := (eq_nil_or_concat' (head :: front)).resolve_left nofun
  have hsplit : ∀ l, head :: (front ++ l) = init ++ y :: l := by
    intro l
    rw [← cons_append, hlast, append_assoc]
    rfl
  obtain ⟨hfwd, hback, hnd⟩ := h
  rw [hsplit] at hfwd hback hnd ⊢
  obtain ⟨m, -, -, hx, -⟩ := path_append.1 hfwd
  have hy := hback y (by simp)
  rw [hx] at hy
  rw [hy]
  exact path_remove hfwd hnd

/-- The list with the new entry behind the successor of the old one, or in front of all. -/
def relinked (front : List α) (new : α) : List α → List α
  | [] => new :: front
  | y :: ys => front ++ y :: new :: ys

theorem Ring.relink (h : Ring s head (front ++ x :: rest))
    (hnew : new ∉ head :: (front ++ x :: rest)) :
    Path (relink s x new).forward head (head :: relinked front new rest) head ∧
      (relink s x new).forward x = x := by
  have hnd := h.nodup
  rw [← cons_append, nodup_middle] at hnd
  obtain ⟨hx, hnd⟩ := nodup_cons.1 hnd
  obtain ⟨m, -, -, hnext⟩ := path_append.1 h.forward.2
  have hrem := h.remove
  rw [AmlReplace.relink, removeEntryList_eq]
  simp only [insertHeadList, initializeListHead, Links.setForward, Links.setBack]
  generalize update s.forward (s.back x) (s.forward x) = f at hrem ⊢
  have hcut : Path (update f x x) head (head :: front ++ rest) head :=
    hrem.congr fun e he => update_of_ne (ne_of_mem_of_not_mem he hx) ..
  have hself : update f x x x = x := update_self ..
  generalize update f x x = f at hcut hself ⊢
  have hnew' : new ∉ head :: front ++ rest := by
    simp at hnew ⊢
    tauto
  have hstays : ∀ y ∈ head :: front ++ rest, update (update f new (f y)) y new x = x := by
    intro y hy
    rw [update_of_ne (ne_of_mem_of_not_mem hy hx).symm, update_of_ne, hself]
    exact fun heq => hnew (by simp [heq])
  cases rest with
  | nil =>
    have hlink : s.forward x = head := hnext
    rw [append_nil, ← nil_append (head :: front)] at hcut hnew' hnd
    have hins := path_insert hcut hnd hnew'
    rw [hlink]
    exact ⟨hins, hstays head (by simp)⟩
  | cons y ys =>
    have hlink : s.forward x = y := hnext.1
    rw [hlink]
    exact ⟨path_insert hcut hnd hnew', hstays y (by simp)⟩

end Lists

inductive NodeDataType
  | none | reserved (index : Fin 5) | nameString | string | uInt | raw | resourceData | fieldPkgLen

/-- `NodeType`, with what is checked of object and data nodes. -/
inductive NodeType
  | root
  | object (hasByteList hasFieldList isFieldElement : Bool)
  | data (dataType : NodeDataType)

inductive ListEntry
  | head (parent : Nat)
  | link (node : Nat)
deriving DecidableEq

structure Tree where
  nodeType : Nat → NodeType
  parent : Nat → Option Nat
  fixedArgs : Nat → List Nat
  links : Links ListEntry

def NodeType.isData : NodeType → Bool
  | .data _ => true
  | _ => false

def NodeType.isObject : NodeType → Bool
  | .object .. => true
  | _ => false

def Tree.detached (t : Tree) (node : Nat) : Bool :=
  t.links.forward (.link node) == .link node && t.parent node == none

def amlIsNodeFixedArgument (t : Tree) (node : Nat) : Bool :=
  match t.parent node with
  | some p => (t.nodeType p).isObject && (t.fixedArgs p).contains node
  | none => false

/-- What the parent asks of the new node. -/
def NodeType.takes : NodeType → NodeType → Bool
  | .object true _ _, .data .raw => true
  | .object true _ _, .data .resourceData => true
  | .object true _ _, _ => false
  | .object false true _, .object _ _ isFieldElement => isFieldElement
  | .object false true _, _ => false
  | .object false false _, _ => true
  | .root, newNode => newNode.isData
  | .data _, _ => false

def replaceAccepted (t : Tree) (oldNode newNode : Nat) : Bool :=
  ((t.nodeType oldNode).isData || (t.nodeType oldNode).isObject) &&
  ((t.nodeType newNode).isData || (t.nodeType newNode).isObject) &&
  t.detached newNode && !t.detached oldNode && !amlIsNodeFixedArgument t oldNode &&
  match t.parent oldNode with
  | some p => (t.nodeType p).takes (t.nodeType newNode)
  | none => false

/-- `propagated` is the status of `AmlComputeSize` and `AmlPropagateInformation`, which change no
list of arguments. -/
def amlReplaceVariableArgument (t : Tree) (oldNode newNode : Nat) (propagated : EfiStatus) :
    Tree × EfiStatus :=
  if replaceAccepted t oldNode newNode then
    ({ t with
      links := relink t.links (.link oldNode) (.link newNode)
      parent := update (update t.parent oldNode none) newNode
        (t.parent oldNode) }, propagated)
  else (t, .invalidParameter)

/-- The variable arguments, as they are met from the head of the list. -/
def Lists (t : Tree) (p : Nat) (l : List Nat) : Prop :=
  Path t.links.forward (t.links.forward (.head p)) (l.map .link) (.head p)

/-- The old node is a variable argument, and the new one may take its place. -/
structure Replaces (t : Tree) (p : Nat) (front : List Nat) (oldNode : Nat) (rest : List Nat)
    (newNode : Nat) : Prop where
  ring : Ring t.links (.head p) ((front ++ oldNode :: rest).map .link)
  parents : ∀ n ∈ front ++ oldNode :: rest, t.parent n = some p
  notFixed : oldNode ∉ t.fixedArgs p
  oldType : (t.nodeType oldNode).isData || (t.nodeType oldNode).isObject
  newType : (t.nodeType newNode).isData || (t.nodeType newNode).isObject
  detached : t.detached newNode
  parentType : t.nodeType p = .root ∨ (t.nodeType p).isObject
  admissible : t.nodeType p ≠ .root → (t.nodeType p).takes (t.nodeType newNode)

/-- The new node takes the place of the old one, which gets detached. -/
def Substitutes (t : Tree) (p : Nat) (front : List Nat) (oldNode : Nat) (rest : List Nat)
    (newNode : Nat) : Prop :=
  (∀ propagated t', amlReplaceVariableArgument t oldNode newNode propagated = (t', .success) →
    Lists t' p (front ++ newNode :: rest) ∧ t'.detached oldNode) ∧
  (t.nodeType p = .root →
    (replaceAccepted t oldNode newNode ↔ (t.nodeType newNode).isObject))

variable {t : Tree} {p oldNode newNode : Nat} {front rest : List Nat}

theorem Replaces.not_mem (h : Replaces t p front oldNode rest newNode) :
    newNode ∉ front ++ oldNode :: rest := by
  intro hmem
  have hdet := h.detached
  simp [Tree.detached, h.parents newNode hmem] at hdet

theorem Replaces.lists (h : Replaces t p front oldNode rest newNode)
    (haccept : replaceAccepted t oldNode newNode) (status : EfiStatus) :
    Lists (amlReplaceVariableArgument t oldNode newNode status).1 p (relinked front newNode rest) ∧
      (amlReplaceVariableArgument t oldNode newNode status).1.detached oldNode := by
  have hring := h.ring
  rw [map_append, map_cons] at hring
  have hnew := h.not_mem
  have hlink : ListEntry.link newNode ∉
      .head p :: (front.map .link ++ .link oldNode :: rest.map .link) := by simpa using hnew
  obtain ⟨hpath, hself⟩ := hring.relink hlink
  have hold : oldNode ≠ newNode := by
    rintro rfl
    simp at hnew
  rw [amlReplaceVariableArgument, if_pos haccept]
  refine ⟨?_, ?_⟩
  · rw [Lists]
    have hmap : (relinked front newNode rest).map ListEntry.link =
        relinked (front.map .link) (.link newNode) (rest.map .link) := by
      cases rest <;> simp [relinked]
    rw [hmap]
    exact hpath.2
  · simp [Tree.detached, hself, update_of_ne hold]

theorem relinked_eq_iff (hnew : newNode ∉ front ++ oldNode :: rest) :
    relinked front newNode rest = front ++ newNode :: rest ↔ front = [] ∧ rest = [] := by
  cases rest with
  | nil =>
    cases front with
    | nil => simp [relinked]
    | cons a front =>
      simp at hnew
      simp [relinked, hnew.1]
  | cons y ys =>
    simp at hnew
    simp [relinked, Ne.symm hnew.2.2.1]

theorem Replaces.accepted_eq (h : Replaces t p front oldNode rest newNode) :
    replaceAccepted t oldNode newNode = (t.nodeType p).takes (t.nodeType newNode) := by
  have hparent : t.parent oldNode = some p := h.parents oldNode (by simp)
  have hold : t.detached oldNode = false := by simp [Tree.detached, hparent]
  simp [replaceAccepted, amlIsNodeFixedArgument, hparent, hold, h.oldType, h.newType, h.detached,
    h.notFixed]

theorem Lists.unique {l l' : List Nat} (h : Lists t p l) (h' : Lists t p l') : l = l' := by
  have hstop : ∀ l : List Nat, ∀ e ∈ l.map ListEntry.link, ¬ e = ListEntry.head p := by simp
  have heq := Path.unique (· = ListEntry.head p) h h' (hstop l) (hstop l') rfl rfl
  exact map_injective_iff.2 (fun _ _ => ListEntry.link.inj) heq

/-- Just in a list of one argument, under an object, is the new node put in the place of the old
one. -/
theorem amlReplaceVariableArgument_substitutes_iff (h : Replaces t p front oldNode rest newNode) :
    Substitutes t p front oldNode rest newNode ↔ t.nodeType p ≠ .root ∧ front = [] ∧ rest = [] := by
  by_cases hroot : t.nodeType p = .root
  · refine iff_of_false (fun hsub => ?_) fun hcond => hcond.1 hroot
    have htakes := hsub.2 hroot
    have hnew := h.newType
    rw [h.accepted_eq, hroot, NodeType.takes] at htakes
    cases htype : t.nodeType newNode <;>
      simp [htype, NodeType.isData, NodeType.isObject] at htakes hnew
  · have haccept : replaceAccepted t oldNode newNode := h.accepted_eq.trans (h.admissible hroot)
    have hstatus : ∀ status, (amlReplaceVariableArgument t oldNode newNode status).2 = status := by
      intro status
      rw [amlReplaceVariableArgument, if_pos haccept]
    constructor
    · intro hsub
      have hlist := (hsub.1 .success _ (Prod.ext rfl (hstatus .success))).1
      exact ⟨hroot, (relinked_eq_iff h.not_mem).1 ((h.lists haccept _).1.unique hlist)⟩
    · rintro ⟨-, hone⟩
      refine ⟨fun status t' hres => ?_, fun heq => absurd heq hroot⟩
      have hlists := h.lists haccept status
      rwa [(relinked_eq_iff h.not_mem).2 hone, hres] at hlists

/-- The nodes from `1` on are the arguments of the node `0`. -/
def argumentTree (last : Nat) : Tree where
  nodeType n := if n = 0 then .object false false false else .data .raw
  parent n := if 1 ≤ n ∧ n ≤ last then some 0 else none
  fixedArgs _ := []
  links.forward
    | .head _ => .link 1
    | .link n => if n = last then .head 0 else if n < last then .link (n + 1) else .link n
  links.back
    | .head _ => .link last
    | .link n => if n = 1 then .head 0 else .link (n - 1)

theorem onlyArgument_substituted : Substitutes (argumentTree 1) 0 [] 1 [] 3 := by
  have h : Replaces (argumentTree 1) 0 [] 1 [] 3 :=
    ⟨⟨⟨rfl, rfl, rfl⟩, by decide, by decide⟩, by decide, by decide, rfl, rfl, rfl, .inr rfl,
      fun _ => rfl⟩
  exact (amlReplaceVariableArgument_substitutes_iff h).2 ⟨nofun, rfl, rfl⟩

theorem firstArgument_moved : Replaces (argumentTree 2) 0 [] 1 [2] 3 ∧
    (amlReplaceVariableArgument (argumentTree 2) 1 3 .success).2 = .success ∧
    Lists (amlReplaceVariableArgument (argumentTree 2) 1 3 .success).1 0 [2, 3] :=
  ⟨⟨⟨⟨rfl, rfl, rfl, rfl⟩, by decide, by decide⟩, by decide, by decide, rfl, rfl, rfl, .inr rfl,
    fun _ => rfl⟩, rfl, rfl, rfl, rfl⟩

end MuBasecore.AmlReplace
