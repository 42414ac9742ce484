import MuBasecore.EfiTypes
import MuBasecore.NestedNotify

/-!
The notifications of the DXE and MM policy service, with callbacks that may call the
service again. One step is a call of the service up to its first callback, the way of
`CommonPolicyNotify` to the next entry of the list of callbacks, or the return of a
callback.

The lock of the policy list is left out. The one of `PolicyMm.c` does nothing. The one of
`PolicyDxe.c` is held while the callbacks run, so that in a build with assertions a nested
call stops at the `ASSERT` of `EfiAcquireLock`; in a build without them it goes on as here.
-/

namespace MuBasecore.PolicyNotifyDxe

open EfiTypes NestedNotify Function Registered List

def policyNotifySet : BitVec 32 := 1
def policyNotifyFinalized : BitVec 32 := 2
def policyNotifyRemoved : BitVec 32 := 4
def policyNotifyAll : BitVec 32 := 7

/-- `POLICY_ATTRIBUTE_FINALIZED`. -/
def isFinalized (attributes : BitVec 64) : Bool := attributes.getLsbD 0

/-- A `POLICY_ENTRY` without the bytes of the policy. -/
structure PolicyEntry where
  policyGuid : Guid
  attributes : BitVec 64
  fromHob : Bool
  allocationSize : Nat
  notifyDepth : Nat
  freeAfterNotify : Bool

structure NotifyEntry where
  policyGuid : Guid
  eventTypes : BitVec 32
  priority : Nat
  tombstone : Bool

/-- The variables of a running `CommonPolicyNotify`; `link` is the entry of the list the
loop has come to. The number of the event is not part of the code. -/
structure NotifyFrame where
  policyEntry : Nat
  eventTypes : BitVec 32
  firstNotification : Bool
  depth : Nat
  link : Option Nat
  calling : Bool
  event : Nat

structure DxeState where
  entries : Nat → PolicyEntry
  nextEntry : Nat
  policyList : List Nat
  notifies : Nat → NotifyEntry
  nextNotify : Nat
  notifyList : List Nat
  notifyInProgress : Bool
  callbacksDeleted : Bool
  stack : List NotifyFrame
  events : Nat
  trace : List (Guid × Nat)

def getPolicyEntry (guid : Guid) (s : DxeState) : Option Nat :=
  s.policyList.find? fun e => guid == (s.entries e).policyGuid

def setDepth (e depth : Nat) (entries : Nat → PolicyEntry) : Nat → PolicyEntry :=
  Function.update entries e { entries e with notifyDepth := depth }

/-- The beginning of `CommonPolicyNotify`. At the maximal depth it returns at once. -/
def beginNotify (eventTypes : BitVec 32) (e : Nat) (s : DxeState) : DxeState :=
  let firstNotification := !s.notifyInProgress
  let depth := (s.entries e).notifyDepth + 1
  if (s.entries e).notifyDepth = 0xFFFFFFFF then
    { s with notifyInProgress := true, events := s.events + 1 }
  else
    { s with
      notifyInProgress := true
      events := s.events + 1
      entries := setDepth e depth s.entries
      stack := ⟨e, eventTypes, firstNotification, depth, none, false, s.events⟩ :: s.stack }

/-- The end of `CommonPolicyNotify`. An entry that is freed is not used again. -/
def endNotify (f : NotifyFrame) (rest : List NotifyFrame) (s : DxeState) : DxeState :=
  let s := if f.depth = 1 then { s with entries := setDepth f.policyEntry 0 s.entries } else s
  let s :=
    if f.firstNotification then
      { s with
        notifyList :=
          if s.callbacksDeleted then s.notifyList.filter fun n => !(s.notifies n).tombstone
          else s.notifyList
        callbacksDeleted := false
        notifyInProgress := false }
    else s
  { s with stack := rest }

def nextLink (notifyList : List Nat) : Option Nat → Option Nat
  | none => notifyList.head?
  | some n => (notifyList.dropWhile (· != n)).tail.head?

/-- The loop of `CommonPolicyNotify` goes on to the next link, and calls its callback if it
is one for the event. -/
def advance (f : NotifyFrame) (rest : List NotifyFrame) (s : DxeState) : DxeState :=
  match nextLink s.notifyList f.link with
  | none => endNotify f rest s
  | some n =>
    let policyGuid := (s.entries f.policyEntry).policyGuid
    let notifyEntry := s.notifies n
    if policyGuid = notifyEntry.policyGuid ∧ f.eventTypes &&& notifyEntry.eventTypes ≠ 0 ∧
        !notifyEntry.tombstone then
      { s with
        stack := { f with link := some n, calling := true } :: rest
        trace := (policyGuid, f.event) :: s.trace }
    else { s with stack := { f with link := some n } :: rest }

def callbackReturned (f : NotifyFrame) (rest : List NotifyFrame) (s : DxeState) : DxeState :=
  if (s.entries f.policyEntry).notifyDepth ≠ f.depth then endNotify f rest s
  else { s with stack := { f with calling := false } :: rest }

def setEvents (attributes : BitVec 64) : BitVec 32 :=
  policyNotifySet ||| (if isFinalized attributes then policyNotifyFinalized else 0)

/-- `CommonSetPolicy`; the two flags say whether the pool has memory for the entry and for
the policy. -/
def commonSetPolicy (guid : Guid) (attributes : BitVec 64) (policySize : Nat)
    (entryPool policyPool : Bool) (s : DxeState) : DxeState :=
  if policySize = 0 then s
  else
    match getPolicyEntry guid s with
    | some e =>
      let entry := s.entries e
      if isFinalized entry.attributes then s
      else if !entry.fromHob ∧ policySize ≤ entry.allocationSize then
        beginNotify (setEvents attributes) e
          { s with entries := Function.update s.entries e { entry with attributes := attributes } }
      else if !policyPool then s
      else
        beginNotify (setEvents attributes) e
          { s with
            entries := Function.update s.entries e
              { entry with
                attributes := attributes, allocationSize := policySize, fromHob := false } }
    | none =>
      if !entryPool then s
      else if !policyPool then s
      else
        beginNotify (setEvents attributes) s.nextEntry
          { s with
            entries := Function.update s.entries s.nextEntry
              ⟨guid, attributes, false, policySize, 0, false⟩
            nextEntry := s.nextEntry + 1
            policyList := s.policyList ++ [s.nextEntry] }

def commonRemovePolicy (guid : Guid) (s : DxeState) : DxeState :=
  match getPolicyEntry guid s with
  | none => s
  | some e =>
    beginNotify policyNotifyRemoved e
      { s with
        policyList := s.policyList.erase e
        entries := Function.update s.entries e { s.entries e with freeAfterNotify := true } }

def commonRegisterNotify (guid : Guid) (eventTypes : BitVec 32) (priority : Nat) (pool : Bool)
    (s : DxeState) : DxeState :=
  if eventTypes &&& policyNotifyAll ≠ eventTypes then s
  else if !pool then s
  else
    { s with
      notifies := Function.update s.notifies s.nextNotify ⟨guid, eventTypes, priority, false⟩
      nextNotify := s.nextNotify + 1
      notifyList :=
        s.notifyList.takeWhile (fun n => (s.notifies n).priority ≤ priority) ++
          s.nextNotify :: s.notifyList.dropWhile (fun n => (s.notifies n).priority ≤ priority) }

def commonUnregisterNotify (handle : Nat) (s : DxeState) : DxeState :=
  if handle ∉ s.notifyList then s
  else if s.notifyInProgress then
    { s with
      notifies := Function.update s.notifies handle { s.notifies handle with tombstone := true }
      callbacksDeleted := true }
  else { s with notifyList := s.notifyList.erase handle }

inductive DxeCall
  | setPolicy (guid : Guid) (attributes : BitVec 64) (policySize : Nat)
      (entryPool policyPool : Bool)
  | removePolicy (guid : Guid)
  | registerNotify (guid : Guid) (eventTypes : BitVec 32) (priority : Nat) (pool : Bool)
  | unregisterNotify (handle : Nat)

def DxeCall.run (s : DxeState) : DxeCall → DxeState
  | .setPolicy guid attributes policySize entryPool policyPool =>
    commonSetPolicy guid attributes policySize entryPool policyPool s
  | .removePolicy guid => commonRemovePolicy guid s
  | .registerNotify guid eventTypes priority pool =>
    commonRegisterNotify guid eventTypes priority pool s
  | .unregisterNotify handle => commonUnregisterNotify handle s

inductive DxeAction
  | call (call : DxeCall)
  | callbackReturns
  | goOn

def DxeState.step (s : DxeState) : DxeAction → DxeState
  | .call call =>
    match s.stack with
    | [] => call.run s
    | f :: _ => if f.calling then call.run s else s
  | .callbackReturns =>
    match s.stack with
    | [] => s
    | f :: rest => if f.calling then callbackReturned f rest s else s
  | .goOn =>
    match s.stack with
    | [] => s
    | f :: rest => if f.calling then s else advance f rest s

def DxeState.Allowed (s : DxeState) : DxeAction → Prop
  | .call (.setPolicy guid _ policySize entryPool policyPool) =>
    policySize ≠ 0 → entryPool = true → policyPool = true → getPolicyEntry guid s = none →
      ∀ f ∈ s.stack, (s.entries f.policyEntry).policyGuid = guid →
        (s.entries f.policyEntry).notifyDepth ≠ f.depth
  | _ => True

def frameOf (s : DxeState) (f : NotifyFrame) : Frame Guid :=
  ⟨f.policyEntry, (s.entries f.policyEntry).policyGuid, f.event, f.depth, f.calling⟩

def nested (s : DxeState) : State Guid where
  counter := fun e => (s.entries e).notifyDepth
  stack := s.stack.map (frameOf s)
  nextEvent := s.events
  trace := s.trace

def AtCall (s : DxeState) : Prop := ∀ f ∈ s.stack.head?, f.calling = true

variable {f : NotifyFrame} {rest : List NotifyFrame}

section Nested

variable {s s' : DxeState} {e : Nat}

section

variable (hguid : ∀ e, (s'.entries e).policyGuid = (s.entries e).policyGuid)
include hguid

theorem frameOf_eq : frameOf s' = frameOf s := by
  funext f
  rw [frameOf, frameOf, hguid]

theorem nested_eq (hdep : ∀ e, (s'.entries e).notifyDepth = (s.entries e).notifyDepth)
    (hstk : s'.stack = s.stack) (hevs : s'.events = s.events) (htrace : s'.trace = s.trace) :
    nested s' = nested s := by
  rw [nested, nested, frameOf_eq hguid, hstk, hevs, htrace]
  simp only [hdep]

end

theorem setDepth_guid (e depth : Nat) (entries : Nat → PolicyEntry) (x : Nat) :
    (setDepth e depth entries x).policyGuid = (entries x).policyGuid :=
  apply_update_of_eq PolicyEntry.policyGuid (by rfl) x

theorem setDepth_depth (e depth : Nat) (entries : Nat → PolicyEntry) :
    (fun x => (setDepth e depth entries x).notifyDepth) =
      update (fun x => (entries x).notifyDepth) e depth :=
  comp_update PolicyEntry.notifyDepth _ _ _

theorem atCall_nested (hcall : AtCall s) : (nested s).AtCall := by
  intro g hg
  rw [nested, head?_map] at hg
  obtain ⟨f, hf, rfl⟩ := Option.map_eq_some_iff.1 hg
  exact hcall f hf

theorem nested_beginNotify (types : BitVec 32) :
    nested (beginNotify types e s) = (nested s).skip ∨
      nested (beginNotify types e s) = (nested s).enter e (s.entries e).policyGuid := by
  rw [beginNotify]
  split
  case isTrue => exact .inl rfl
  case isFalse =>
    refine .inr ?_
    rw [nested, frameOf_eq (s := s) (setDepth_guid _ _ _), setDepth_depth]
    rfl

theorem nested_endNotify :
    nested (endNotify f rest s) = (nested s).leave (frameOf s f) (rest.map (frameOf s)) := by
  have hents : (endNotify f rest s).entries =
      if f.depth = 1 then setDepth f.policyEntry 0 s.entries else s.entries := by
    rw [endNotify]
    split <;> split <;> rfl
  have hguid : ∀ x, ((endNotify f rest s).entries x).policyGuid = (s.entries x).policyGuid := by
    intro x
    rw [hents]
    split
    · exact setDepth_guid _ _ _ x
    · rfl
  have hdep : (fun x => ((endNotify f rest s).entries x).notifyDepth) =
      if f.depth = 1 then update (fun x => (s.entries x).notifyDepth) f.policyEntry 0
      else fun x => (s.entries x).notifyDepth := by
    rw [hents]
    split
    · exact setDepth_depth _ _ _
    · rfl
  have hevs : (endNotify f rest s).events = s.events := by
    rw [endNotify]
    split <;> split <;> rfl
  have htrace : (endNotify f rest s).trace = s.trace := by
    rw [endNotify]
    split <;> split <;> rfl
  rw [nested, hdep, frameOf_eq hguid, hevs, htrace]
  rfl

end Nested

def objects (s : DxeState) : Objects Guid where
  keyOf := fun e => (s.entries e).policyGuid
  next := s.nextEntry
  listed := s.policyList

def DxeInv (s : DxeState) : Prop := Registered (objects s) (nested s)

variable {entry : PolicyEntry} {guid : Guid}

section Steps

variable {s : DxeState}

theorem nested_stack (hstk : s.stack = f :: rest) :
    (nested s).stack = frameOf s f :: rest.map (frameOf s) := by
  rw [nested, hstk, map_cons]

section

variable (hinv : DxeInv s)
include hinv

section

variable (hstk : s.stack = f :: rest)
include hstk

theorem DxeInv.endNotify : DxeInv (endNotify f rest s) := by
  have hobjs : objects (PolicyNotifyDxe.endNotify f rest s) = objects s := by
    rw [PolicyNotifyDxe.endNotify]
    split <;> split <;> first | rfl | (simp only [objects, setDepth_guid])
  rw [DxeInv, hobjs, nested_endNotify]
  exact leave hinv (nested_stack hstk)

theorem DxeInv.advance (hcalls : f.calling = false) : DxeInv (advance f rest s) := by
  have hnest := nested_stack hstk
  rw [PolicyNotifyDxe.advance]
  split
  case h_1 => exact hinv.endNotify hstk
  case h_2 n _ =>
    dsimp only
    split
    · exact invoke hinv hnest hcalls
    · have hact := hinv.inv.running (frameOf s f) (by rw [hnest]; rfl) hcalls
      have hkept := resume hinv hnest hact
      rw [State.resume, ← hcalls] at hkept
      exact hkept

theorem DxeInv.callbackReturned : DxeInv (callbackReturned f rest s) := by
  rw [PolicyNotifyDxe.callbackReturned]
  split
  case isTrue => exact hinv.endNotify hstk
  case isFalse hsame => exact resume hinv (nested_stack hstk) (not_not.1 hsame)

end

theorem DxeInv.beginNotify (hcall : AtCall s) {e : Nat} (he : e < s.nextEntry)
    (hqt : (nested s).QuietBut (s.entries e).policyGuid e)
    (honly : ∀ x ∈ s.policyList, (s.entries x).policyGuid = (s.entries e).policyGuid → x = e)
    (types : BitVec 32) : DxeInv (beginNotify types e s) := by
  have hobjs : objects (PolicyNotifyDxe.beginNotify types e s) = objects s := by
    rw [PolicyNotifyDxe.beginNotify]
    split
    · rfl
    · simp only [objects, setDepth_guid]
  rw [DxeInv, hobjs]
  rcases nested_beginNotify (s := s) (e := e) types with h | h
  · rw [h]
    exact skip hinv
  · rw [h]
    exact enter hinv (atCall_nested hcall) he hqt honly

theorem DxeInv.notifyEntry (hcall : AtCall s) {e : Nat} (he : e ∈ s.policyList)
    (hguid : entry.policyGuid = (s.entries e).policyGuid)
    (hdep : entry.notifyDepth = (s.entries e).notifyDepth) {policyList : List Nat}
    (hsub : policyList ⊆ s.policyList) (types : BitVec 32) :
    DxeInv (PolicyNotifyDxe.beginNotify types e { s with
      entries := update s.entries e entry, policyList := policyList }) := by
  have hguids := apply_update_of_eq PolicyEntry.policyGuid hguid
  have hdepths := apply_update_of_eq PolicyEntry.notifyDepth hdep
  have hnest : nested { s with
      entries := update s.entries e entry, policyList := policyList } = nested s :=
    nested_eq hguids hdepths rfl rfl rfl
  have hobjs : objects { s with
      entries := update s.entries e entry, policyList := policyList } =
        { objects s with listed := policyList } := by
    simp only [objects, hguids]
  apply DxeInv.beginNotify
  · rw [DxeInv, hobjs, hnest]
    exact unlist hinv hsub
  · exact hcall
  · exact hinv.listed_lt e he
  · rw [hnest]
    rw [hguids]
    exact hinv.quiet e he
  · intro x hx heq
    rw [hguids, hguids] at heq
    exact hinv.unique x (hsub hx) e he heq

theorem DxeInv.notifyNew (hcall : AtCall s) (hdep : entry.notifyDepth = 0)
    (hnew : ∀ e ∈ s.policyList, (s.entries e).policyGuid ≠ entry.policyGuid)
    (hqt : ∀ f ∈ s.stack, (s.entries f.policyEntry).policyGuid = entry.policyGuid →
      (s.entries f.policyEntry).notifyDepth ≠ f.depth) (types : BitVec 32) :
    DxeInv (PolicyNotifyDxe.beginNotify types s.nextEntry { s with
      entries := update s.entries s.nextEntry entry
      nextEntry := s.nextEntry + 1
      policyList := s.policyList ++ [s.nextEntry] }) := by
  generalize hs' : ({ s with
    entries := update s.entries s.nextEntry entry
    nextEntry := s.nextEntry + 1
    policyList := s.policyList ++ [s.nextEntry] } : DxeState) = s'
  have hobjs : objects s' = (objects s).create entry.policyGuid := by
    rw [← hs', objects, Objects.create]
    congr 1
    exact comp_update PolicyEntry.policyGuid _ _ _
  have hnest : nested s' = (nested s).clear s.nextEntry := by
    rw [nested, nested, State.clear, ← hs']
    congr 1
    · rw [← hdep]
      exact comp_update PolicyEntry.notifyDepth _ _ _
    · apply map_congr_left
      intro f hf
      rw [frameOf, frameOf]
      dsimp only
      have hlt : f.policyEntry < s.nextEntry := hinv.frame_lt _ (mem_map_of_mem hf)
      rw [update_of_ne (Nat.ne_of_lt hlt)]
  have hinv' : DxeInv s' := by
    rw [DxeInv, hobjs, hnest]
    refine create hinv hnew fun g hg hkey hact => ?_
    obtain ⟨f, hf, rfl⟩ := mem_map.1 hg
    exact hqt f hf hkey hact
  have hn : s.nextEntry ∈ s'.policyList := by
    rw [← hs']
    exact mem_append_right _ (mem_singleton_self _)
  have hcall' : AtCall s' := by
    rw [← hs']
    exact hcall
  exact hinv'.beginNotify hcall' (hinv'.listed_lt _ hn) (hinv'.quiet _ hn)
    (fun x hx => hinv'.unique x hx s.nextEntry hn) types

end

theorem getPolicyEntry_some {e : Nat} (h : getPolicyEntry guid s = some e) : e ∈ s.policyList :=
  mem_of_find?_eq_some h

theorem getPolicyEntry_none (h : getPolicyEntry guid s = none) :
    ∀ e ∈ s.policyList, (s.entries e).policyGuid ≠ guid := by
  intro e he heq
  have := find?_eq_none.1 h e he
  exact this (by simp [heq])

section

variable (hinv : DxeInv s) (hcall : AtCall s)
include hinv hcall

theorem DxeInv.commonSetPolicy {attrs : BitVec 64} {policySize : Nat} {entryPool policyPool : Bool}
    (hqt : policySize ≠ 0 → entryPool = true → policyPool = true →
      getPolicyEntry guid s = none → ∀ f ∈ s.stack,
        (s.entries f.policyEntry).policyGuid = guid →
          (s.entries f.policyEntry).notifyDepth ≠ f.depth) :
    DxeInv (commonSetPolicy guid attrs policySize entryPool policyPool s) := by
  rw [PolicyNotifyDxe.commonSetPolicy]
  split
  · exact hinv
  rename_i hsize
  cases hget : getPolicyEntry guid s with
  | some e =>
    have he := getPolicyEntry_some hget
    dsimp only
    split
    · exact hinv
    split
    · refine hinv.notifyEntry hcall he ?_ ?_ (List.Subset.refl _) _ <;> rfl
    split
    · exact hinv
    · refine hinv.notifyEntry hcall he ?_ ?_ (List.Subset.refl _) _ <;> rfl
  | none =>
    dsimp only
    split
    · exact hinv
    rename_i hent
    split
    · exact hinv
    rename_i hpol
    exact hinv.notifyNew hcall rfl (getPolicyEntry_none hget)
      (hqt hsize (by simpa using hent) (by simpa using hpol) hget) _

theorem DxeInv.commonRemovePolicy : DxeInv (commonRemovePolicy guid s) := by
  rw [PolicyNotifyDxe.commonRemovePolicy]
  cases hget : getPolicyEntry guid s with
  | none => exact hinv
  | some e =>
    refine hinv.notifyEntry hcall (getPolicyEntry_some hget) ?_ ?_ erase_subset _ <;> rfl

theorem DxeInv.run {call : DxeCall} (halw : s.Allowed (.call call)) : DxeInv (call.run s) := by
  cases call with
  | setPolicy guid attrs policySize entryPool policyPool =>
    exact hinv.commonSetPolicy hcall halw
  | removePolicy guid => exact hinv.commonRemovePolicy hcall
  | registerNotify guid types priority pool =>
    rw [DxeCall.run, commonRegisterNotify]
    split
    · exact hinv
    split
    · exact hinv
    · exact hinv
  | unregisterNotify handle =>
    rw [DxeCall.run, commonUnregisterNotify]
    split
    · exact hinv
    split
    · exact hinv
    · exact hinv

end

theorem DxeInv.step (hinv : DxeInv s) {action : DxeAction} (halw : s.Allowed action) :
    DxeInv (s.step action) := by
  cases action with
  | call call =>
    rw [DxeState.step]
    cases hstk : s.stack with
    | nil =>
      refine hinv.run (fun f hf => ?_) halw
      rw [hstk] at hf
      cases hf
    | cons f rest =>
      dsimp only
      split
      next hcalls =>
        refine hinv.run (fun g hg => ?_) halw
        rw [hstk] at hg
        obtain ⟨⟩ := hg
        exact hcalls
      · exact hinv
  | callbackReturns =>
    rw [DxeState.step]
    cases hstk : s.stack with
    | nil => exact hinv
    | cons f rest =>
      dsimp only
      split
      · exact hinv.callbackReturned hstk
      · exact hinv
  | goOn =>
    rw [DxeState.step]
    cases hstk : s.stack with
    | nil => exact hinv
    | cons f rest =>
      dsimp only
      split
      · exact hinv
      next hcalls =>
        exact hinv.advance hstk (by simpa using hcalls)

end Steps

structure DxeStart (s : DxeState) : Prop where
  stack : s.stack = []
  trace : s.trace = []
  listed_lt : ∀ e ∈ s.policyList, e < s.nextEntry
  unique : ∀ e ∈ s.policyList, ∀ e' ∈ s.policyList,
    (s.entries e).policyGuid = (s.entries e').policyGuid → e = e'

theorem DxeStart.inv {s : DxeState} (hst : DxeStart s) : DxeInv s := by
  rw [DxeInv, nested, hst.stack, hst.trace]
  exact registered_start hst.listed_lt hst.unique

/-- The states of the runs of the DXE services. -/
inductive DxeReached : DxeState → Prop
  | start {s : DxeState} (hst : DxeStart s) : DxeReached s
  | step {s : DxeState} (action : DxeAction) (hrch : DxeReached s)
      (halw : s.Allowed action) : DxeReached (s.step action)

theorem DxeReached.inv {s : DxeState} (hrch : DxeReached s) : DxeInv s := by
  induction hrch with
  | start hst => exact hst.inv
  | step action _ halw ih => exact ih.step halw

end MuBasecore.PolicyNotifyDxe
