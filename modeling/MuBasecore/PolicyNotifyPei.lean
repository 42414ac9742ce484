import MuBasecore.PolicyNotifyDxe

/-!
The notifications of the PEI policy service, with callbacks that may call the service
again. The callbacks are kept in HOBs in the order of their registration, and
`PeiPolicyNotify` looks in two passes for those of the next priority.
-/

namespace MuBasecore.PolicyNotifyPei

open EfiTypes NestedNotify
open PolicyNotifyDxe (NotifyEntry isFinalized setEvents policyNotifyRemoved policyNotifyAll)
open Function Registered List

/-- A `POLICY_HOB_HEADER`, as far as notifications depend on it. -/
structure PolicyHob where
  policyGuid : Guid
  attributes : BitVec 64
  allocationSize : Nat
  removed : Bool
  notifyDepth : Nat

/-- Where the loops of `PeiPolicyNotify` are: before the first pass, or at an entry of the
second. -/
inductive Pass
  | first (minPriority : Nat)
  | second (lowestPriority index : Nat)

/-- The variables of a running `PeiPolicyNotify`. The number of the event is not part of
the code. -/
structure PeiFrame where
  policyHob : Nat
  eventTypes : BitVec 32
  depth : Nat
  pass : Pass
  calling : Bool
  event : Nat

structure PeiState where
  hobs : Nat → PolicyHob
  nextHob : Nat
  notifies : List NotifyEntry
  stack : List PeiFrame
  events : Nat
  trace : List (Guid × Nat)

def getPolicyHob (guid : Guid) (s : PeiState) : Option Nat :=
  (List.range s.nextHob).find? fun h => !(s.hobs h).removed && guid == (s.hobs h).policyGuid

def setDepth (h depth : Nat) (hobs : Nat → PolicyHob) : Nat → PolicyHob :=
  Function.update hobs h { hobs h with notifyDepth := depth }

/-- The beginning of `PeiPolicyNotify`; the depth is a `UINT16`. -/
def beginNotify (eventTypes : BitVec 32) (h : Nat) (s : PeiState) : PeiState :=
  let depth := ((s.hobs h).notifyDepth + 1) % 2 ^ 16
  { s with
    events := s.events + 1
    hobs := setDepth h depth s.hobs
    stack := ⟨h, eventTypes, depth, .first 0, false, s.events⟩ :: s.stack }

def endNotify (f : PeiFrame) (rest : List PeiFrame) (s : PeiState) : PeiState :=
  { s with
    hobs := if f.depth = 1 then setDepth f.policyHob 0 s.hobs else s.hobs
    stack := rest }

def applies (policyGuid : Guid) (eventTypes : BitVec 32) (n : NotifyEntry) : Bool :=
  !n.tombstone && n.policyGuid == policyGuid && n.eventTypes &&& eventTypes != 0

/-- The loops of `PeiPolicyNotify` go on: the first pass finds the lowest priority, the
second one looks at one entry. -/
def advance (f : PeiFrame) (rest : List PeiFrame) (s : PeiState) : PeiState :=
  let policyGuid := (s.hobs f.policyHob).policyGuid
  match f.pass with
  | .first minPriority =>
    let found := s.notifies.filter fun n =>
      applies policyGuid f.eventTypes n && minPriority ≤ n.priority
    if found = [] then endNotify f rest s
    else
      let lowestPriority := found.foldl (fun p n => min p n.priority) 0xFFFFFFFF
      { s with stack := { f with pass := .second lowestPriority 0 } :: rest }
  | .second lowestPriority index =>
    match s.notifies[index]? with
    | none =>
      if lowestPriority = 0xFFFFFFFF then endNotify f rest s
      else { s with stack := { f with pass := .first (lowestPriority + 1) } :: rest }
    | some n =>
      let f := { f with pass := .second lowestPriority (index + 1) }
      if applies policyGuid f.eventTypes n ∧ n.priority = lowestPriority then
        { s with
          stack := { f with calling := true } :: rest
          trace := (policyGuid, f.event) :: s.trace }
      else { s with stack := f :: rest }

def callbackReturned (f : PeiFrame) (rest : List PeiFrame) (s : PeiState) : PeiState :=
  if (s.hobs f.policyHob).notifyDepth ≠ f.depth then endNotify f rest s
  else { s with stack := { f with calling := false } :: rest }

/-- A new HOB for a policy is created and its callbacks are notified; `created` says
whether there is room for a HOB. -/
def createPolicy (guid : Guid) (attributes : BitVec 64) (policySize : Nat) (created : Bool)
    (s : PeiState) : PeiState :=
  if 0xFFFF < 32 + policySize then s
  else if !created then s
  else
    beginNotify (setEvents attributes) s.nextHob
      { s with
        hobs := Function.update s.hobs s.nextHob ⟨guid, attributes, policySize, false, 0⟩
        nextHob := s.nextHob + 1 }

def peiSetPolicy (guid : Guid) (attributes : BitVec 64) (policySize : Nat) (created : Bool)
    (s : PeiState) : PeiState :=
  if policySize = 0 then s
  else
    match getPolicyHob guid s with
    | none => createPolicy guid attributes policySize created s
    | some h =>
      let hob := s.hobs h
      if isFinalized hob.attributes then s
      else if policySize ≤ hob.allocationSize then
        beginNotify (setEvents attributes) h
          { s with hobs := Function.update s.hobs h { hob with attributes := attributes } }
      else
        createPolicy guid attributes policySize created
          { s with hobs := Function.update s.hobs h { hob with removed := true } }

/-- When the policy is missing, the pointer to its HOB was never set and reaches some other
place, `stray`. -/
def peiRemovePolicy (guid : Guid) (stray : Nat) (s : PeiState) : PeiState :=
  match getPolicyHob guid s with
  | none => beginNotify policyNotifyRemoved stray s
  | some h =>
    beginNotify policyNotifyRemoved h
      { s with hobs := Function.update s.hobs h { s.hobs h with removed := true } }

/-- A callback HOB has 64 entries; `created` says whether there is room for another one. -/
def peiRegisterNotify (guid : Guid) (eventTypes : BitVec 32) (priority : Nat) (created : Bool)
    (s : PeiState) : PeiState :=
  if eventTypes &&& policyNotifyAll ≠ eventTypes then s
  else if s.notifies.length % 64 = 0 ∧ !created then s
  else { s with notifies := s.notifies ++ [⟨guid, eventTypes, priority, false⟩] }

def peiUnregisterNotify (handle : Nat) (s : PeiState) : PeiState :=
  { s with notifies := s.notifies.set handle ⟨0, 0, 0, true⟩ }

inductive PeiCall
  | setPolicy (guid : Guid) (attributes : BitVec 64) (policySize : Nat) (created : Bool)
  | removePolicy (guid : Guid) (stray : Nat)
  | registerNotify (guid : Guid) (eventTypes : BitVec 32) (priority : Nat) (created : Bool)
  | unregisterNotify (handle : Nat)

def PeiCall.run (s : PeiState) : PeiCall → PeiState
  | .setPolicy guid attributes policySize created =>
    peiSetPolicy guid attributes policySize created s
  | .removePolicy guid stray => peiRemovePolicy guid stray s
  | .registerNotify guid eventTypes priority created =>
    peiRegisterNotify guid eventTypes priority created s
  | .unregisterNotify handle => peiUnregisterNotify handle s

inductive PeiAction
  | call (call : PeiCall)
  | callbackReturns
  | goOn

def PeiState.step (s : PeiState) : PeiAction → PeiState
  | .call call =>
    match s.stack with
    | [] => call.run s
    | f :: _ => if f.calling then call.run s else s
  | .callbackReturns =>
    match s.stack with
    | [] => s
    | f :: rest => if f.calling then callbackReturned f rest s else s
  | .goOn =>
    match s.stack with
    | [] => s
    | f :: rest => if f.calling then s else advance f rest s

def Quiet (guid : Guid) (s : PeiState) : Prop :=
  ∀ f ∈ s.stack, (s.hobs f.policyHob).policyGuid = guid →
    (s.hobs f.policyHob).notifyDepth ≠ f.depth

/-- A step creates a new HOB for a GUID only when no notification of the GUID is going on,
does not let the depth of a HOB wrap, and removes only policies that exist. -/
def PeiState.Allowed (s : PeiState) : PeiAction → Prop
  | .call (.setPolicy guid _ policySize created) =>
    match getPolicyHob guid s with
    | none => created = true → Quiet guid s
    | some h =>
      (s.hobs h).notifyDepth < 0xFFFF ∧
        (created = true → (s.hobs h).allocationSize < policySize → Quiet guid s)
  | .call (.removePolicy guid _) =>
    ∃ h, getPolicyHob guid s = some h ∧ (s.hobs h).notifyDepth < 0xFFFF
  | _ => True

def frameOf (s : PeiState) (f : PeiFrame) : Frame Guid :=
  ⟨f.policyHob, (s.hobs f.policyHob).policyGuid, f.event, f.depth, f.calling⟩

def nested (s : PeiState) : State Guid where
  counter := fun h => (s.hobs h).notifyDepth
  stack := s.stack.map (frameOf s)
  nextEvent := s.events
  trace := s.trace

def objects (s : PeiState) : Objects Guid where
  keyOf := fun h => (s.hobs h).policyGuid
  next := s.nextHob
  listed := (List.range s.nextHob).filter fun h => !(s.hobs h).removed

def AtCall (s : PeiState) : Prop := ∀ f ∈ s.stack.head?, f.calling = true

def PeiInv (s : PeiState) : Prop := Registered (objects s) (nested s)

variable {depth : Nat} {f : PeiFrame} {rest : List PeiFrame} {h : Nat}

section Nested

variable {s s' : PeiState}

theorem frameOf_eq (hguid : ∀ x, (s'.hobs x).policyGuid = (s.hobs x).policyGuid) :
    frameOf s' = frameOf s := by
  funext f
  rw [frameOf, frameOf, hguid]

theorem setDepth_guid (h depth : Nat) (hobs : Nat → PolicyHob) (x : Nat) :
    (setDepth h depth hobs x).policyGuid = (hobs x).policyGuid :=
  apply_update_of_eq PolicyHob.policyGuid (by rfl) x

theorem setDepth_removed (hobs : Nat → PolicyHob) (x : Nat) :
    (setDepth h depth hobs x).removed = (hobs x).removed :=
  apply_update_of_eq PolicyHob.removed (by rfl) x

theorem setDepth_depth (h depth : Nat) (hobs : Nat → PolicyHob) :
    (fun x => (setDepth h depth hobs x).notifyDepth) =
      update (fun x => (hobs x).notifyDepth) h depth :=
  comp_update PolicyHob.notifyDepth _ _ _

theorem atCall_nested (hcall : AtCall s) : (nested s).AtCall := by
  intro g hg
  rw [nested, head?_map] at hg
  obtain ⟨f, hf, rfl⟩ := Option.map_eq_some_iff.1 hg
  exact hcall f hf

theorem nested_stack (hstk : s.stack = f :: rest) :
    (nested s).stack = frameOf s f :: rest.map (frameOf s) := by
  rw [nested, hstk, map_cons]

theorem nested_beginNotify (hdep : (s.hobs h).notifyDepth < 0xFFFF) (types : BitVec 32) :
    nested (beginNotify types h s) = (nested s).enter h (s.hobs h).policyGuid := by
  have hmod : ((s.hobs h).notifyDepth + 1) % 2 ^ 16 = (s.hobs h).notifyDepth + 1 :=
    Nat.mod_eq_of_lt (by omega)
  rw [beginNotify, hmod, nested, frameOf_eq (s := s) (setDepth_guid _ _ _), setDepth_depth]
  rfl

theorem objects_setDepth (stack : List PeiFrame) (events : Nat) :
    objects { s with hobs := setDepth h depth s.hobs, stack := stack, events := events } =
      objects s := by
  simp only [objects, setDepth_guid, setDepth_removed]

theorem nested_endNotify :
    nested (endNotify f rest s) = (nested s).leave (frameOf s f) (rest.map (frameOf s)) := by
  rw [endNotify]
  by_cases hone : f.depth = 1
  · rw [if_pos hone, nested, frameOf_eq (s := s) (setDepth_guid _ _ _), setDepth_depth, State.leave]
    have hone' : (frameOf s f).depth = 1 := hone
    rw [if_pos hone']
    rfl
  · rw [if_neg hone, State.leave]
    have hone' : ¬ (frameOf s f).depth = 1 := hone
    rw [if_neg hone']
    rfl

end Nested

variable {created : Bool} {policySize : Nat} {hob : PolicyHob} {guid : Guid} {attrs : BitVec 64}

section Steps

variable {s : PeiState}

section

variable (hinv : PeiInv s)
include hinv

section

variable (hstk : s.stack = f :: rest)
include hstk

theorem PeiInv.endNotify : PeiInv (endNotify f rest s) := by
  have hobjs : objects (PolicyNotifyPei.endNotify f rest s) = objects s := by
    rw [PolicyNotifyPei.endNotify]
    split
    · exact objects_setDepth _ _
    · rfl
  rw [PeiInv, hobjs, nested_endNotify]
  exact leave hinv (nested_stack hstk)

theorem PeiInv.move (hcalls : f.calling = false) (pass : Pass) :
    PeiInv { s with stack := { f with pass := pass } :: rest } := by
  have hnest := nested_stack hstk
  have hact := hinv.inv.running (frameOf s f) (by rw [hnest]; rfl) hcalls
  have hkept := resume hinv hnest hact
  rw [State.resume, ← hcalls] at hkept
  exact hkept

theorem PeiInv.advance (hcalls : f.calling = false) : PeiInv (advance f rest s) := by
  rw [PolicyNotifyPei.advance]
  dsimp only
  split
  · split
    · exact hinv.endNotify hstk
    · exact hinv.move hstk hcalls _
  · split
    · split
      · exact hinv.endNotify hstk
      · exact hinv.move hstk hcalls _
    · split
      · exact invoke hinv (nested_stack hstk) hcalls
      · exact hinv.move hstk hcalls _

theorem PeiInv.callbackReturned : PeiInv (callbackReturned f rest s) := by
  rw [PolicyNotifyPei.callbackReturned]
  split
  case isTrue => exact hinv.endNotify hstk
  case isFalse hsame => exact resume hinv (nested_stack hstk) (not_not.1 hsame)

end

theorem PeiInv.beginNotify (hcall : AtCall s) (hlt : h < s.nextHob)
    (hdep : (s.hobs h).notifyDepth < 0xFFFF)
    (hqt : (nested s).QuietBut (s.hobs h).policyGuid h)
    (honly : ∀ x ∈ (objects s).listed, (s.hobs x).policyGuid = (s.hobs h).policyGuid → x = h)
    (types : BitVec 32) : PeiInv (beginNotify types h s) := by
  have hobjs : objects (PolicyNotifyPei.beginNotify types h s) = objects s :=
    objects_setDepth _ _
  rw [PeiInv, hobjs, nested_beginNotify hdep]
  exact enter hinv (atCall_nested hcall) hlt hqt honly

theorem PeiInv.setHob {s' : PeiState} (hguid : hob.policyGuid = (s.hobs h).policyGuid)
    (hdep : hob.notifyDepth = (s.hobs h).notifyDepth)
    (hrem : (s.hobs h).removed = true → hob.removed = true)
    (hs : s' = { s with hobs := update s.hobs h hob }) :
    PeiInv s' ∧ nested s' = nested s ∧ (objects s').keyOf = (objects s).keyOf ∧
      (objects s').listed ⊆ (objects s).listed := by
  have hguids := apply_update_of_eq PolicyHob.policyGuid hguid
  have hdepths := apply_update_of_eq PolicyHob.notifyDepth hdep
  have hnest : nested s' = nested s := by
    rw [hs, nested, nested, frameOf_eq (s := s) hguids]
    simp only [hdepths]
  have hkeys : (objects s').keyOf = (objects s).keyOf := by
    rw [hs]
    exact funext hguids
  have hsub : (objects s').listed ⊆ (objects s).listed := by
    rw [hs]
    intro x hx
    obtain ⟨hlt, hlive⟩ := mem_filter.1 hx
    refine mem_filter.2 ⟨hlt, ?_⟩
    dsimp only at hlive
    by_cases hxh : x = h
    · rw [hxh, update_self] at hlive
      rw [hxh]
      cases hold : (s.hobs h).removed with
      | false => rfl
      | true =>
        rw [hrem hold] at hlive
        cases hlive
    · rwa [update_of_ne hxh] at hlive
  refine ⟨?_, hnest, hkeys, hsub⟩
  have hobjs : objects s' = { objects s with listed := (objects s').listed } := by
    change Objects.mk (objects s').keyOf _ _ = _
    rw [hkeys, hs]
    rfl
  rw [PeiInv, hobjs, hnest]
  exact unlist hinv hsub

end

theorem getPolicyHob_some (hget : getPolicyHob guid s = some h) :
    h ∈ (objects s).listed ∧ (s.hobs h).policyGuid = guid := by
  have hfnd := find?_some hget
  rw [Bool.and_eq_true, beq_iff_eq] at hfnd
  exact ⟨mem_filter.2 ⟨mem_of_find?_eq_some hget, hfnd.1⟩, hfnd.2.symm⟩

theorem getPolicyHob_none (hget : getPolicyHob guid s = none) :
    ∀ h ∈ (objects s).listed, (s.hobs h).policyGuid ≠ guid := by
  intro h hh heq
  obtain ⟨hlt, hlive⟩ := mem_filter.1 hh
  apply find?_eq_none.1 hget h hlt
  rw [Bool.and_eq_true, beq_iff_eq]
  exact ⟨hlive, heq.symm⟩

section

variable (hinv : PeiInv s)
include hinv

theorem PeiInv.notifyHob (hcall : AtCall s)
    (hh : h ∈ (objects s).listed) (hlow : (s.hobs h).notifyDepth < 0xFFFF)
    (hguid : hob.policyGuid = (s.hobs h).policyGuid)
    (hdep : hob.notifyDepth = (s.hobs h).notifyDepth)
    (hrem : (s.hobs h).removed = true → hob.removed = true) (types : BitVec 32) :
    PeiInv (PolicyNotifyPei.beginNotify types h { s with hobs := update s.hobs h hob }) := by
  obtain ⟨hinv', hnest, hkeys, hsub⟩ := hinv.setHob hguid hdep hrem rfl
  have hself : update s.hobs h hob h = hob := update_self _ _ _
  have hkey : ∀ x, (update s.hobs h hob x).policyGuid = (s.hobs x).policyGuid :=
    fun x => congrFun hkeys x
  apply hinv'.beginNotify hcall (hinv.listed_lt h hh)
  · change (update s.hobs h hob h).notifyDepth < _
    rw [hself, hdep]
    exact hlow
  · rw [hnest]
    rw [hkey]
    exact hinv.quiet h hh
  · intro x hx heq
    rw [hkey, hkey] at heq
    exact hinv.unique x (hsub hx) h hh heq

theorem PeiInv.createPolicy (hcall : AtCall s)
    (hnew : ∀ h ∈ (objects s).listed, (s.hobs h).policyGuid ≠ guid)
    (hqt : created = true → Quiet guid s) :
    PeiInv (createPolicy guid attrs policySize created s) := by
  rw [PolicyNotifyPei.createPolicy]
  split
  · exact hinv
  split
  · exact hinv
  rename_i hcre
  generalize hhob : (⟨guid, attrs, policySize, false, 0⟩ : PolicyHob) = hob
  generalize hs' : ({ s with
    hobs := update s.hobs s.nextHob hob
    nextHob := s.nextHob + 1 } : PeiState) = s'
  have hold : ∀ x < s.nextHob, update s.hobs s.nextHob hob x = s.hobs x :=
    fun x hx => update_of_ne (Nat.ne_of_lt hx) _ _
  have hself : update s.hobs s.nextHob hob s.nextHob = hob := update_self _ _ _
  have hobjs : objects s' = (objects s).create guid := by
    rw [← hs', objects, Objects.create]
    congr 1
    · subst hhob
      exact comp_update PolicyHob.policyGuid _ _ _
    · dsimp only
      rw [range_succ, filter_append]
      congr 1
      · apply filter_congr
        intro x hx
        rw [hold x (mem_range.1 hx)]
      · rw [filter_singleton, hself, ← hhob]
        rfl
  have hnest : nested s' = (nested s).clear s.nextHob := by
    rw [nested, nested, State.clear, ← hs']
    congr 1
    · subst hhob
      exact comp_update PolicyHob.notifyDepth _ _ _
    · apply map_congr_left
      intro f hf
      have hlt : f.policyHob < s.nextHob := hinv.frame_lt _ (mem_map_of_mem hf)
      rw [frameOf, frameOf]
      dsimp only
      rw [hold _ hlt]
  have hinv' : PeiInv s' := by
    rw [PeiInv, hobjs, hnest]
    refine create hinv hnew fun g hg hkey hact => ?_
    obtain ⟨f, hf, rfl⟩ := mem_map.1 hg
    exact hqt (by simpa using hcre) f hf hkey hact
  have hn : s.nextHob ∈ (objects s').listed := by
    rw [hobjs]
    exact mem_append_right _ (mem_singleton_self _)
  have hcall' : AtCall s' := by
    rw [← hs']
    exact hcall
  have hdep : (s'.hobs s.nextHob).notifyDepth < 0xFFFF := by
    rw [← hs']
    dsimp only
    rw [hself, ← hhob]
    exact (by decide : 0 < 0xFFFF)
  exact hinv'.beginNotify hcall' (hinv'.listed_lt _ hn) hdep (hinv'.quiet _ hn)
    (fun x hx => hinv'.unique x hx s.nextHob hn) _

theorem PeiInv.peiSetPolicy (hcall : AtCall s)
    (halw : s.Allowed (.call (.setPolicy guid attrs policySize created))) :
    PeiInv (peiSetPolicy guid attrs policySize created s) := by
  rw [PolicyNotifyPei.peiSetPolicy]
  rw [PeiState.Allowed] at halw
  split
  · exact hinv
  cases hget : getPolicyHob guid s with
  | none =>
    rw [hget] at halw
    exact hinv.createPolicy hcall (getPolicyHob_none hget) halw
  | some h =>
    rw [hget] at halw
    obtain ⟨hlow, hgrow⟩ := halw
    obtain ⟨hh, hguid⟩ := getPolicyHob_some hget
    dsimp only
    split
    · exact hinv
    split
    · refine hinv.notifyHob hcall hh hlow ?_ ?_ ?_ _
      · rfl
      · rfl
      · exact fun hrem => hrem
    rename_i hlarge
    -- the old HOB is removed without a notification
    generalize hhob : ({ s.hobs h with removed := true } : PolicyHob) = hob
    have hobguid : hob.policyGuid = (s.hobs h).policyGuid := by rw [← hhob]
    have hobdepth : hob.notifyDepth = (s.hobs h).notifyDepth := by rw [← hhob]
    have hobremoved : hob.removed = true := by rw [← hhob]
    obtain ⟨hinv', hnest, hkeys, hsub⟩ := hinv.setHob hobguid hobdepth (fun _ => hobremoved) rfl
    have hkey : ∀ x, (update s.hobs h hob x).policyGuid = (s.hobs x).policyGuid :=
      fun x => congrFun hkeys x
    refine hinv'.createPolicy hcall ?_ ?_
    · intro x hx heq
      rw [hkey, ← hguid] at heq
      obtain rfl := hinv.unique x (hsub hx) h hh heq
      obtain ⟨_, hlive⟩ := mem_filter.1 hx
      dsimp only at hlive
      rw [update_self, hobremoved] at hlive
      cases hlive
    · intro hcre f hf heq
      have hqt := hgrow hcre (by omega) f hf
      rw [hkey] at heq
      have hdepths := congrFun (congrArg State.counter hnest) f.policyHob
      change (update s.hobs h hob f.policyHob).notifyDepth = _ at hdepths
      rw [hdepths]
      exact hqt heq

theorem PeiInv.run (hcall : AtCall s) {call : PeiCall}
    (halw : s.Allowed (.call call)) : PeiInv (call.run s) := by
  cases call with
  | setPolicy guid attrs policySize created => exact hinv.peiSetPolicy hcall halw
  | removePolicy guid stray =>
    obtain ⟨h, hget, hlow⟩ := halw
    rw [PeiCall.run, peiRemovePolicy, hget]
    refine hinv.notifyHob hcall (getPolicyHob_some hget).1 hlow ?_ ?_ ?_ _
    · rfl
    · rfl
    · exact fun _ => rfl
  | registerNotify guid types priority created =>
    rw [PeiCall.run, peiRegisterNotify]
    split
    · exact hinv
    split
    · exact hinv
    · exact hinv
  | unregisterNotify handle => exact hinv

theorem PeiInv.step {action : PeiAction} (halw : s.Allowed action) : PeiInv (s.step action) := by
  cases action with
  | call call =>
    rw [PeiState.step]
    cases hstk : s.stack with
    | nil =>
      refine hinv.run (fun f hf => ?_) halw
      rw [hstk] at hf
      cases hf
    | cons f rest =>
      dsimp only
      split
      next hcalls =>
        refine hinv.run (fun g hg => ?_) halw
        rw [hstk] at hg
        obtain ⟨⟩ := hg
        exact hcalls
      · exact hinv
  | callbackReturns =>
    rw [PeiState.step]
    cases hstk : s.stack with
    | nil => exact hinv
    | cons f rest =>
      dsimp only
      split
      · exact hinv.callbackReturned hstk
      · exact hinv
  | goOn =>
    rw [PeiState.step]
    cases hstk : s.stack with
    | nil => exact hinv
    | cons f rest =>
      dsimp only
      split
      · exact hinv
      next hcalls =>
        exact hinv.advance hstk (by simpa using hcalls)

end

end Steps

structure PeiStart (s : PeiState) : Prop where
  stack : s.stack = []
  trace : s.trace = []
  unique : ∀ h ∈ (objects s).listed, ∀ h' ∈ (objects s).listed,
    (s.hobs h).policyGuid = (s.hobs h').policyGuid → h = h'

theorem PeiStart.inv {s : PeiState} (hst : PeiStart s) : PeiInv s := by
  rw [PeiInv, nested, hst.stack, hst.trace]
  refine registered_start ?_ hst.unique
  intro h hh
  exact mem_range.1 (mem_filter.1 hh).1

/-- The states of the runs of the PEI services. -/
inductive PeiReached : PeiState → Prop
  | start {s : PeiState} (hst : PeiStart s) : PeiReached s
  | step {s : PeiState} (action : PeiAction) (hrch : PeiReached s)
      (halw : s.Allowed action) : PeiReached (s.step action)

theorem PeiReached.inv {s : PeiState} (hrch : PeiReached s) : PeiInv s := by
  induction hrch with
  | start hst => exact hst.inv
  | step action _ halw ih => exact ih.step halw

/-- In both services no callback sees an older event of a policy after a newer one. -/
theorem callbacks_ordered {s : PeiState} {t : PolicyNotifyDxe.DxeState} (hpei : PeiReached s)
    (hdxe : PolicyNotifyDxe.DxeReached t) : Ordered s.trace ∧ Ordered t.trace :=
  ⟨hpei.inv.inv.ordered, hdxe.inv.inv.ordered⟩

def emptyPei : PeiState where
  hobs := fun _ => ⟨0, 0, 0, true, 0⟩
  nextHob := 0
  notifies := []
  stack := []
  events := 0
  trace := []

def emptyDxe : PolicyNotifyDxe.DxeState where
  entries := fun _ => ⟨0, 0, false, 0, 0, false⟩
  nextEntry := 0
  policyList := []
  notifies := fun _ => ⟨0, 0, 0, false⟩
  nextNotify := 0
  notifyList := []
  notifyInProgress := false
  callbacksDeleted := false
  stack := []
  events := 0
  trace := []

/-- Two callbacks are registered and a policy is set; the first callback sets it again, both
callbacks run for the newer event, and the notification of the older one gives up. -/
def setTwicePei : List PeiAction :=
  [.call (.registerNotify 5 7 0 true), .call (.registerNotify 5 7 0 true),
    .call (.setPolicy 5 0 1 true), .goOn, .goOn, .call (.setPolicy 5 0 1 true), .goOn, .goOn,
    .callbackReturns, .goOn, .callbackReturns, .goOn, .goOn, .callbackReturns]

@[inherit_doc setTwicePei]
def setTwiceDxe : List PolicyNotifyDxe.DxeAction :=
  [.call (.registerNotify 5 7 0 true), .call (.registerNotify 5 7 0 true),
    .call (.setPolicy 5 0 1 true true), .goOn, .call (.setPolicy 5 0 1 true true), .goOn,
    .callbackReturns, .goOn, .callbackReturns, .goOn, .callbackReturns]

/-- The three invocations are for the first event, and twice for the second. -/
theorem callbacks_ordered_setTwice :
    let s := setTwicePei.foldl PeiState.step emptyPei
    let t := setTwiceDxe.foldl PolicyNotifyDxe.DxeState.step emptyDxe
    s.stack = [] ∧ t.stack = [] ∧
      s.trace = [(5, 1), (5, 1), (5, 0)] ∧ t.trace = [(5, 1), (5, 1), (5, 0)] ∧
      Ordered s.trace ∧ Ordered t.trace := by
  have hpei : PeiReached emptyPei := .start ⟨rfl, rfl, fun h hh => by cases hh⟩
  have hdxe : PolicyNotifyDxe.DxeReached emptyDxe :=
    .start ⟨rfl, rfl, (fun e he => by cases he), (fun e he => by cases he)⟩
  -- the first `SetPolicy` creates the HOB, the nested one finds it
  have hpei := ((hpei.step (.call (.registerNotify 5 7 0 true)) trivial).step
    (.call (.registerNotify 5 7 0 true)) trivial).step
    (.call (.setPolicy 5 0 1 true)) (fun _ f hf => by cases hf)
  have hpei := ((hpei.step .goOn trivial).step .goOn trivial).step
    (.call (.setPolicy 5 0 1 true)) ⟨by decide, fun _ hgrow => absurd hgrow (by decide)⟩
  have hpei := (((hpei.step .goOn trivial).step .goOn trivial).step .callbackReturns trivial).step
    .goOn trivial
  have hpei := (((hpei.step .callbackReturns trivial).step .goOn trivial).step .goOn trivial).step
    .callbackReturns trivial
  have hdxe := ((hdxe.step (.call (.registerNotify 5 7 0 true)) trivial).step
    (.call (.registerNotify 5 7 0 true)) trivial).step
    (.call (.setPolicy 5 0 1 true true)) (fun _ _ _ _ f hf => by cases hf)
  have hdxe := (hdxe.step .goOn trivial).step
    (.call (.setPolicy 5 0 1 true true)) (fun _ _ _ hnone => absurd hnone (by decide))
  have hdxe := ((hdxe.step .goOn trivial).step .callbackReturns trivial).step .goOn trivial
  have hdxe := ((hdxe.step .callbackReturns trivial).step .goOn trivial).step .callbackReturns
    trivial
  exact ⟨by rfl, by rfl, by decide, by decide, callbacks_ordered hpei hdxe⟩

/-- A policy is removed; the first callback sets it again; the second callback sees the new
policy first and its removal afterwards. -/
theorem set_in_removal_not_ordered :
    ¬ Ordered (([.call (.setPolicy 5 0 1 true), .goOn, .call (.registerNotify 5 7 0 true),
        .call (.registerNotify 5 7 0 true), .call (.removePolicy 5 0), .goOn, .goOn,
        .call (.setPolicy 5 0 1 true), .goOn, .goOn, .callbackReturns, .goOn, .callbackReturns,
        .goOn, .goOn, .callbackReturns, .goOn] :
        List PeiAction).foldl PeiState.step emptyPei).trace ∧
      ¬ Ordered (([.call (.setPolicy 5 0 1 true true), .goOn,
        .call (.registerNotify 5 7 0 true), .call (.registerNotify 5 7 0 true),
        .call (.removePolicy 5), .goOn, .call (.setPolicy 5 0 1 true true), .goOn,
        .callbackReturns, .goOn, .callbackReturns, .goOn, .callbackReturns, .goOn] :
        List PolicyNotifyDxe.DxeAction).foldl PolicyNotifyDxe.DxeState.step emptyDxe).trace := by
  decide +kernel

end MuBasecore.PolicyNotifyPei
