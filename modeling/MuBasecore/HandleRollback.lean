import MuBasecore.HandleServices

/-!
What a failed call with a list of interfaces leaves behind. The database is
seen as the set of its (handle, protocol, interface) triples; every service
either keeps it or changes it by one triple on one handle.
-/

namespace MuBasecore.HandleRollback

open EfiTypes HandleServices List

variable {db db' db₁ db₂ : HandleDatabase} {handle : Handle} {ihandle : IHandle}
  {prot : ProtocolInterface} {pair : ProtocolPair} {env : Environment} {front : List ProtocolPair}

/-- The interfaces on a handle, none on one that does not exist. -/
def records (db : HandleDatabase) (handle : Handle) : List ProtocolInterface :=
  match db.handles.lookup handle with
  | none => []
  | some ihandle => ihandle.protocols

def held (db : HandleDatabase) (handle : Handle) : List ProtocolPair :=
  (records db handle).map ProtocolInterface.pair

/-- The database as a set, without the order of the interfaces. -/
def triples (db : HandleDatabase) : Set (Handle × ProtocolPair) :=
  { triple | triple.2 ∈ held db triple.1 }

theorem records_of_lookup
    (h : db.handles.lookup handle = some ihandle) : records db handle = ihandle.protocols := by
  rw [records, h]

variable {other : Handle}

section Records

variable (db : HandleDatabase)

theorem records_nil_iff (handle : Handle) :
    records db handle = [] ↔ db.handles.lookup handle = none := by
  rw [records]
  cases h : db.handles.lookup handle with
  | none => simp
  | some ihandle => simpa using ihandle.nonempty

theorem held_eq_nil_iff (handle : Handle) : held db handle = [] ↔ records db handle = [] :=
  map_eq_nil_iff

theorem records_null : records db 0 = [] :=
  (records_nil_iff db 0).2 db.null_absent

theorem records_unique (handle : Handle) :
    ((records db handle).map ProtocolInterface.protocol).Nodup := by
  rw [records]
  cases db.handles.lookup handle with
  | none => exact nodup_nil
  | some ihandle => exact ihandle.unique

theorem held_protocols :
    (held db handle).map Prod.fst = (records db handle).map ProtocolInterface.protocol := by
  rw [held, map_map]
  rfl

theorem held_unique (handle : Handle) : ((held db handle).map Prod.fst).Nodup := by
  rw [held_protocols]
  exact records_unique db handle

theorem coreValidateHandle_iff (handle : Handle) :
    coreValidateHandle db handle = true ↔ held db handle ≠ [] := by
  rw [ne_eq, held_eq_nil_iff, records_nil_iff, coreValidateHandle]
  constructor
  · intro h hnone
    rw [hnone] at h
    simp at h
  · intro h
    have hnull : handle ≠ 0 := by
      rintro rfl
      exact h db.null_absent
    simp [hnull, Option.isSome_iff_ne_none, h]

theorem records_put (hnull : handle ≠ 0)
    (ihandle : IHandle) : records (db.put handle ihandle) handle = ihandle.protocols := by
  apply records_of_lookup
  rw [HandleDatabase.put, dif_neg hnull]
  exact AList.lookup_insert db.handles

theorem records_put_ne (ihandle : IHandle)
    (hoth : other ≠ handle) : records (db.put handle ihandle) other = records db other := by
  unfold HandleDatabase.put
  split
  · rfl
  · rw [records, records, AList.lookup_insert_ne hoth]

theorem records_delete : records (db.delete handle) handle = [] :=
  (records_nil_iff _ _).2 (AList.lookup_erase handle db.handles)

theorem records_delete_ne
    (hoth : other ≠ handle) : records (db.delete handle) other = records db other := by
  rw [records, records, HandleDatabase.delete, AList.lookup_erase_ne hoth]

end Records

theorem matchesPair_iff :
    matchesPair pair prot = true ↔ prot.pair = pair := by
  simp [matchesPair, ProtocolInterface.pair, Prod.ext_iff, and_comm]

theorem ne_zero_of_mem_records (h : prot ∈ records db handle) : handle ≠ 0 := by
  rintro rfl
  rw [records_null] at h
  exact not_mem_nil h

/-- The first interface that matches has left the handle. -/
structure Removed (db db' : HandleDatabase) (handle : Handle) (pair : ProtocolPair) : Prop where
  at_handle : records db' handle = (records db handle).eraseP (matchesPair pair)
  elsewhere : ∀ other ≠ handle, records db' other = records db other

theorem removed_removeInterface (h : db.handles.lookup handle = some ihandle) :
    Removed db (db.removeInterface handle ihandle pair) handle pair := by
  have hnull : handle ≠ 0 := by
    rintro rfl
    rw [db.null_absent] at h
    cases h
  rw [HandleDatabase.removeInterface]
  split
  · next hrest =>
    refine ⟨?_, fun other hoth => records_delete_ne db hoth⟩
    rw [records_delete, records_of_lookup h, hrest]
  · refine ⟨?_, fun other hoth => records_put_ne db _ hoth⟩
    rw [records_put db hnull, records_of_lookup h]

theorem eq_of_pair_eq {prot' : ProtocolInterface}
    (h : prot ∈ records db handle) (h' : prot' ∈ records db handle)
    (hpair : prot.pair = prot'.pair) : prot = prot' :=
  inj_on_of_nodup_map (records_unique db handle) h h' (congrArg Prod.fst hpair)

theorem Removed.perm (hrem : Removed db db' handle prot.pair) (hprot : prot ∈ records db handle) :
    (held db handle).Perm (prot.pair :: held db' handle) := by
  obtain ⟨found, before, after, _, hfnd, hspl, herase⟩ :=
    exists_of_eraseP hprot ((matchesPair_iff).2 rfl)
  rw [held, held, hrem.at_handle, herase, hspl, map_append, map_append,
    map_cons, (matchesPair_iff).1 hfnd]
  exact perm_middle

theorem Removed.mem_iff (hrem : Removed db db' handle pair)
    (hoth : prot.pair ≠ pair) : prot ∈ records db' handle ↔ prot ∈ records db handle := by
  rw [hrem.at_handle]
  apply mem_eraseP_of_neg
  rw [matchesPair_iff]
  exact hoth

/-- Whoever has opened the interface agrees to close it. -/
def Released (env : Environment) (prot : ProtocolInterface) : Prop :=
  coreDisconnectControllersUsingProtocolInterface env prot = .success

theorem uninstall_cases (env : Environment) (db : HandleDatabase) (handle : Handle)
    (pair : ProtocolPair) :
    ((coreUninstallProtocolInterface env db handle pair).1.isError = true ∧
        (coreUninstallProtocolInterface env db handle pair).2 = db) ∨
      ((coreUninstallProtocolInterface env db handle pair).1.isError = false ∧
        Removed db (coreUninstallProtocolInterface env db handle pair).2 handle pair ∧
          ∃ prot ∈ records db handle, prot.pair = pair ∧ Released env prot) := by
  rw [coreUninstallProtocolInterface]
  cases hlook : db.handles.lookup handle with
  | none => exact .inl ⟨rfl, rfl⟩
  | some ihandle =>
    dsimp only
    cases hfind : coreFindProtocolInterface ihandle pair with
    | none => exact .inl ⟨rfl, rfl⟩
    | some prot =>
      dsimp only
      cases herr : (coreDisconnectControllersUsingProtocolInterface env prot).isError with
      | true => exact .inl ⟨rfl, rfl⟩
      | false =>
        refine .inr ⟨rfl, removed_removeInterface hlook, prot, ?_, ?_, ?_⟩
        · rw [records_of_lookup hlook]
          exact mem_of_find?_eq_some hfind
        · exact (matchesPair_iff).1 (find?_some hfind)
        · simpa [Released, EfiStatus.isError] using herr

theorem uninstall_of_released (hprot : prot ∈ records db handle) (hrel : Released env prot) :
    (coreUninstallProtocolInterface env db handle prot.pair).1.isError = false ∧
      Removed db (coreUninstallProtocolInterface env db handle prot.pair).2 handle prot.pair := by
  rcases uninstall_cases env db handle prot.pair with ⟨herr, _⟩ | ⟨hok, hrem, _⟩
  · exfalso
    cases hlook : db.handles.lookup handle with
    | none =>
      rw [(records_nil_iff db handle).2 hlook] at hprot
      exact not_mem_nil hprot
    | some ihandle =>
      have hmem : prot ∈ ihandle.protocols := records_of_lookup hlook ▸ hprot
      obtain ⟨found, hfind⟩ := Option.isSome_iff_exists.1
        (find?_isSome.2 ⟨prot, hmem, (matchesPair_iff).2 rfl⟩)
      have hfnd : found = prot := eq_of_pair_eq
        (records_of_lookup hlook ▸ mem_of_find?_eq_some hfind) hprot
        ((matchesPair_iff).1 (find?_some hfind))
      have hfind' : coreFindProtocolInterface ihandle prot.pair = some prot := hfnd ▸ hfind
      rw [Released] at hrel
      simp [coreUninstallProtocolInterface, hlook, hfind', hrel, EfiStatus.isError] at herr
  · exact ⟨hok, hrem⟩

/-- The interfaces `front` left the handle one after the other. -/
structure Uninstalled (env : Environment) (db db' : HandleDatabase) (handle : Handle)
    (front : List ProtocolPair) : Prop where
  perm : (held db handle).Perm (front ++ held db' handle)
  elsewhere : ∀ other ≠ handle, records db' other = records db other
  subset : ∀ prot ∈ records db' handle, prot ∈ records db handle
  released : ∀ pair ∈ front, ∃ prot ∈ records db handle, prot.pair = pair ∧ Released env prot

theorem Uninstalled.nil (env : Environment) (db : HandleDatabase) (handle : Handle) :
    Uninstalled env db db handle [] :=
  ⟨List.Perm.refl _, fun _ _ => rfl, fun _ h => h, fun _ h => absurd h not_mem_nil⟩

theorem Uninstalled.cons (hprot : prot ∈ records db handle) (hrel : Released env prot)
    (hrem : Removed db db₁ handle prot.pair) (h : Uninstalled env db₁ db₂ handle front) :
    Uninstalled env db db₂ handle (prot.pair :: front) := by
  have hsub : ∀ p ∈ records db₁ handle, p ∈ records db handle := by
    rw [hrem.at_handle]
    exact fun p hp => mem_of_mem_eraseP hp
  refine ⟨(hrem.perm hprot).trans (h.perm.cons _), ?_, ?_, ?_⟩
  · intro other hoth
    rw [h.elsewhere other hoth, hrem.elsewhere other hoth]
  · exact fun p hp => hsub p (h.subset p hp)
  · intro pair hpair
    rcases mem_cons.1 hpair with rfl | hpair
    · exact ⟨prot, hprot, rfl, hrel⟩
    · obtain ⟨p, hp, hpp, hr⟩ := h.released pair hpair
      exact ⟨p, hsub p hp, hpp, hr⟩

theorem uninstallEach_spec (pairs : List ProtocolPair) (index : Nat) (db : HandleDatabase) :
    ∃ front back, pairs = front ++ back ∧
      Uninstalled env db (uninstallEach env handle pairs index db).2.2 handle front ∧
      ((uninstallEach env handle pairs index db).1.isError = true →
        back ≠ [] ∧ (uninstallEach env handle pairs index db).2.1 = index + front.length + 1) := by
  induction pairs generalizing index db with
  | nil => exact ⟨[], [], rfl, Uninstalled.nil env db handle, fun h => by cases h⟩
  | cons pair rest ih =>
    rw [uninstallEach]
    rcases uninstall_cases env db handle pair with
      ⟨herr, hsame⟩ | ⟨hok, hrem, prot, hprot, rfl, hrel⟩
    · refine ⟨[], pair :: rest, rfl, ?_, ?_⟩
      · simp only [herr, if_true, hsame]
        exact Uninstalled.nil env db handle
      · simp [herr]
    · obtain ⟨front, back, hspl, huninst, hidx⟩ :=
        ih (index + 1) (coreUninstallProtocolInterface env db handle prot.pair).2
      refine ⟨prot.pair :: front, back, by rw [hspl, cons_append], ?_, ?_⟩
      · simp only [hok, Bool.false_eq_true, if_false]
        exact Uninstalled.cons hprot hrel hrem huninst
      · simp only [hok, Bool.false_eq_true, if_false]
        intro herr
        obtain ⟨hback, hcnt⟩ := hidx herr
        refine ⟨hback, ?_⟩
        rw [hcnt, length_cons]
        omega

/-- The interfaces can leave the handle one after the other. -/
structure Removable (env : Environment) (db : HandleDatabase) (handle : Handle)
    (front : List ProtocolPair) : Prop where
  nodup : front.Nodup
  released : ∀ pair ∈ front, ∃ prot ∈ records db handle, prot.pair = pair ∧ Released env prot

theorem Removable.step {rest : List ProtocolPair} (h : Removable env db handle (pair :: rest)) :
    (coreUninstallProtocolInterface env db handle pair).1.isError = false ∧
      Removable env (coreUninstallProtocolInterface env db handle pair).2 handle rest ∧
      ∀ db₂ front, Uninstalled env (coreUninstallProtocolInterface env db handle pair).2 db₂
        handle front → Uninstalled env db db₂ handle (pair :: front) := by
  obtain ⟨prot, hprot, rfl, hrel⟩ := h.released pair mem_cons_self
  obtain ⟨hok, hrem⟩ := uninstall_of_released hprot hrel
  obtain ⟨hnew, hnd⟩ := nodup_cons.1 h.nodup
  refine ⟨hok, ⟨hnd, ?_⟩, fun db₂ front hu => Uninstalled.cons hprot hrel hrem hu⟩
  intro other hoth
  obtain ⟨p, hp, rfl, hr⟩ := h.released other (mem_cons_of_mem _ hoth)
  refine ⟨p, (hrem.mem_iff ?_).2 hp, rfl, hr⟩
  intro heq
  exact hnew (heq ▸ hoth)

theorem uninstallEach_removable (back : List ProtocolPair) (index : Nat)
    (h : Removable env db handle front) :
    ∃ db₁, Uninstalled env db db₁ handle front ∧
      uninstallEach env handle (front ++ back) index db
        = uninstallEach env handle back (index + front.length) db₁ := by
  induction front generalizing index db with
  | nil => exact ⟨db, Uninstalled.nil env db handle, rfl⟩
  | cons pair rest ih =>
    obtain ⟨hok, hrest, hcons⟩ := h.step
    obtain ⟨db₁, hu, heq⟩ := ih (index + 1) hrest
    refine ⟨db₁, hcons db₁ rest hu, ?_⟩
    rw [cons_append, uninstallEach]
    simp only [hok, Bool.false_eq_true, if_false]
    rw [heq, length_cons, Nat.add_assoc, Nat.add_comm 1]

theorem uninstallBack_removable (back : List ProtocolPair) (h : Removable env db handle front) :
    Uninstalled env db (uninstallBack env handle (front.length + 1) (front ++ back) db)
      handle front := by
  induction front generalizing db with
  | nil =>
    exact Uninstalled.nil env db handle
  | cons pair rest ih =>
    obtain ⟨_, hrest, hcons⟩ := h.step
    exact hcons _ rest (ih hrest)

theorem handleProtocol_error_iff (protocol : Guid) :
    (coreHandleProtocol env db handle protocol).1.isError = true ↔
      protocol ∉ (records db handle).map ProtocolInterface.protocol := by
  rw [coreHandleProtocol]
  cases hlook : db.handles.lookup handle with
  | none =>
    rw [(records_nil_iff db handle).2 hlook]
    exact ⟨fun _ => not_mem_nil, fun _ => rfl⟩
  | some ihandle =>
    rw [records_of_lookup hlook]
    dsimp only
    cases hget : coreGetProtocolInterface ihandle protocol with
    | none =>
      refine ⟨fun _ hmem => ?_, fun _ => rfl⟩
      obtain ⟨prot, hprot, heq⟩ := mem_map.1 hmem
      exact find?_eq_none.1 hget prot hprot (by simpa using heq)
    | some prot =>
      refine ⟨fun h => (by cases h), fun h => absurd ?_ h⟩
      exact mem_map.2 ⟨prot, mem_of_find?_eq_some hget, by simpa using find?_some hget⟩

/-- A new interface is the first one on the handle. -/
structure Added (db db' : HandleDatabase) (handle : Handle) (pair : ProtocolPair) : Prop where
  at_handle : records db' handle = newProtocolInterface pair :: records db handle
  elsewhere : ∀ other ≠ handle, records db' other = records db other

theorem added_insertHead (hnull : handle ≠ 0) (h : db.handles.lookup handle = some ihandle)
    (hnew : pair.1 ∉ (records db handle).map ProtocolInterface.protocol) :
    Added db (db.put handle (ihandle.insertHead pair)) handle pair := by
  refine ⟨?_, fun other hoth => records_put_ne db _ hoth⟩
  rw [records_put db hnull, records_of_lookup h, IHandle.insertHead, dif_neg]
  rwa [records_of_lookup h] at hnew

theorem install_on_valid (env : Environment) (taken : Handle) (hval : records db handle ≠ [])
    (hnew : pair.1 ∉ (records db handle).map ProtocolInterface.protocol) :
    ∃ db', coreInstallProtocolInterface env taken db handle pair = (.success, handle, db') ∧
      Added db db' handle pair := by
  have hnull : handle ≠ 0 := fun h => hval (h ▸ records_null db)
  cases hlook : db.handles.lookup handle with
  | none => exact absurd ((records_nil_iff db handle).2 hlook) hval
  | some ihandle =>
    refine ⟨db.put handle (ihandle.insertHead pair), ?_, added_insertHead hnull hlook hnew⟩
    simp [coreInstallProtocolInterface, hnull, (handleProtocol_error_iff pair.1).2 hnew, hlook]

theorem install_on_freed (env : Environment) (taken : Handle)
    (pair : ProtocolPair) (hnull : handle ≠ 0)
    (hfreed : records db handle = []) :
    coreInstallProtocolInterface env taken db handle pair = (.invalidParameter, handle, db) := by
  have hmissing : (coreHandleProtocol env db handle pair.1).1.isError = true := by
    rw [handleProtocol_error_iff, hfreed]
    exact not_mem_nil
  simp [coreInstallProtocolInterface, hnull, hmissing, (records_nil_iff db handle).1 hfreed]

theorem installBack_valid (env : Environment) (front back : List ProtocolPair)
    (hval : records db handle ≠ [])
    (hnd : ((front ++ held db handle).map Prod.fst).Nodup) :
    (held (installBack env (front.length + 1) (front ++ back) handle db) handle).Perm
        (front ++ held db handle) ∧
      ∀ other ≠ handle,
        records (installBack env (front.length + 1) (front ++ back) handle db) other
          = records db other := by
  induction front generalizing db with
  | nil =>
    exact ⟨List.Perm.refl _, fun _ _ => rfl⟩
  | cons pair rest ih =>
    rw [cons_append, map_cons, nodup_cons, map_append, mem_append, not_or] at hnd
    obtain ⟨⟨hrest, hnew⟩, hnd⟩ := hnd
    rw [held_protocols] at hnew
    obtain ⟨db₁, heq, hadd⟩ := install_on_valid env 0 hval hnew
    have hheld : held db₁ handle = pair :: held db handle := by
      rw [held, hadd.at_handle]
      rfl
    have hval₁ : records db₁ handle ≠ [] := by
      rw [hadd.at_handle]
      exact cons_ne_nil _ _
    have hnd₁ : ((rest ++ held db₁ handle).map Prod.fst).Nodup := by
      rw [hheld, map_append, map_cons, nodup_middle, nodup_cons, mem_append, not_or, held_protocols]
      rw [held_protocols] at hnd
      exact ⟨⟨hrest, hnew⟩, hnd⟩
    obtain ⟨hperm, helse⟩ := ih hval₁ hnd₁
    rw [hheld] at hperm
    rw [length_cons, cons_append, installBack]
    simp only [heq]
    refine ⟨hperm.trans perm_middle, ?_⟩
    intro other hoth
    rw [helse other hoth, hadd.elsewhere other hoth]

theorem installBack_freed (env : Environment) (index : Nat) (pairs : List ProtocolPair)
    (hnull : handle ≠ 0)
    (hfreed : records db handle = []) : installBack env index pairs handle db = db := by
  induction pairs generalizing index with
  | nil => rcases index with _ | _ | index <;> rfl
  | cons pair rest ih =>
    rcases index with _ | _ | index
    · rfl
    · rfl
    · rw [installBack]
      simp only [install_on_freed env 0 pair hnull hfreed]
      exact ih (index + 1)

theorem triples_eq_of_perm (hperm : (held db' handle).Perm (held db handle))
    (helse : ∀ other ≠ handle, held db' other = held db other) : triples db' = triples db := by
  ext ⟨other, pair⟩
  change pair ∈ held db' other ↔ pair ∈ held db other
  by_cases hoth : other = handle
  · rw [hoth]
    exact hperm.mem_iff
  · rw [helse other hoth]

/-- Every interface is still there, opened at most by `CoreHandleProtocol` since. -/
def Kept (db db' : HandleDatabase) : Prop :=
  ∀ handle, ∀ prot ∈ records db handle, ∃ prot' ∈ records db' handle,
    prot'.pair = prot.pair ∧
      ∀ item ∈ prot'.openList, item ∈ prot.openList ∨ item.attributes = openByHandleProtocol

theorem Kept.refl (db : HandleDatabase) : Kept db db :=
  fun _ prot hprot => ⟨prot, hprot, rfl, fun _ hitem => .inl hitem⟩

theorem Kept.trans {db₃ : HandleDatabase} (h₁ : Kept db₁ db₂) (h₂ : Kept db₂ db₃) :
    Kept db₁ db₃ := by
  intro handle prot hprot
  obtain ⟨prot₂, hprot₂, hpair₂, hitems₂⟩ := h₁ handle prot hprot
  obtain ⟨prot₃, hprot₃, hpair₃, hitems₃⟩ := h₂ handle prot₂ hprot₂
  refine ⟨prot₃, hprot₃, hpair₃.trans hpair₂, fun item hitem => ?_⟩
  rcases hitems₃ item hitem with hitem | hitem
  · exact hitems₂ item hitem
  · exact .inr hitem

theorem Added.kept (h : Added db db' handle pair) : Kept db db' := by
  intro other prot hprot
  refine ⟨prot, ?_, rfl, fun _ hitem => .inl hitem⟩
  by_cases hoth : other = handle
  · rw [hoth] at hprot ⊢
    rw [h.at_handle]
    exact mem_cons_of_mem _ hprot
  · rwa [h.elsewhere other hoth]

theorem mem_openForImage {image : Handle} {openList : List OpenProtocolData}
    {item : OpenProtocolData} (h : item ∈ openForImage image openList) :
    item ∈ openList ∨ item.attributes = openByHandleProtocol := by
  rw [openForImage] at h
  split at h
  · exact .inl h
  · rcases mem_append.1 h with h | h
    · exact .inl h
    · rw [mem_singleton.1 h]
      exact .inr rfl

theorem handleProtocol_keeps (hnull : handle ≠ 0) (protocol : Guid) :
    (∀ other, held (coreHandleProtocol env db handle protocol).2 other = held db other) ∧
      Kept db (coreHandleProtocol env db handle protocol).2 := by
  rw [coreHandleProtocol]
  cases hlook : db.handles.lookup handle with
  | none => exact ⟨fun _ => rfl, Kept.refl db⟩
  | some ihandle =>
    dsimp only
    cases coreGetProtocolInterface ihandle protocol with
    | none => exact ⟨fun _ => rfl, Kept.refl db⟩
    | some prot =>
      have hrecs : records (db.put handle (ihandle.opened env.dxeCoreImageHandle protocol))
          handle = (records db handle).map (openProtocol env.dxeCoreImageHandle protocol) := by
        rw [records_put db hnull, records_of_lookup hlook, IHandle.opened]
      refine ⟨fun other => ?_, fun other p hp => ?_⟩
      · by_cases hoth : other = handle
        · rw [hoth, held, hrecs, map_map]
          exact map_congr_left (fun p _ => openProtocol_pair)
        · rw [held, records_put_ne db _ hoth, held]
      · by_cases hoth : other = handle
        · rw [hoth] at hp ⊢
          rw [hrecs]
          refine ⟨_, mem_map_of_mem hp, openProtocol_pair, fun item hitem => ?_⟩
          rw [openProtocol] at hitem
          split at hitem
          · exact mem_openForImage hitem
          · exact .inl hitem
        · rw [records_put_ne db _ hoth]
          exact ⟨p, hp, rfl, fun _ hitem => .inl hitem⟩

theorem install_cases (taken : Handle) (db : HandleDatabase)
    (handle : Handle) (pair : ProtocolPair) :
    ∃ status new db', coreInstallProtocolInterface env taken db handle pair = (status, new, db') ∧
      (status.isError = true ∧ new = handle ∧ (∀ other, held db' other = held db other) ∧
          Kept db db' ∨
        status.isError = false ∧ new ≠ 0 ∧ (handle ≠ 0 → new = handle) ∧
          Added db db' new pair) := by
  by_cases hnull : handle = 0
  · rw [coreInstallProtocolInterface, if_pos hnull]
    split
    · exact ⟨_, _, _, rfl, .inl ⟨rfl, rfl, fun _ => rfl, Kept.refl db⟩⟩
    · next halloc =>
      split
      · exact ⟨_, _, _, rfl, .inl ⟨rfl, rfl, fun _ => rfl, Kept.refl db⟩⟩
      · next hunused =>
        refine ⟨_, _, _, rfl, .inr ⟨rfl, halloc, fun h => absurd hnull h, ?_, ?_⟩⟩
        · have hnone : db.handles.lookup taken = none := by simpa using hunused
          rw [records_put db halloc, (records_nil_iff db taken).2 hnone]
          rfl
        · exact fun other hoth => records_put_ne db _ hoth
  · by_cases hnew : pair.1 ∈ (records db handle).map ProtocolInterface.protocol
    · have hfnd : (coreHandleProtocol env db handle pair.1).1.isError = false := by
        rw [← Bool.not_eq_true, handleProtocol_error_iff, not_not]
        exact hnew
      have heq : coreInstallProtocolInterface env taken db handle pair
          = (.invalidParameter, handle, (coreHandleProtocol env db handle pair.1).2) := by
        simp [coreInstallProtocolInterface, hnull, hfnd]
      exact ⟨_, _, _, heq, .inl ⟨rfl, rfl, handleProtocol_keeps hnull pair.1⟩⟩
    · by_cases hfreed : records db handle = []
      · exact ⟨_, _, _, install_on_freed env taken pair hnull hfreed,
          .inl ⟨rfl, rfl, fun _ => rfl, Kept.refl db⟩⟩
      · obtain ⟨db', heq, hadd⟩ := install_on_valid env taken hfreed hnew
        exact ⟨_, _, _, heq, .inr ⟨rfl, hnull, fun _ => rfl, hadd⟩⟩

/-- The interfaces `front` were put on the handle one after the other, and are
open to nobody but `CoreHandleProtocol`. -/
structure Installed (db db' : HandleDatabase) (handle : Handle) (front : List ProtocolPair) :
    Prop where
  perm : (held db' handle).Perm (front ++ held db handle)
  elsewhere : ∀ other ≠ handle, held db' other = held db other
  kept : Kept db db'
  fresh : ∀ pair ∈ front, ∃ prot ∈ records db' handle, prot.pair = pair ∧
    ∀ item ∈ prot.openList, item.attributes = openByHandleProtocol

theorem Installed.of_kept (handle : Handle)
    (hheld : ∀ other, held db' other = held db other) (hkept : Kept db db') :
    Installed db db' handle [] :=
  ⟨by rw [hheld handle]; exact List.Perm.refl _, fun other _ => hheld other, hkept,
    fun _ h => absurd h not_mem_nil⟩

theorem Installed.cons (hadd : Added db db₁ handle pair)
    (h : Installed db₁ db₂ handle front) : Installed db db₂ handle (pair :: front) := by
  have hheld : held db₁ handle = pair :: held db handle := by
    rw [held, hadd.at_handle]
    rfl
  refine ⟨?_, ?_, hadd.kept.trans h.kept, ?_⟩
  · have hperm := h.perm
    rw [hheld] at hperm
    exact hperm.trans perm_middle
  · intro other hoth
    rw [h.elsewhere other hoth, held, hadd.elsewhere other hoth, held]
  · intro other hoth
    rcases mem_cons.1 hoth with rfl | hoth
    · have hmem : newProtocolInterface other ∈ records db₁ handle := by
        rw [hadd.at_handle]
        exact mem_cons_self
      obtain ⟨prot, hprot, hpair, hitems⟩ := h.kept handle _ hmem
      refine ⟨prot, hprot, hpair, fun item hitem => ?_⟩
      rcases hitems item hitem with hnone | hitem
      · exact absurd hnone not_mem_nil
      · exact hitem
    · exact h.fresh other hoth

theorem installEach_spec (taken : Handle) (pairs : List ProtocolPair)
    (index : Nat) (handle : Handle) (db : HandleDatabase) :
    ∃ front back, pairs = front ++ back ∧
      (handle ≠ 0 → (installEach env taken pairs index handle db).2.2.1 = handle) ∧
      Installed db (installEach env taken pairs index handle db).2.2.2
        (installEach env taken pairs index handle db).2.2.1 front ∧
      ((installEach env taken pairs index handle db).1.isError = true →
        (installEach env taken pairs index handle db).2.1 = index + front.length + 1) := by
  induction pairs generalizing index handle db with
  | nil =>
    exact ⟨[], [], rfl, fun _ => rfl, Installed.of_kept handle (fun _ => rfl) (Kept.refl db),
      fun h => by cases h⟩
  | cons pair rest ih =>
    rw [installEach]
    split
    · exact ⟨[], pair :: rest, rfl, fun _ => rfl,
        Installed.of_kept handle (fun _ => rfl) (Kept.refl db), fun _ => rfl⟩
    · obtain ⟨status, new, db', heq, hcases⟩ := install_cases taken db handle pair
      rw [heq]
      rcases hcases with ⟨herr, hhandle, hheld, hkept⟩ | ⟨hok, hval, hhandle, hadd⟩
      · refine ⟨[], pair :: rest, rfl, ?_⟩
        simp only [herr, if_true]
        exact ⟨fun _ => hhandle, Installed.of_kept _ hheld hkept, fun _ => rfl⟩
      · obtain ⟨front, back, hspl, hsame, hinst, hidx⟩ := ih (index + 1) new db'
        refine ⟨pair :: front, back, by rw [hspl, cons_append], ?_⟩
        simp only [hok, Bool.false_eq_true, if_false]
        refine ⟨fun hnull => (hsame hval).trans (hhandle hnull), ?_, fun herr => ?_⟩
        · rw [hsame hval] at hinst ⊢
          exact Installed.cons hadd hinst
        · rw [hidx herr, length_cons]
          omega

theorem released_of_byHandle (h : ∀ item ∈ prot.openList, item.attributes = openByHandleProtocol) :
    Released env prot := by
  have hdrivers : prot.openList.find? OpenProtocolData.byDriver = none := by
    rw [find?_eq_none]
    intro item hitem
    rw [OpenProtocolData.byDriver, h item hitem]
    decide
  have hconn : disconnectDrivers env.stops prot.openList.length prot.openList
      = some prot.openList := by
    cases prot.openList.length with
    | zero => rfl
    | succ rounds => rw [disconnectDrivers, hdrivers]
  have hrest : prot.openList.filter (fun item => !item.transient) = [] := by
    rw [filter_eq_nil_iff]
    intro item hitem
    rw [OpenProtocolData.transient, h item hitem]
    decide
  rw [Released, coreDisconnectControllersUsingProtocolInterface, hconn]
  simp [hrest]

/-- A failed call leaves the database and the handle as they were. -/
def InstallRollsBack (env : Environment) (allocated : Handle) (db : HandleDatabase)
    (handle : Handle) (pairs : List ProtocolPair) : Prop :=
  ∀ status handle' db',
    coreInstallMultipleProtocolInterfaces env allocated db handle pairs = (status, handle', db') →
      status.isError = true → triples db' = triples db ∧ handle' = handle

/-- A failed call leaves the handle valid and the database as it was. -/
def UninstallRollsBack (env : Environment) (db : HandleDatabase) (handle : Handle)
    (pairs : List ProtocolPair) : Prop :=
  ∀ status db',
    coreUninstallMultipleProtocolInterfaces env db handle pairs = (status, db') →
      status.isError = true →
        coreValidateHandle db' handle = coreValidateHandle db handle ∧ triples db' = triples db

/-- A part of the list at its front, and not all of it, is everything that is
installed on the handle, and every driver that uses it agrees to stop. -/
def Exhausts (env : Environment) (db : HandleDatabase) (handle : Handle)
    (pairs : List ProtocolPair) : Prop :=
  ∃ front back, pairs = front ++ back ∧ front ≠ [] ∧ back ≠ [] ∧
    front.Perm (held db handle) ∧ ∀ prot ∈ records db handle, Released env prot

variable {taken : Handle} {pairs : List ProtocolPair}

theorem installRollsBack : InstallRollsBack env taken db handle pairs := by
  intro status handle' db' hcall herr
  obtain ⟨front, back, hspl, _, hinst, hidx⟩ :=
    installEach_spec taken pairs 0 handle db
  rw [coreInstallMultipleProtocolInterfaces] at hcall
  generalize installEach env taken pairs 0 handle db = result at hcall hinst hidx
  obtain ⟨status₁, index, current, db₁⟩ := result
  dsimp only at hcall hinst hidx
  by_cases hfail : status₁.isError = true
  · rw [if_pos hfail, Prod.mk.injEq, Prod.mk.injEq] at hcall
    obtain ⟨_, rfl, rfl⟩ := hcall
    refine ⟨?_, rfl⟩
    have hremovable : Removable env db₁ current front := by
      refine ⟨?_, fun pair hpair => ?_⟩
      · have hnd := (hinst.perm.nodup_iff).1 (held_unique db₁ current).of_map
        exact (nodup_append.1 hnd).1
      · obtain ⟨prot, hprot, hpair, hitems⟩ := hinst.fresh pair hpair
        exact ⟨prot, hprot, hpair, released_of_byHandle hitems⟩
    have hback := uninstallBack_removable back hremovable
    rw [hidx hfail, Nat.zero_add, hspl]
    apply triples_eq_of_perm
    · exact (perm_append_left_iff front).1 (hback.perm.symm.trans hinst.perm)
    · intro other hoth
      rw [held, hback.elsewhere other hoth, ← held, hinst.elsewhere other hoth]
  · rw [if_neg hfail, Prod.mk.injEq] at hcall
    rw [hcall.1] at hfail
    exact absurd herr hfail

theorem uninstall_not_exhausts (h : ¬ Exhausts env db handle pairs) :
    UninstallRollsBack env db handle pairs := by
  intro status db' hcall herr
  obtain ⟨front, back, hspl, hun, hidx⟩ := uninstallEach_spec pairs 0 db
  rw [coreUninstallMultipleProtocolInterfaces] at hcall
  generalize uninstallEach env handle pairs 0 db = result at hcall hun hidx
  obtain ⟨status₁, index, db₁⟩ := result
  dsimp only at hcall hun hidx
  by_cases hfail : status₁.isError = true
  · rw [if_pos hfail, Prod.mk.injEq] at hcall
    obtain ⟨_, rfl⟩ := hcall
    obtain ⟨hback, hcnt⟩ := hidx hfail
    rw [hcnt, Nat.zero_add]
    suffices hrestored : (held (installBack env (front.length + 1) pairs handle db₁) handle).Perm
        (held db handle) ∧ ∀ other ≠ handle,
          held (installBack env (front.length + 1) pairs handle db₁) other = held db other by
      refine ⟨?_, triples_eq_of_perm hrestored.1 hrestored.2⟩
      rw [Bool.eq_iff_iff, coreValidateHandle_iff, coreValidateHandle_iff]
      rw [ne_eq, ne_eq, not_iff_not]
      exact ⟨fun hnil => by rw [hnil] at hrestored; exact hrestored.1.nil_eq.symm ▸ rfl,
        fun hnil => by rw [hnil] at hrestored; exact hrestored.1.eq_nil⟩
    have helse : ∀ other ≠ handle, held db₁ other = held db other := by
      intro other hoth
      rw [held, hun.elsewhere other hoth, held]
    by_cases hfreed : records db₁ handle = []
    · -- a freed handle with something uninstalled is what the condition excludes
      have hheld : held db₁ handle = [] := (held_eq_nil_iff db₁ handle).2 hfreed
      have hperm : (held db handle).Perm front := by
        have := hun.perm
        rwa [hheld, append_nil] at this
      have hfr : front = [] := by
        by_contra hfr
        refine h ⟨front, back, hspl, hfr, hback, hperm.symm, fun prot hprot => ?_⟩
        obtain ⟨prot', hprot', hpair, hrel⟩ := hun.released prot.pair
          (hperm.mem_iff.1 (mem_map_of_mem hprot))
        exact eq_of_pair_eq hprot' hprot hpair ▸ hrel
      have hsame : installBack env (front.length + 1) pairs handle db₁ = db₁ := by
        rw [hfr]
        cases pairs <;> rfl
      rw [hsame]
      refine ⟨?_, helse⟩
      rw [hheld]
      rw [hfr] at hperm
      exact hperm.symm
    · have hnd : ((front ++ held db₁ handle).map Prod.fst).Nodup :=
        ((hun.perm.map Prod.fst).nodup_iff).1 (held_unique db handle)
      obtain ⟨hperm, helse₁⟩ := installBack_valid env front back hfreed hnd
      rw [hspl]
      refine ⟨hperm.trans hun.perm.symm, fun other hoth => ?_⟩
      rw [held, helse₁ other hoth, ← held, helse other hoth]
  · rw [if_neg hfail, Prod.mk.injEq] at hcall
    rw [hcall.1] at hfail
    exact absurd herr hfail

theorem not_uninstall_of_exhausts (h : Exhausts env db handle pairs) :
    ¬ UninstallRollsBack env db handle pairs := by
  intro hroll
  obtain ⟨front, back, rfl, hfr, hback, hperm, hreleased⟩ := h
  have hremovable : Removable env db handle front := by
    refine ⟨(hperm.nodup_iff).2 (held_unique db handle).of_map, fun pair hpair => ?_⟩
    obtain ⟨prot, hprot, rfl⟩ := mem_map.1 (hperm.mem_iff.1 hpair)
    exact ⟨prot, hprot, rfl, hreleased prot hprot⟩
  obtain ⟨db₁, hun, heq⟩ := uninstallEach_removable back 0 hremovable
  have hheld : held db₁ handle = [] := by
    have hcancel : (front ++ held db₁ handle).Perm (front ++ []) := by
      rw [append_nil]
      exact hun.perm.symm.trans hperm.symm
    exact ((perm_append_left_iff front).1 hcancel).eq_nil
  have hfreed := (held_eq_nil_iff db₁ handle).1 hheld
  obtain ⟨pair, hpair⟩ := exists_mem_of_ne_nil front hfr
  have hpre : pair ∈ held db handle := hperm.mem_iff.1 hpair
  have hnull : handle ≠ 0 := by
    obtain ⟨prot, hprot, _⟩ := mem_map.1 hpre
    exact ne_zero_of_mem_records hprot
  obtain ⟨next, rest, rfl⟩ := exists_cons_of_ne_nil hback
  have hfail : coreUninstallProtocolInterface env db₁ handle next = (.invalidParameter, db₁) := by
    rw [coreUninstallProtocolInterface, (records_nil_iff db₁ handle).1 hfreed]
  have hcall : coreUninstallMultipleProtocolInterfaces env db handle (front ++ next :: rest)
      = (.invalidParameter, db₁) := by
    rw [coreUninstallMultipleProtocolInterfaces, heq, uninstallEach]
    simp [hfail, EfiStatus.isError, installBack_freed env _ _ hnull hfreed]
  have htriples := (hroll _ _ hcall rfl).2
  have hafter : (handle, pair) ∈ triples db₁ := htriples ▸ hpre
  change pair ∈ held db₁ handle at hafter
  rw [hheld] at hafter
  exact not_mem_nil hafter

/-- Both services take back what they have done before an error, except that a handle that
has lost all its interfaces on the way stays freed. -/
theorem multipleProtocolInterfaces_rollBack_iff (env : Environment) (allocated : Handle)
    (db : HandleDatabase) (handle : Handle) (pairs : List ProtocolPair) :
    InstallRollsBack env allocated db handle pairs ∧ UninstallRollsBack env db handle pairs ↔
      ¬ Exhausts env db handle pairs := by
  constructor
  · rintro ⟨_, huninstall⟩ hexhausts
    exact not_uninstall_of_exhausts hexhausts huninstall
  · intro h
    exact ⟨installRollsBack, uninstall_not_exhausts h⟩

def emptyEnvironment : Environment where
  dxeCoreImageHandle := 0
  devicePath := fun _ => []
  stops := fun _ => true

/-- A handle with a single interface. -/
def oneInterface : HandleDatabase where
  handles := AList.singleton 1 (newHandle (1, 10))
  null_absent := by decide

/-- The first pair frees the handle, so the second fails and the first is lost. -/
theorem oneInterface_not_reinstalled :
    ((1, 1, 10) : Handle × ProtocolPair) ∈ triples oneInterface ∧
      (coreUninstallMultipleProtocolInterfaces emptyEnvironment oneInterface 1
        [(1, 10), (2, 20)]).1 = .invalidParameter ∧
      coreValidateHandle (coreUninstallMultipleProtocolInterfaces emptyEnvironment oneInterface 1
        [(1, 10), (2, 20)]).2 1 = false ∧
      ((1, 1, 10) : Handle × ProtocolPair) ∉ triples
        (coreUninstallMultipleProtocolInterfaces emptyEnvironment oneInterface 1
          [(1, 10), (2, 20)]).2 := by
  refine ⟨?_, by decide, by decide, ?_⟩
  · change _ ∈ held oneInterface 1
    decide
  · change _ ∉ held _ 1
    decide

end MuBasecore.HandleRollback
