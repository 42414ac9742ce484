import MuBasecore.ReclaimRecords

/-!
Lookups before and after a `Reclaim`. A lookup falls back on the last record in deleted
transition, `Reclaim` keeps the first one; the two agree on the variables that have an
added record.
-/

namespace MuBasecore.ReclaimLookup

open ByteMemory ReclaimRecords VariableFormat VariableLookup VariableRecord List Bool
open Option hiding any_eq_true

variable {r : VariableRecord}

def value (r : VariableRecord) : Attributes × List Byte :=
  (r.attributes, r.data)

def find (all : Bool) (name : VariableName) (guid : GuidBytes) (rs : List VariableRecord) :
    Option (Attributes × List Byte) :=
  (lookup all name.bytes guid rs).map value

def firstAdded (name : VariableName) (guid : GuidBytes) (rs : List VariableRecord) :
    Option VariableRecord :=
  rs.find? fun r => r.added && hasKey name.bytes guid r

def firstInDeleted (name : VariableName) (guid : GuidBytes) (rs : List VariableRecord) :
    Option VariableRecord :=
  rs.find? fun r => r.inDeleted && hasKey name.bytes guid r

def lastInDeleted (name : VariableName) (guid : GuidBytes) (rs : List VariableRecord) :
    Option VariableRecord :=
  (rs.filter fun r => r.inDeleted && hasKey name.bytes guid r).getLast?

structure WellNamed (rs : List VariableRecord) : Prop where
  proper : ∀ r ∈ rs, r.live → ProperName r.name
  attributes : ∀ r ∈ rs, r.live → ∀ s ∈ rs, s.live → hasKey r.name r.guid s →
    s.attributes = r.attributes

theorem hasKey_iff {name : List Byte} {guid : GuidBytes} :
    hasKey name guid r ↔ r.guid = guid ∧ r.name = name := by
  rw [hasKey, and_eq_true, beq_iff_eq, beq_iff_eq]

theorem hasKey_self : hasKey r.name r.guid r :=
  hasKey_iff.2 ⟨rfl, rfl⟩

variable {name : VariableName} {guid : GuidBytes}

section Lookup

variable {rs : List VariableRecord}

theorem WellNamed.selects_eq (h : WellNamed rs) (hname : name.chars ≠ []) (all : Bool)
    (hr : r ∈ rs) :
    selects all name.bytes guid r =
      (r.live && (all || r.attributes.has efiVariableRuntimeAccess) &&
        hasKey name.bytes guid r) := by
  by_cases hlive : r.live
  · exact VariableLookup.selects_eq ⟨name, hname, rfl⟩ all guid (h.proper r hr hlive)
  · simp [selects, hlive]

theorem firstAdded_mem (h : firstAdded name guid rs = some r) :
    r ∈ rs ∧ r.added ∧ hasKey name.bytes guid r := by
  have hr := find?_some h
  rw [and_eq_true] at hr
  exact ⟨mem_of_find?_eq_some h, hr⟩

theorem firstInDeleted_mem (h : firstInDeleted name guid rs = some r) :
    r ∈ rs ∧ r.inDeleted ∧ hasKey name.bytes guid r := by
  have hr := find?_some h
  rw [and_eq_true] at hr
  exact ⟨mem_of_find?_eq_some h, hr⟩

theorem lastInDeleted_mem (h : lastInDeleted name guid rs = some r) :
    r ∈ rs ∧ r.inDeleted ∧ hasKey name.bytes guid r := by
  have hr := mem_of_getLast? h
  rw [mem_filter, and_eq_true] at hr
  exact hr

theorem or_mem (h : (firstAdded name guid rs).or (lastInDeleted name guid rs) = some r) :
    r ∈ rs ∧ r.live ∧ hasKey name.bytes guid r := by
  rcases or_eq_some_iff.1 h with h | ⟨_, h⟩
  · obtain ⟨hr, hadd, hkey⟩ := firstAdded_mem h
    exact ⟨hr, by simp [live, hadd], hkey⟩
  · obtain ⟨hr, hdel, hkey⟩ := lastInDeleted_mem h
    exact ⟨hr, by simp [live, hdel], hkey⟩

theorem lookup_wellNamed (h : WellNamed rs) (hname : name.chars ≠ []) (all : Bool) :
    lookup all name.bytes guid rs =
      ((firstAdded name guid rs).or (lastInDeleted name guid rs)).filter fun r =>
        all || r.attributes.has efiVariableRuntimeAccess := by
  rw [lookup_eq]
  -- the records of one variable share their attrs, so all are visible or none is
  obtain ⟨visible, hvis⟩ : ∃ visible, ∀ r ∈ rs, r.live → hasKey name.bytes guid r →
      (all || r.attributes.has efiVariableRuntimeAccess) = visible := by
    by_cases hsome : ∃ r ∈ rs, r.live ∧ hasKey name.bytes guid r
    · obtain ⟨r, hr, hlive, hkey⟩ := hsome
      refine ⟨all || r.attributes.has efiVariableRuntimeAccess, fun s hs hsl hskey => ?_⟩
      obtain ⟨hrguid, hrname⟩ := hasKey_iff.1 hkey
      rw [h.attributes r hr hlive s hs hsl (by rw [hrname, hrguid, hskey])]
    · exact ⟨true, fun r hr hlive hkey => absurd ⟨r, hr, hlive, hkey⟩ hsome⟩
  have hselects : ∀ r ∈ rs, selects all name.bytes guid r =
      (r.live && hasKey name.bytes guid r && visible) := by
    intro r hr
    rw [h.selects_eq hname all hr]
    by_cases hlive : r.live
    · by_cases hkey : hasKey name.bytes guid r
      · simp [hvis r hr hlive hkey, hlive, hkey]
      · simp [hkey]
    · simp [hlive]
  have hright : (((firstAdded name guid rs).or (lastInDeleted name guid rs)).filter fun r =>
      all || r.attributes.has efiVariableRuntimeAccess) =
        if visible then (firstAdded name guid rs).or (lastInDeleted name guid rs) else none := by
    cases hor : (firstAdded name guid rs).or (lastInDeleted name guid rs) with
    | none => simp
    | some r =>
      obtain ⟨hr, hlive, hkey⟩ := or_mem hor
      rw [filter_some, hvis r hr hlive hkey]
  rw [hright]
  cases visible with
  | false =>
    simp only [Bool.and_false] at hselects
    rw [find?_eq_none.2 fun r hr => by simp [hselects r hr],
      filter_eq_nil_iff.2 fun r hr => by simp [hselects r hr]]
    rfl
  | true =>
    rw [lastInDeleted, if_pos rfl]
    refine congrArg₂ _ (find?_congr fun r hr => ?_)
      (congrArg getLast? (filter_congr fun r hr => ?_))
    · rw [hselects r hr, live]
      by_cases hadd : r.added
      · simp [hadd, not_inDeleted hadd]
      · cases hdel : r.inDeleted <;> simp [hadd]
    · rw [hselects r hr, live]
      cases hdel : r.inDeleted <;> simp

end Lookup

section Reclaimed

variable {kept rs : List VariableRecord}

def promoted (r : VariableRecord) : VariableRecord :=
  { r with state := varAdded }

theorem hasKey_promoted (name : List Byte) :
    hasKey name guid (promoted r) = hasKey name guid r := rfl

theorem find?_reinstalled :
    (reinstalled kept rs).find? (hasKey name.bytes guid) =
      (kept.find? (hasKey name.bytes guid)).or ((firstInDeleted name guid rs).map promoted) := by
  induction rs generalizing kept with
  | nil => simp [reinstalled, firstInDeleted]
  | cons r rs ih =>
    rw [reinstalled, firstInDeleted]
    by_cases hdel : r.inDeleted
    · by_cases hany : kept.any (hasKey r.name r.guid) = false
      · rw [if_pos ⟨hdel, hany⟩, ih, find?_append, Option.or_assoc]
        congr 1
        change (find? (hasKey name.bytes guid) [promoted r]).or _ = _
        by_cases hkey : hasKey name.bytes guid r
        · rw [find?_cons_of_pos (by rw [hasKey_promoted, hkey]),
            find?_cons_of_pos (by simp [hdel, hkey])]
          rfl
        · rw [find?_cons_of_neg (by rwa [hasKey_promoted]), find?_cons_of_neg (by simp [hkey])]
          rfl
      · rw [if_neg fun hc => hany hc.2, ih]
        by_cases hkey : hasKey name.bytes guid r
        · obtain ⟨hguid, hrname⟩ := hasKey_iff.1 hkey
          rw [not_eq_false, hguid, hrname, any_eq_true] at hany
          obtain ⟨t, ht⟩ := isSome_iff_exists.1 (find?_isSome.2 hany)
          rw [ht, some_or, some_or]
        · rw [find?_cons_of_neg (by simp [hkey]), firstInDeleted]
    · rw [if_neg fun hc => hdel hc.1, find?_cons_of_neg (by simp [hdel]), ih,
        firstInDeleted]

theorem mem_reinstalled (h : r ∈ reinstalled kept rs) :
    r ∈ kept ∨ ∃ s ∈ rs, s.inDeleted ∧ r = promoted s := by
  induction rs generalizing kept with
  | nil => exact .inl h
  | cons s rs ih =>
    rw [reinstalled] at h
    split at h
    case isTrue hkeep =>
      rcases ih h with h | ⟨t, ht, htdel, rfl⟩
      · rcases mem_append.1 h with h | h
        · exact .inl h
        · rw [mem_singleton] at h
          exact .inr ⟨s, mem_cons_self, hkeep.1, h⟩
      · exact .inr ⟨t, mem_cons_of_mem _ ht, htdel, rfl⟩
    case isFalse =>
      rcases ih h with h | ⟨t, ht, htdel, rfl⟩
      · exact .inl h
      · exact .inr ⟨t, mem_cons_of_mem _ ht, htdel, rfl⟩

/-- The records that a `Reclaim` without an updating variable keeps. -/
def reclaimed (rs : List VariableRecord) : List VariableRecord :=
  reinstalled (rs.filter VariableRecord.added) rs

theorem mem_reclaimed (h : r ∈ reclaimed rs) : r.added ∧ ∃ s ∈ rs, s.live ∧ r = promoted s := by
  rcases mem_reinstalled h with h | ⟨s, hs, hdel, rfl⟩
  · rw [mem_filter] at h
    refine ⟨h.2, r, h.1, by simp [live, h.2], ?_⟩
    rw [promoted, ← beq_iff_eq.1 h.2]
  · exact ⟨beq_self_eq_true _, s, hs, by simp [live, hdel], rfl⟩

theorem WellNamed.reclaimed (h : WellNamed rs) : WellNamed (reclaimed rs) where
  proper r hr _ := by
    obtain ⟨_, s, hs, hlive, rfl⟩ := mem_reclaimed hr
    exact h.proper s hs hlive
  attributes r hr _ r' hr' _ hkey := by
    obtain ⟨_, s, hs, hlive, rfl⟩ := mem_reclaimed hr
    obtain ⟨_, s', hs', hlive', rfl⟩ := mem_reclaimed hr'
    exact h.attributes s hs hlive s' hs' hlive' hkey

theorem firstAdded_reclaimed :
    firstAdded name guid (reclaimed rs) =
      (firstAdded name guid rs).or ((firstInDeleted name guid rs).map promoted) := by
  have hadd : firstAdded name guid (reclaimed rs) =
      (reclaimed rs).find? (hasKey name.bytes guid) := by
    apply find?_congr
    intro r hr
    rw [(mem_reclaimed hr).1, Bool.true_and]
  rw [hadd, reclaimed, find?_reinstalled, find?_filter, firstAdded]
  congr 1
  apply find?_congr
  intro r _
  simp

theorem lastInDeleted_reclaimed : lastInDeleted name guid (reclaimed rs) = none := by
  rw [lastInDeleted, getLast?_eq_none_iff, filter_eq_nil_iff]
  intro r hr
  have := not_inDeleted (mem_reclaimed hr).1
  simp [this]

def Settled (rs : List VariableRecord) : Prop :=
  ∀ (name : VariableName) (guid : GuidBytes), name.chars ≠ [] →
    firstAdded name guid rs = none →
      (firstInDeleted name guid rs).map VariableRecord.data =
        (lastInDeleted name guid rs).map VariableRecord.data

theorem lastInDeleted_none_iff :
    lastInDeleted name guid rs = none ↔ firstInDeleted name guid rs = none := by
  rw [lastInDeleted, firstInDeleted, ← head?_filter, getLast?_eq_none_iff, head?_eq_none_iff]

theorem find_reclaimed_iff (h : WellNamed rs) :
    (∀ (all : Bool) (name : VariableName) (guid : GuidBytes), name.chars ≠ [] →
        find all name guid (reclaimed rs) = find all name guid rs) ↔ Settled rs := by
  constructor
  · intro hfind name guid hname hnone
    have hall := hfind true name guid hname
    rw [find, find, lookup_wellNamed h.reclaimed hname, lookup_wellNamed h hname,
      firstAdded_reclaimed, lastInDeleted_reclaimed, hnone] at hall
    have hfilter : ∀ o : Option VariableRecord, (o.filter fun _ => true) = o := by
      intro o
      cases o <;> rfl
    simp only [Bool.true_or, hfilter, none_or, or_none] at hall
    have hdata := congrArg (Option.map Prod.snd) hall
    rw [Option.map_map, Option.map_map, Option.map_map] at hdata
    exact hdata
  · intro hset all name guid hname
    rw [find, find, lookup_wellNamed h.reclaimed hname, lookup_wellNamed h hname,
      firstAdded_reclaimed, lastInDeleted_reclaimed, or_none]
    cases hadd : firstAdded name guid rs with
    | some r => rfl
    | none =>
      rw [none_or, none_or]
      have hdata := hset name guid hname hadd
      cases hlast : lastInDeleted name guid rs with
      | none =>
        rw [(lastInDeleted_none_iff).1 hlast]
        rfl
      | some s =>
        cases hfst : firstInDeleted name guid rs with
        | none =>
          rw [(lastInDeleted_none_iff).2 hfst] at hlast
          cases hlast
        | some r =>
          obtain ⟨hr, hrdel, hrkey⟩ := firstInDeleted_mem hfst
          obtain ⟨hs, hsdel, hskey⟩ := lastInDeleted_mem hlast
          obtain ⟨hrguid, hrname⟩ := hasKey_iff.1 hrkey
          have hattr : s.attributes = r.attributes := by
            apply h.attributes r hr (by simp [live, hrdel]) s hs
              (by simp [live, hsdel])
            rw [hrguid, hrname, hskey]
          rw [hfst, hlast, map_some, map_some, some.injEq] at hdata
          rw [map_some, filter_some, filter_some, promoted, hattr]
          split
          · rw [map_some, map_some, value, value, hattr, hdata]
          · rfl

end Reclaimed

theorem keptRecords_none (auth : Bool) (m : Memory) (size : Nat) :
    keptRecords auth m size none none = reclaimed (storeRecords auth m size) := by
  simp [keptRecords, reclaimed, storeRecords]

end MuBasecore.ReclaimLookup
