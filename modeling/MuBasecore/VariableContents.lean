import MuBasecore.ReclaimLookup

/-!
The contents of a store whose variables have one live record each: how a lookup sees
the records, and what a change to one of them does to it.
-/

namespace MuBasecore.VariableContents

open ByteMemory ReclaimLookup ReclaimRecords VariableFormat VariableLookup VariableRecord
open List hiding lookup

structure GoodRecords (nonVolatile : Bool) (rs : List VariableRecord) : Prop where
  proper : ∀ r ∈ rs, r.live → ProperName r.name
  data : ∀ r ∈ rs, r.live → r.data ≠ []
  nonVolatile : ∀ r ∈ rs, r.live → r.attributes.has efiVariableNonVolatile = nonVolatile
  unique : rs.Pairwise fun r s => r.live → s.live → ¬ hasKey r.name r.guid s

def Absent (name : VariableName) (guid : GuidBytes) (rs : List VariableRecord) : Prop :=
  ∀ r ∈ rs, r.live → ¬ hasKey name.bytes guid r

variable {guid : GuidBytes}

section Lookup

variable {α : Type} {view : α → VariableRecord} {all : Bool} {name : List Byte}
variable {l l₁ l₂ : List α} {x : α}

theorem findLoop_skip (sel : VariableRecord → Bool) (h : ∀ y ∈ l₁, sel (view y) = false)
    (deleted l : List α) :
    findLoop view sel deleted (l₁ ++ l) = findLoop view sel deleted l := by
  induction l₁ with
  | nil => rfl
  | cons y l₁ ih =>
    rw [cons_append, findLoop, h y mem_cons_self]
    exact ih fun z hz => h z (mem_cons_of_mem _ hz)

theorem findEx_absent (h : ∀ y ∈ l, selects all name guid (view y) = false) :
    findVariableEx view all name guid l = ⟨[], []⟩ := by
  rw [findVariableEx, ← append_nil l, findLoop_skip _ h]
  rfl

theorem findVariableEx_single (h₁ : ∀ y ∈ l₁, selects all name guid (view y) = false)
    (h₂ : ∀ y ∈ l₂, selects all name guid (view y) = false)
    (hx : selects all name guid (view x)) :
    findVariableEx view all name guid (l₁ ++ x :: l₂) = ⟨x :: l₂, []⟩ := by
  rw [findVariableEx, findLoop_skip _ h₁, findLoop, if_pos hx]
  split
  · rw [← append_nil l₂, findLoop_skip _ h₂]
    rfl
  · rfl

end Lookup

variable {nonVolatile : Bool} {rs rs₁ rs₂ : List VariableRecord} {r : VariableRecord}
variable {name : VariableName}

section

variable (hname : name.chars ≠ []) (hprop : ∀ r ∈ rs, r.live → ProperName r.name)
    (habs : Absent name guid rs)
include hname hprop habs

theorem selects_absent (all : Bool) (hr : r ∈ rs) : selects all name.bytes guid r = false := by
  by_cases hlive : r.live
  · rw [selects_eq ⟨name, hname, rfl⟩ all guid (hprop r hr hlive)]
    simp [habs r hr hlive]
  · simp [selects, hlive]

theorem find_absent (all : Bool) : find all name guid rs = none := by
  rw [find, lookup, findEx_absent]
  · rfl
  · intro r hr
    exact selects_absent hname hprop habs all hr

end

theorem find_skip {all : Bool} (hr : selects all name.bytes guid r = false) :
    find all name guid (rs₁ ++ r :: rs₂) = find all name guid (rs₁ ++ rs₂) := by
  rw [find, find, lookup_eq, lookup_eq]
  simp [hr]

theorem find_single (hname : name.chars ≠ [])
    (hprop : ∀ s ∈ rs₁ ++ r :: rs₂, s.live → ProperName s.name)
    (h₁ : Absent name guid rs₁) (h₂ : Absent name guid rs₂) (hlive : r.live)
    (hkey : hasKey name.bytes guid r) (all : Bool) :
    find all name guid (rs₁ ++ r :: rs₂) =
      if all || r.attributes.has efiVariableRuntimeAccess then some (value r) else none := by
  have hr : r ∈ rs₁ ++ r :: rs₂ := by simp
  have hsel : selects all name.bytes guid r =
      (all || r.attributes.has efiVariableRuntimeAccess) := by
    rw [selects_eq ⟨name, hname, rfl⟩ all guid (hprop r hr hlive), hlive, hkey]
    simp
  have hsel₁ : ∀ s ∈ rs₁, selects all name.bytes guid s = false := fun s hs =>
    selects_absent hname (fun t ht => hprop t (by simp [ht])) h₁ all hs
  have hsel₂ : ∀ s ∈ rs₂, selects all name.bytes guid s = false := fun s hs =>
    selects_absent hname (fun t ht => hprop t (by simp [ht])) h₂ all hs
  by_cases hvis : (all || r.attributes.has efiVariableRuntimeAccess) = true
  · rw [if_pos hvis, find, lookup, findVariableEx_single]
    · rfl
    · exact hsel₁
    · exact hsel₂
    · exact hsel.trans hvis
  · rw [if_neg hvis]
    rw [Bool.not_eq_true] at hvis
    have hsel' := hsel.trans hvis
    rw [find, lookup, findEx_absent]
    · rfl
    · intro s hs
      rcases mem_append.1 hs with hs | hs
      · exact hsel₁ s hs
      · rcases mem_cons.1 hs with rfl | hs
        · exact hsel'
        · exact hsel₂ s hs

theorem GoodRecords.cases (h : GoodRecords nonVolatile rs) (name : VariableName)
    (guid : GuidBytes) :
    Absent name guid rs ∨ ∃ rs₁ r rs₂, rs = rs₁ ++ r :: rs₂ ∧ r.live ∧
      hasKey name.bytes guid r ∧ Absent name guid rs₁ ∧ Absent name guid rs₂ := by
  by_cases hex : ∃ r ∈ rs, r.live ∧ hasKey name.bytes guid r
  · obtain ⟨r, hr, hlive, hkey⟩ := hex
    obtain ⟨rs₁, rs₂, rfl⟩ := append_of_mem hr
    refine .inr ⟨rs₁, r, rs₂, rfl, hlive, hkey, ?_, ?_⟩
    · intro s hs hsl hskey
      obtain ⟨hguid, hname⟩ := hasKey_iff.1 hskey
      have := (pairwise_append.1 h.unique).2.2 s hs r mem_cons_self hsl hlive
      rw [hguid, hname] at this
      exact this hkey
    · intro s hs hsl hskey
      obtain ⟨hguid, hname⟩ := hasKey_iff.1 hkey
      have := (pairwise_cons.1 (pairwise_append.1 h.unique).2.1).1 s hs hlive hsl
      rw [hguid, hname] at this
      exact this hskey
  · refine .inl fun r hr hlive hkey => hex ⟨r, hr, hlive, hkey⟩

theorem GoodRecords.wellNamed (h : GoodRecords nonVolatile rs) : WellNamed rs where
  proper := h.proper
  attributes r hr hlive s hs hsl hkey := by
    obtain ⟨name, _, hname⟩ := h.proper r hr hlive
    rcases h.cases name r.guid with habs | ⟨rs₁, t, rs₂, rfl, _, _, h₁, h₂⟩
    · exact absurd (hname ▸ hkey) (habs s hs hsl)
    · have hall : ∀ u ∈ rs₁ ++ t :: rs₂, u.live → hasKey r.name r.guid u → u = t := by
        intro u hu hulive hukey
        rw [← hname] at hukey
        rcases mem_append.1 hu with hu | hu
        · exact absurd hukey (h₁ u hu hulive)
        · rcases mem_cons.1 hu with rfl | hu
          · rfl
          · exact absurd hukey (h₂ u hu hulive)
      rw [hall s hs hsl hkey, hall r hr hlive (hasKey_self)]

theorem GoodRecords.replace (h : GoodRecords nonVolatile (rs₁ ++ r :: rs₂)) {r' : VariableRecord}
    (hname : r'.name = r.name) (hguid : r'.guid = r.guid)
    (hattr : r'.attributes = r.attributes) (hlive : r'.live → r.live)
    (hdata : r'.live → r'.data ≠ []) : GoodRecords nonVolatile (rs₁ ++ r' :: rs₂) where
  proper s hs hsl := by
    rcases mem_append.1 hs with hs | hs
    · exact h.proper s (by simp [hs]) hsl
    · rcases mem_cons.1 hs with rfl | hs
      · rw [hname]
        exact h.proper r (by simp) (hlive hsl)
      · exact h.proper s (by simp [hs]) hsl
  data s hs hsl := by
    rcases mem_append.1 hs with hs | hs
    · exact h.data s (by simp [hs]) hsl
    · rcases mem_cons.1 hs with rfl | hs
      · exact hdata hsl
      · exact h.data s (by simp [hs]) hsl
  nonVolatile s hs hsl := by
    rcases mem_append.1 hs with hs | hs
    · exact h.nonVolatile s (by simp [hs]) hsl
    · rcases mem_cons.1 hs with rfl | hs
      · rw [hattr]
        exact h.nonVolatile r (by simp) (hlive hsl)
      · exact h.nonVolatile s (by simp [hs]) hsl
  unique := by
    obtain ⟨h₁, h₂, h₁₂⟩ := pairwise_append.1 h.unique
    obtain ⟨hr, h₂⟩ := pairwise_cons.1 h₂
    refine pairwise_append.2 ⟨h₁, pairwise_cons.2 ⟨?_, h₂⟩, ?_⟩
    · intro s hs hrlive hsl
      rw [hname, hguid]
      exact hr s hs (hlive hrlive) hsl
    · intro s hs t ht hsl htlive
      rcases mem_cons.1 ht with rfl | ht
      · rw [hasKey, hname, hguid]
        exact h₁₂ s hs r mem_cons_self hsl (hlive htlive)
      · exact h₁₂ s hs t (mem_cons_of_mem _ ht) hsl htlive

theorem hasKey_comm (r s : VariableRecord) : hasKey r.name r.guid s = hasKey s.name s.guid r := by
  rw [Bool.eq_iff_iff, hasKey_iff, hasKey_iff]
  exact ⟨fun h => ⟨h.1.symm, h.2.symm⟩, fun h => ⟨h.1.symm, h.2.symm⟩⟩

theorem GoodRecords.append (h : GoodRecords nonVolatile rs) (hprop : ProperName r.name)
    (hdata : r.data ≠ [])
    (hnonVolatile : r.attributes.has efiVariableNonVolatile = nonVolatile)
    (habs : ∀ s ∈ rs, s.live → ¬ hasKey r.name r.guid s) :
    GoodRecords nonVolatile (rs ++ [r]) where
  proper s hs hsl := by
    rcases mem_append.1 hs with hs | hs
    · exact h.proper s hs hsl
    · rwa [mem_singleton.1 hs]
  data s hs hsl := by
    rcases mem_append.1 hs with hs | hs
    · exact h.data s hs hsl
    · rwa [mem_singleton.1 hs]
  nonVolatile s hs hsl := by
    rcases mem_append.1 hs with hs | hs
    · exact h.nonVolatile s hs hsl
    · rwa [mem_singleton.1 hs]
  unique := by
    refine pairwise_append.2 ⟨h.unique, pairwise_singleton _ _, ?_⟩
    intro s hs t ht hsl _
    rw [mem_singleton.1 ht, hasKey_comm]
    exact habs s hs hsl

theorem GoodRecords.remove (h : GoodRecords nonVolatile (rs₁ ++ r :: rs₂)) :
    GoodRecords nonVolatile (rs₁ ++ rs₂) := by
  have hsub : (rs₁ ++ rs₂).Sublist (rs₁ ++ r :: rs₂) :=
    List.Sublist.append_left (sublist_cons_self r rs₂) rs₁
  exact ⟨fun s hs => h.proper s (hsub.subset hs), fun s hs => h.data s (hsub.subset hs),
    fun s hs => h.nonVolatile s (hsub.subset hs), h.unique.sublist hsub⟩

theorem reinstalled_pairwise {kept : List VariableRecord}
    (h : kept.Pairwise fun r s => ¬ hasKey r.name r.guid s) (rs : List VariableRecord) :
    (reinstalled kept rs).Pairwise fun r s => ¬ hasKey r.name r.guid s := by
  induction rs generalizing kept with
  | nil => exact h
  | cons r rs ih =>
    rw [reinstalled]
    split
    case isTrue hkeep =>
      apply ih
      refine pairwise_append.2 ⟨h, pairwise_singleton _ _, ?_⟩
      intro s hs t ht
      have hnot := any_eq_false.1 hkeep.2 s hs
      rw [mem_singleton.1 ht, hasKey_comm]
      exact hnot
    case isFalse => exact ih h

section

variable (h : GoodRecords nonVolatile rs)
include h

theorem GoodRecords.reclaimed :
    GoodRecords nonVolatile (reclaimed rs) where
  proper r hr _ := by
    obtain ⟨_, s, hs, hlive, rfl⟩ := mem_reclaimed hr
    exact h.proper s hs hlive
  data r hr _ := by
    obtain ⟨_, s, hs, hlive, rfl⟩ := mem_reclaimed hr
    exact h.data s hs hlive
  nonVolatile r hr _ := by
    obtain ⟨_, s, hs, hlive, rfl⟩ := mem_reclaimed hr
    exact h.nonVolatile s hs hlive
  unique := by
    refine (reinstalled_pairwise ?_ rs).imp fun hnot _ _ => hnot
    have hadd := h.unique.sublist (filter_sublist (p := added))
    refine hadd.imp_of_mem fun {r s} hr hs hnot => ?_
    have hrlive : r.live := by simp [live, (mem_filter.1 hr).2]
    have hsl : s.live := by simp [live, (mem_filter.1 hs).2]
    exact hnot hrlive hsl

theorem GoodRecords.settled : Settled rs := by
  intro name guid _ _
  have hsame : firstInDeleted name guid rs = lastInDeleted name guid rs := by
    rcases h.cases name guid with habs | ⟨rs₁, r, rs₂, rfl, _, _, h₁, h₂⟩
    · have hfst : firstInDeleted name guid rs = none := by
        rw [firstInDeleted, find?_eq_none]
        intro r hr
        by_cases hdel : r.inDeleted
        · simp [hdel, habs r hr (by simp [live, hdel])]
        · simp [hdel]
      rw [hfst, (lastInDeleted_none_iff).2 hfst]
    · have hskip : ∀ t : List VariableRecord, Absent name guid t →
          (t.filter fun r => r.inDeleted && hasKey name.bytes guid r) = [] := by
        intro t ht
        rw [filter_eq_nil_iff]
        intro s hs
        by_cases hdel : s.inDeleted
        · simp [hdel, ht s hs (by simp [live, hdel])]
        · simp [hdel]
      rw [firstInDeleted, lastInDeleted, ← head?_filter, filter_append,
        hskip rs₁ h₁, nil_append, filter_cons]
      split
      · rw [hskip rs₂ h₂]
        rfl
      · rw [hskip rs₂ h₂]
        rfl
  rw [hsame]

theorem GoodRecords.find_reclaimed (hname : name.chars ≠ [])
    (all : Bool) : find all name guid (ReclaimLookup.reclaimed rs) = find all name guid rs :=
  (find_reclaimed_iff h.wellNamed).2 h.settled all name guid hname

end

end MuBasecore.VariableContents
