import MuBasecore.VariableServices

/-!
What the writes of `UpdateVariable` do to the variables of a store: a state byte, the
data of a variable, and a new variable at the end.
-/

namespace MuBasecore.StoreWrites

open ByteMemory RecordLog VariableFormat Function List

theorem writeBytes_singleton (m : Memory) (a : Nat) (b : Byte) :
    writeBytes m a [b] = update m a b := by
  funext i
  by_cases hi : i = a
  · subst hi
    simp [writeBytes]
  · rw [update_of_ne hi, writeBytes]
    by_cases hle : a ≤ i
    · rw [if_pos hle]
      exact getD_eq_default _ _ (by simp only [length_singleton]; omega)
    · rw [if_neg hle]

theorem writeBytes_state (m : Memory) (x : Nat) (s : Byte) :
    writeBytes m (x + 2) [s] = setState m x s :=
  writeBytes_singleton m (x + 2) s

theorem setState_writeBytes (m : Memory) (a : Nat) (auth : Bool) (s s' : Byte)
    (attrs : Attributes) (guid : GuidBytes) (name data : List Byte) :
    setState (writeBytes m a (variableBytes auth s attrs guid name data)) a s' =
      writeBytes m a (variableBytes auth s' attrs guid name data) := by
  funext i
  by_cases hi : i = a + 2
  · subst hi
    rw [setState, update_self]
    simp [writeBytes, variableBytes]
  · rw [setState_of_ne _ hi, writeBytes, writeBytes]
    by_cases hle : a ≤ i
    · rw [if_pos hle, if_pos hle]
      obtain ⟨j, rfl⟩ := Nat.exists_eq_add_of_le hle
      rw [Nat.add_sub_cancel_left]
      rcases j with _ | _ | _ | j
      · rfl
      · rfl
      · exact absurd rfl hi
      · rfl
    · rw [if_neg hle, if_neg hle]

variable {auth : Bool} {m m' : Memory} {size last x : Nat} {l : List Nat}

theorem layout_modify (h : StoreLayout auth m size l last) (hx : x ∈ l)
    (hout : ∀ i, i < x ∨ x + variableSize auth m x ≤ i → m' i = m i)
    (hst : startId m' x = variableData)
    (hsize : variableSize auth m' x = variableSize auth m x) :
    StoreLayout auth m' size l last ∧
      ∀ y ∈ l, y ≠ x → variableRecord auth m' y = variableRecord auth m y := by
  obtain ⟨hxdvd, _, hxstart, hxlast⟩ := h.of_mem hx
  have hagree : ∀ y ∈ l, y ≠ x → ∀ i < variableSize auth m y, m' (y + i) = m (y + i) := by
    intro y hy hyx i hi
    apply hout
    rcases h.apart hy hx hyx with hlt | hlt
    · exact .inl (by omega)
    · exact .inr (by omega)
  have hfree : ∀ i, last ≤ i → i < size → m' i = 0xff := by
    intro i hi hsize
    rw [hout i (.inr (by omega)), h.free i hi hsize]
  have hlen : ∀ y ∈ l, (storeFormat auth).length m' y = (storeFormat auth).length m y := by
    intro y hy
    obtain ⟨hydvd, _, hystart, _⟩ := h.of_mem hy
    rw [format_length hydvd hystart]
    by_cases hyx : y = x
    · subst hyx
      rw [format_length hydvd hst, hsize]
    · exact (storeFormat auth).length_copy hydvd hydvd (format_length hydvd hystart)
        (hagree y hy hyx)
  refine ⟨⟨?_, h.last_le, hfree⟩, ?_⟩
  · have hnil : Log (storeFormat auth) m' (getEndPointer size) last [] last := by
      refine .nil fun hstop => format_length_erased (hfree _ le_rfl ?_)
      exact lt_of_lt_getEndPointer h.dvd_last hstop
    have hlog := h.log.append hlen hnil
    rwa [append_nil] at hlog
  · intro y hy hyx
    exact record_copy (hagree y hy hyx)

theorem layout_modify_split {l₁ l₂ : List Nat} (h : StoreLayout auth m size (l₁ ++ x :: l₂) last)
    (hout : ∀ i, i < x ∨ x + variableSize auth m x ≤ i → m' i = m i)
    (hst : startId m' x = variableData)
    (hsize : variableSize auth m' x = variableSize auth m x) :
    StoreLayout auth m' size (l₁ ++ x :: l₂) last ∧
      l₁.map (variableRecord auth m') = l₁.map (variableRecord auth m) ∧
      l₂.map (variableRecord auth m') = l₂.map (variableRecord auth m) := by
  obtain ⟨hnew, hrecs⟩ := layout_modify h (by simp) hout hst hsize
  have hnd := h.log.nodup
  rw [nodup_append] at hnd
  obtain ⟨_, hnd₂, hdisj⟩ := hnd
  refine ⟨hnew, ?_, ?_⟩
  · apply map_congr_left
    intro y hy
    exact hrecs y (by simp [hy]) (hdisj y hy x mem_cons_self)
  · apply map_congr_left
    intro y hy
    refine hrecs y (by simp [hy]) ?_
    rintro rfl
    exact (nodup_cons.1 hnd₂).1 hy

theorem layout_setState {l₁ l₂ : List Nat} (h : StoreLayout auth m size (l₁ ++ x :: l₂) last)
    {s : Byte} (hs : s ≠ 0xff) (hold : variableState m x ≠ 0xff) :
    StoreLayout auth (setState m x s) size (l₁ ++ x :: l₂) last ∧
      l₁.map (variableRecord auth (setState m x s)) = l₁.map (variableRecord auth m) ∧
      l₂.map (variableRecord auth (setState m x s)) = l₂.map (variableRecord auth m) := by
  obtain ⟨_, _, hxstart, _⟩ := h.of_mem (x := x) (by simp)
  have hheader := le_variableSize auth m x
  have hheaderSize := headerSize_eq auth
  have hout : ∀ i, i < x ∨ x + variableSize auth m x ≤ i → setState m x s i = m i :=
    fun i hi => setState_of_ne s (by omega)
  exact layout_modify_split h hout (by rw [startId_setState, hxstart])
    (variableSize_setState hs hold)

theorem layout_append (h : StoreLayout auth m size l last) {state : Byte}
    {attrs : Attributes} {guid : GuidBytes} {name data : List Byte}
    (henc : Encodable attrs name data) (hstt : state ≠ 0xff)
    (hsize : last + headerAlign (variableBytes auth state attrs guid name data).length ≤ size) :
    StoreLayout auth (writeBytes m last (variableBytes auth state attrs guid name data)) size
        (l ++ [last])
        (last + headerAlign (variableBytes auth state attrs guid name data).length) ∧
      (l ++ [last]).map (variableRecord auth
          (writeBytes m last (variableBytes auth state attrs guid name data))) =
        l.map (variableRecord auth m) ++ [⟨state, attrs, guid, name, data⟩] := by
  generalize hbyt : variableBytes auth state attrs guid name data = bytes at hsize ⊢
  have hwrit : Written auth (writeBytes m last bytes) last state attrs guid name data := by
    rw [Written, hbyt]
    exact slotRange_write
  have hle := le_headerAlign bytes.length
  have hdvd := h.dvd_last
  have hst := hwrit.startId_eq henc
  have hvar := hwrit.variableSize_eq henc hstt
  rw [hbyt] at hvar
  have hpos : 0 < variableSize auth (writeBytes m last bytes) last :=
    (storeFormat auth).length_pos (format_length hdvd hst)
  have hend : size ≤ getEndPointer size := le_headerAlign size
  have hpre : ∀ i, i < last → writeBytes m last bytes i = m i :=
    fun i hi => writeBytes_of_lt hi
  have hfree : ∀ i, last + headerAlign bytes.length ≤ i → i < size →
      writeBytes m last bytes i = 0xff := by
    intro i hi hsize
    rw [writeBytes_of_le m bytes (by omega), h.free i (by omega) hsize]
  refine ⟨⟨?_, hsize, hfree⟩, ?_⟩
  · apply h.log.append
    · intro y hy
      exact h.log.length_eq_of_agree (dvd_startPtr auth) (fun i _ hi => hpre i hi) hy
    · refine .cons (by omega) (format_length hdvd hst) ?_
      rw [hvar]
      refine .nil fun hstop => format_length_erased (hfree _ le_rfl ?_)
      exact lt_of_lt_getEndPointer (Nat.dvd_add hdvd (dvd_headerAlign _)) hstop
  · rw [map_append, map_singleton, hwrit.variableRecord_eq henc hstt]
    congr 1
    apply map_congr_left
    intro y hy
    obtain ⟨_, _, _, hlast⟩ := h.of_mem hy
    exact record_copy fun i hi => hpre _ (by omega)

end MuBasecore.StoreWrites
