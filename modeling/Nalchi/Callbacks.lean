import Nalchi.ReleaseInvariant

/-! What the steps of the callbacks make of a payload that the messages hold. -/
namespace Nalchi
open SharedPayload SocketExtensions

namespace World

section
variable {p : SharedPayload} {call : SendCall}

theorem HandedOver.setFlight {s : World} (h : HandedOver p call s) {i : Nat}
    {msg : SteamNetworkingMessage} {f g : Flight} (hi : s.messages[i]? = some ⟨msg, f⟩)
    (hf : g ≠ .attached) : HandedOver p call (s.setFlight i msg g) := by
  refine ⟨h.sender, ?_, ?_⟩
  · have hmsg : (s.messages.map InFlight.message)[i]? = some msg := by rw [List.getElem?_map, hi]; rfl
    obtain ⟨hlt, hget⟩ := List.getElem?_eq_some_iff.mp hmsg
    rw [World.setFlight, List.map_set, ← hget, List.set_getElem_self, h.messages]
  · intro m hmem
    obtain hmem | rfl := List.mem_or_eq_of_mem_set hmem
    · exact h.attached m hmem
    · exact hf

/-- A callback that found other references returns and changes none of the counts. -/
theorem counts_of_others {s : World} {i : Nat} {msg : SteamNetworkingMessage}
    {old : BitVec 32} (hi : s.messages[i]? = some ⟨msg, .decreased old⟩) (hold : ¬ 1 = old) :
    (s.setFlight i msg (.released false)).unreleased = s.unreleased ∧
      (s.setFlight i msg (.released false)).deallocating = s.deallocating ∧
      (s.setFlight i msg (.released false)).deallocators = s.deallocators := by
  have hnot : Flight.deallocating (.decreased old) = false := decide_eq_false hold
  have hd := count_setFlight (g := .released false) Flight.deallocating hi
  rw [hnot] at hd
  exact ⟨count_setFlight Flight.holds hi, hd, count_setFlight Flight.deallocated hi⟩

theorem Held.unreleased_le {s : World} (h : Held p call s) :
    s.unreleased ≤ call.connections.length := by
  rw [← h.length]
  exact List.countP_le_length

/-- The `fetch_sub` of a callback. It returns one to the last callback only. -/
theorem Held.decrease {s : World} (h : Held p call s) {i : Nat} {msg : SteamNetworkingMessage}
    (hi : s.messages[i]? = some ⟨msg, .sent⟩) (hn : call.connections.length < 2 ^ 31) :
    Held p call (World.setFlight i msg (.decreased (BitVec.ofNat 32 s.unreleased)) { s with
      memory := some { p with refCount := BitVec.ofNat 32 s.unreleased - 1 } }) := by
  have hle := h.unreleased_le
  have hpos : 0 < s.unreleased := count_pos hi rfl
  have hold : Flight.deallocating (.decreased (BitVec.ofNat 32 s.unreleased)) =
      decide (s.unreleased = 1) := by
    refine decide_eq_decide.mpr ?_
    have h1 : (1 : BitVec 32).toNat = 1 := rfl
    rw [← BitVec.toNat_inj, BitVec.toNat_ofNat, h1]
    omega
  have hcount := fun P => count_setFlight (s := { s with
    memory := some { p with refCount := BitVec.ofNat 32 s.unreleased - 1 } })
    (g := .decreased (BitVec.ofNat 32 s.unreleased)) P hi
  have hu : _ + 1 = s.unreleased + 0 := hcount Flight.holds
  have hd : _ + 0 = s.deallocating + _ := hcount Flight.deallocating
  have hr : _ + 0 = s.deallocators + 0 := hcount Flight.deallocated
  have hk := h.deallocating
  rw [if_neg (by omega)] at hk
  rw [hold, hk] at hd
  have hho := h.toHandedOver.setFlight (g := .decreased (BitVec.ofNat 32 s.unreleased)) hi (by simp)
  have hless : World.count Flight.holds _ = s.unreleased - 1 := Nat.eq_sub_of_add_eq hu
  have hsub : BitVec.ofNat 32 s.unreleased - 1 = BitVec.ofNat 32 (s.unreleased - 1) := by
    obtain ⟨k, hk⟩ : ∃ k, s.unreleased = k + 1 := ⟨s.unreleased - 1, by omega⟩
    rw [hk, BitVec.ofNat_add]
    exact BitVec.add_sub_cancel _ _
  refine ⟨⟨hho.1, hho.2, hho.3⟩, ?_, h.deallocations, ?_, hr.trans h.deallocators⟩
  · change _ = some { p with refCount := BitVec.ofNat 32 (World.count Flight.holds _) }
    rw [hless, ← hsub]
    rfl
  · change World.count Flight.deallocating _ = if World.count Flight.holds _ = 0 then 1 else 0
    rw [hless]
    refine hd.trans ?_
    by_cases h1 : s.unreleased = 1
    · simp [h1]
    · have h2 : s.unreleased - 1 ≠ 0 := by omega
      simp [h1, h2]

/-- The last callback deallocates. -/
theorem Held.deallocate {s : World} (h : Held p call s) {i : Nat} {msg : SteamNetworkingMessage}
    (hi : s.messages[i]? = some ⟨msg, .decreased 1⟩) :
    Freed p call (World.setFlight i msg (.released true) { s with
      memory := none
      deallocations := s.deallocations + 1 }) := by
  have hpos : 0 < s.deallocating := count_pos hi rfl
  have hk := h.deallocating
  have hcount := fun P => count_setFlight (g := .released true) P hi
  have hu : _ + 0 = s.unreleased + 0 := hcount Flight.holds
  have hd : _ + 1 = s.deallocating + 0 := hcount Flight.deallocating
  have hr : _ + 0 = s.deallocators + 1 := hcount Flight.deallocated
  have hho := h.toHandedOver.setFlight (g := .released true) hi (by simp)
  have hzero : s.unreleased = 0 := by
    by_contra hne
    rw [if_neg hne] at hk
    omega
  have hlen : call.connections.length ≠ 0 := by
    rw [← h.length]
    exact Nat.ne_of_gt (List.length_pos_of_mem (List.mem_of_getElem? hi))
  rw [if_pos hzero] at hk
  refine ⟨⟨hho.1, hho.2, hho.3⟩, rfl, congrArg (· + 1) h.deallocations, hu.trans hzero, ?_, ?_⟩
  · exact Nat.succ.inj (hd.trans hk)
  · rw [if_neg hlen]
    exact hr.trans (by rw [h.deallocators])

/-- Any step of a callback while the payload is held. -/
theorem Held.callback {s : World} (h : Held p call s) (hn : call.connections.length < 2 ^ 31)
    {i : Nat} {msg : SteamNetworkingMessage} {flight : Flight}
    (hi : s.messages[i]? = some ⟨msg, flight⟩) (hflight : flight.inCallback) :
    ∃ s', s.callbackStep i = .ok s' ∧ Inv p call s' := by
  have hc : Carries call.args p msg := h.toHandedOver.carries (List.mem_of_getElem? hi)
  have hacc := access_of_memory h.memory
  cases flight with
  | attached => exact absurd hflight (by simp [Flight.inCallback])
  | released => exact absurd hflight (by simp [Flight.inCallback])
  | sent =>
    refine ⟨_, ?_, .inr (.inl (h.decrease hi hn))⟩
    rw [callbackStep, hi]
    simp only [hc.pfnFreeData, hc.pData, hacc]
    rfl
  | decreased old =>
    by_cases hold : 1 = old
    · subst hold
      refine ⟨_, ?_, .inr (.inr (h.deallocate hi))⟩
      rw [callbackStep, hi]
      simp only [if_true, forceDeallocate, hc.pData, hacc]
      rfl
    · obtain ⟨hu, hd, hr⟩ := counts_of_others hi hold
      have hho := h.toHandedOver.setFlight (g := .released false) hi (by simp)
      refine ⟨_, ?_, .inr (.inl ⟨hho, ?_, h.deallocations, ?_, hr.trans h.deallocators⟩)⟩
      · rw [callbackStep, hi]
        simp only [if_neg hold]
      · rw [hu]
        exact h.memory
      · rw [hu, hd]
        exact h.deallocating

/-- Once the payload is freed the callbacks only return. -/
theorem Freed.callback {s : World} (h : Freed p call s) {i : Nat} {msg : SteamNetworkingMessage}
    {flight : Flight} (hi : s.messages[i]? = some ⟨msg, flight⟩) (hflight : flight.inCallback) :
    ∃ s', s.callbackStep i = .ok s' ∧ Freed p call s' := by
  cases flight with
  | attached => exact absurd hflight (by simp [Flight.inCallback])
  | released => exact absurd hflight (by simp [Flight.inCallback])
  | sent =>
    have hpos : 0 < s.unreleased := count_pos hi rfl
    exact absurd h.unreleased (by omega)
  | decreased old =>
    have hold : ¬ 1 = old := by
      rintro rfl
      have hpos : 0 < s.deallocating := count_pos hi rfl
      exact absurd h.deallocating (by omega)
    obtain ⟨hu, hd, hr⟩ := counts_of_others hi hold
    have hho := h.toHandedOver.setFlight (g := .released false) hi (by simp)
    refine ⟨_, ?_, ⟨hho, h.memory, h.deallocations, hu.trans h.unreleased,
      hd.trans h.deallocating, hr.trans h.deallocators⟩⟩
    rw [callbackStep, hi]
    simp only [if_neg hold]

theorem Inv.callback {s : World} (h : Inv p call s) (hn : call.connections.length < 2 ^ 31)
    {i : Nat} (hen : Enabled (.callback i) s) :
    ∃ s', s.callbackStep i = .ok s' ∧ Inv p call s' := by
  obtain ⟨⟨msg, flight⟩, hi, hflight⟩ := (Option.any_eq_true _ _).mp hen
  obtain h | h | h := h
  · have hf : flight = .attached := h.attached _ (List.mem_of_getElem? hi)
    subst hf
    exact absurd hflight (by simp [Flight.inCallback])
  · exact h.callback hn hi hflight
  · obtain ⟨s', hs', h'⟩ := h.callback hi hflight
    exact ⟨s', hs', .inr (.inr h')⟩

theorem Inv.exec {s : World} (h : Inv p call s) (hn : call.connections.length < 2 ^ 31)
    {action : Action} (hen : Enabled action s) :
    ∃ s', World.exec call p.ptr action s = .ok s' ∧ Inv p call s' := by
  cases action with
  | callback i => exact h.callback hn hen
  | sender =>
    obtain h | h | h := h
    · exact h.step hn
    · exact absurd h.sender hen
    · exact absurd h.sender hen

end
end World
end Nalchi
