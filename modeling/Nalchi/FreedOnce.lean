import Nalchi.Progress

/-! The life of a sent payload, over every order in which the sender and the callbacks
take their steps. -/
namespace Nalchi
open SharedPayload SocketExtensions

namespace World

section
variable {p : SharedPayload} {call : SendCall}

theorem Sending.length_le {s : World} (h : Sending p call s) :
    s.messages.length ≤ call.connections.length := by
  rw [← length_allMessages p call, ← h.messages, List.length_append, List.length_map]
  exact Nat.le_add_right _ _

/-- A count that is not zero belongs to some message. -/
theorem exists_of_count_pos {P : Flight → Bool} {s : World} (h : 0 < s.count P) :
    ∃ (i : Nat) (m : InFlight), s.messages[i]? = some m ∧ P m.flight := by
  obtain ⟨m, hm, hp⟩ := List.countP_pos_iff.mp h
  obtain ⟨i, hi⟩ := List.mem_iff_getElem?.mp hm
  exact ⟨i, m, hi, hp⟩

theorem Held.connections_ne {s : World} (h : Held p call s) : call.connections ≠ [] := by
  have hk := h.deallocating
  have hle := h.unreleased_le
  have hd : s.deallocating ≤ s.messages.length := List.countP_le_length
  rw [h.length] at hd
  rw [← List.length_pos_iff]
  split_ifs at hk with hu
  · omega
  · omega

/-- While the payload is held some callback has a step to take. -/
theorem Held.enabled {s : World} (h : Held p call s) : ∃ action, Enabled action s := by
  have hk := h.deallocating
  split_ifs at hk with hu
  · obtain ⟨i, m, hi, hf⟩ := exists_of_count_pos (hk.symm ▸ Nat.one_pos : 0 < s.deallocating)
    refine ⟨.callback i, enabled_callback hi ?_⟩
    cases hm : m.flight with
    | decreased old => rfl
    | attached | sent | released => simp [hm, Flight.deallocating] at hf
  · obtain ⟨i, m, hi, hf⟩ := exists_of_count_pos (Nat.pos_of_ne_zero hu)
    refine ⟨.callback i, enabled_callback hi ?_⟩
    cases hm : m.flight with
    | sent => rfl
    | attached => exact absurd hm (h.attached m (List.mem_of_getElem? hi))
    | decreased | released => simp [hm, Flight.holds] at hf

end

/-- What a user of the payload relies on, at any moment of a send. -/
structure Lifetime (call : SendCall) (s : World) : Prop where
  alive : s.sender ≠ .returned ∨ 0 < s.unreleased →
    ∃ p, s.memory = some p ∧ p.refCount.toNat = s.unreleased
  freed : s.memory = none ↔ s.deallocations = 1
  once : s.deallocations ≤ 1
  byCallback : call.connections ≠ [] → s.deallocators = s.deallocations
  byLast : 0 < s.deallocating + s.deallocators → s.sender = .returned ∧ s.unreleased = 0
  unsent : call.connections = [] →
    s.messages = [] ∧ s.deallocations = if s.sender = .returned then 1 else 0
  atRest : (∀ action, ¬ Enabled action s) → s.deallocations = 1

/-- How a send ends. Each message was released, and one of their callbacks deallocated the
payload, or `multicast` did where there was nobody to send to. -/
structure Ended (p : SharedPayload) (call : SendCall) (s : World) : Prop where
  returned : s.sender = .returned
  messages : s.messages.map InFlight.message =
    (multicast call.allocateMessage call.args call.connections p).messages
  released : ∀ m ∈ s.messages, ∃ deallocated, m.flight = .released deallocated
  freed : s.memory = none
  once : s.deallocations = 1
  byCallback : s.deallocators = if call.connections = [] then 0 else 1

section
variable {p : SharedPayload} {call : SendCall}

theorem Sending.lifetime {s : World} (h : Sending p call s)
    (hn : call.connections.length < 2 ^ 31) : Lifetime call s := by
  have hu : s.unreleased = s.messages.length := count_of_all h.attached
  have hd : s.deallocating = 0 := count_of_all h.attached
  have hr : s.deallocators = 0 := count_of_all h.attached
  have hle := h.length_le
  refine ⟨fun _ => ⟨_, h.memory, ?_⟩, by simp [h.memory, h.deallocations], by simp [h.deallocations],
    fun _ => hr.trans h.deallocations.symm, by simp [hd, hr], fun hc => ⟨?_, ?_⟩,
    fun hrest => absurd h.active (hrest .sender)⟩
  · rw [hu]
    exact Nat.mod_eq_of_lt (by omega)
  · rw [hc] at hle
    exact List.length_eq_zero_iff.mp (Nat.le_zero.mp hle)
  · rw [if_neg h.active, h.deallocations]

theorem Held.lifetime {s : World} (h : Held p call s)
    (hn : call.connections.length < 2 ^ 31) : Lifetime call s := by
  have hle := h.unreleased_le
  have hk := h.deallocating
  refine ⟨fun _ => ⟨_, h.memory, Nat.mod_eq_of_lt (by omega)⟩, by simp [h.memory, h.deallocations],
    by simp [h.deallocations], fun _ => h.deallocators.trans h.deallocations.symm, fun hpos => ?_,
    fun hc => absurd hc h.connections_ne, fun hrest => ?_⟩
  · rw [h.deallocators] at hpos
    refine ⟨h.sender, ?_⟩
    by_contra hne
    rw [if_neg hne] at hk
    omega
  · obtain ⟨action, hen⟩ := h.enabled
    exact absurd hen (hrest action)

theorem Freed.lifetime {s : World} (h : Freed p call s) : Lifetime call s := by
  refine ⟨fun halive => ?_, by simp [h.memory, h.deallocations], by simp [h.deallocations],
    fun hne => ?_, fun _ => ⟨h.sender, h.unreleased⟩, fun hc => ⟨?_, ?_⟩, fun _ => h.deallocations⟩
  · have hu := h.unreleased
    obtain ha | ha := halive
    · exact absurd h.sender ha
    · omega
  · rw [h.deallocators, h.deallocations, if_neg (by simpa using hne)]
  · have hlen := h.length
    rw [hc] at hlen
    exact List.length_eq_zero_iff.mp hlen
  · rw [if_pos h.sender, h.deallocations]

theorem Inv.lifetime {s : World} (h : Inv p call s) (hn : call.connections.length < 2 ^ 31) :
    Lifetime call s := by
  obtain h | h | h := h
  · exact h.lifetime hn
  · exact h.lifetime hn
  · exact h.lifetime

theorem Inv.freed_of_pending {s : World} (h : Inv p call s)
    (hn : call.connections.length < 2 ^ 31) (h0 : s.pending = 0) : Freed p call s := by
  have hrest := (h.pending_eq_zero_iff hn).mp h0
  obtain h | h | h := h
  · exact absurd h.active (hrest .sender)
  · obtain ⟨action, hen⟩ := h.enabled
    exact absurd hen (hrest action)
  · exact h

/-- The interleaved sender has attached what the loop of `multicast` attaches. -/
theorem Inv.ended {s : World} (h : Inv p call s) (hn : call.connections.length < 2 ^ 31)
    (h0 : s.pending = 0) : Ended p call s := by
  have hfreed := h.freed_of_pending hn h0
  refine ⟨hfreed.sender, ?_, fun m hm => released_of_pending h0 hm, hfreed.memory,
    hfreed.deallocations, ?_⟩
  · rw [hfreed.messages, multicast_messages _ _ _ _ hn]
    rfl
  · simp only [hfreed.deallocators, List.length_eq_zero_iff]

end

section
variable (p : SharedPayload) (call : SendCall)

/-- The two ways a send begins. -/
def Begins (s : World) : Prop :=
  s = multicasting p call ∨ s = unicasting p call ∧ call.connections.length = 1

variable {p call}

theorem Begins.inv {s₀ : World} (h : Begins p call s₀) (hp : p.refCount = 0) :
    Inv p call s₀ := by
  obtain rfl | ⟨rfl, hc⟩ := h
  · exact .inl (multicasting_sending hp)
  · exact .inl (unicasting_sending hp (by rw [← List.length_pos_iff]; omega))

end

/-- A sent payload is freed exactly once and never early, whatever the order of steps. No step
uses it once it is freed: such a step would be a fault. Every order comes to the end in as many
steps as there are left to take, and never gets stuck before. -/
theorem payload_freed_once (p : SharedPayload) (hp : p.refCount = 0) (call : SendCall)
    (hn : call.connections.length < 2 ^ 31) (s₀ : World) (hs₀ : Begins p call s₀)
    (actions : List Action) (ha : Run.Along (exec call p.ptr) Enabled actions s₀) :
    ∃ s, Run.run (exec call p.ptr) actions s₀ = .ok s ∧ Lifetime call s ∧
      s.pending + actions.length = s₀.pending ∧
      ((∀ action, ¬ Enabled action s) ↔ actions.length = s₀.pending) ∧
      (actions.length = s₀.pending → Ended p call s) := by
  obtain ⟨s, hs, hinv, hleft⟩ := Run.run_counted (I := Inv p call) actions
    (fun _ _ hinv hen => hinv.advance hn hen) (hs₀.inv hp) ha
  have hiff := hinv.pending_eq_zero_iff hn
  refine ⟨s, hs, hinv.lifetime hn, hleft, ?_, fun hall => hinv.ended hn (by omega)⟩
  rw [← hiff]
  omega

/-- Two callbacks that cross: the later `fetch_sub` is the one to deallocate, before the
earlier callback has returned. -/
theorem payload_freed_once_crossing :
    ∃ (call : SendCall) (s : World), call.connections = [1, 2] ∧
      Run.run (exec call 0x1008)
        (List.replicate 8 .sender ++ [.callback 1, .callback 0, .callback 0, .callback 1])
        (multicasting ⟨0x1008, 0, 4, [7], by decide, by decide, by decide⟩ call) = .ok s ∧
      Lifetime call s ∧ s.memory = none ∧ s.deallocations = 1 ∧ s.deallocators = 1 ∧
      ∀ action, ¬ Enabled action s := by
  obtain ⟨s, hs, hl, -, hrest, hend⟩ := payload_freed_once
    ⟨0x1008, 0, 4, [7], by decide, by decide, by decide⟩ rfl
    ⟨[1, 2], ⟨⟨4, by decide⟩, ⟨8, by decide⟩, 0, 0⟩,
      fun _ => ⟨0, ⟨0, by decide⟩, 0, ⟨0, by decide⟩, 0, 0, none⟩⟩ (by decide) _ (.inl rfl)
    (List.replicate 8 .sender ++ [.callback 1, .callback 0, .callback 0, .callback 1]) (by decide)
  have h := hend (by decide)
  exact ⟨_, s, rfl, hs, hl, h.freed, h.once, h.byCallback, hrest.mpr (by decide)⟩

end World
end Nalchi
