import Mathlib.Algebra.GroupWithZero.Nat
import Nalchi.Callbacks

/-! How far a send is from its end. Every step of a thread brings it one step nearer, and
until then some thread has a step to take. -/
namespace Nalchi
open SharedPayload SocketExtensions

/-- How many steps the sending thread has to take, and what it leaves to the callbacks of the
messages it has not attached yet. -/
def Sender.pending : Sender → Nat
  | .start connections => if connections.length = 0 then 1 else 5 * connections.length + 2
  | .loop connections => 5 * connections.length + 1
  | .allocated _ _ connections => 5 * connections.length + 5
  | .sized _ _ _ connections => 5 * connections.length + 4
  | .returned => 0

def Flight.pending : Flight → Nat
  | .attached | .sent => 2
  | .decreased _ => 1
  | .released _ => 0

def World.pending (s : World) : Nat :=
  s.sender.pending + (s.messages.map fun m => m.flight.pending).sum

namespace World

section
variable {p : SharedPayload} {call : SendCall}

theorem enabled_callback {s : World} {i : Nat} {m : InFlight} (hi : s.messages[i]? = some m)
    (hf : m.flight.inCallback) : Enabled (.callback i) s :=
  (Option.any_eq_true _ _).mpr ⟨m, hi, hf⟩

/-- Every message, attached or handed over, points to the payload of its send. -/
theorem Inv.carries {s : World} (h : Inv p call s) {m : InFlight} (hm : m ∈ s.messages) :
    Carries call.args p m.message := by
  obtain h | h | h := h
  · refine addToMessages_carries call.allocateMessage call.args call.connections 0 p m.message ?_
    change m.message ∈ allMessages p call
    rw [← h.messages]
    exact List.mem_append_left _ (List.mem_map_of_mem hm)
  · exact h.carries hm
  · exact h.carries hm

theorem sum_pending_set {messages : List InFlight} {i : Nat} {msg : SteamNetworkingMessage}
    {f g : Flight} (hi : messages[i]? = some ⟨msg, f⟩) :
    ((messages.set i ⟨msg, g⟩).map fun m => m.flight.pending).sum + f.pending =
      (messages.map fun m => m.flight.pending).sum + g.pending := by
  induction messages generalizing i with
  | nil => cases hi
  | cons m messages ih =>
    cases i with
    | zero =>
      obtain rfl := Option.some.inj hi
      simp only [List.set_cons_zero, List.map_cons, List.sum_cons]
      omega
    | succ i =>
      have hrest := ih hi
      simp only [List.set_cons_succ, List.map_cons, List.sum_cons]
      omega

theorem sum_pending_handOver {messages : List InFlight} (h : ∀ m ∈ messages, m.flight = .attached)
    (n : Nat) : ((handOver n messages).map fun m => m.flight.pending).sum =
      (messages.map fun m => m.flight.pending).sum := by
  have htake : ((messages.take n).map fun m => { m with flight := Flight.sent }).map
      (fun m => m.flight.pending) = (messages.take n).map fun m => m.flight.pending := by
    rw [List.map_map]
    refine List.map_congr_left fun m hm => ?_
    rw [h m (List.mem_of_mem_take hm)]
    rfl
  rw [handOver, List.map_append, htake, ← List.map_append, List.take_append_drop]

theorem Sending.senderStep_pending {s s' : World} (h : Sending p call s)
    (hs' : s.senderStep call p.ptr = .ok s') : s'.pending + 1 = s.pending := by
  have hmem := access_of_memory h.memory
  cases hs : s.sender with
  | start connections =>
    by_cases hc : connections.length = 0
    · rw [senderStep, hs] at hs'
      simp only [if_pos hc, forceDeallocate, hmem, Run.bind_ok, Run.pure_ok] at hs'
      obtain rfl := Except.ok.inj hs'
      simp only [World.pending, hs, Sender.pending, if_pos hc]
      omega
    · rw [senderStep, hs] at hs'
      simp only [if_neg hc] at hs'
      obtain rfl := Except.ok.inj hs'
      simp only [World.pending, hs, Sender.pending, if_neg hc]
      omega
  | loop connections =>
    cases connections with
    | nil =>
      rw [senderStep, hs] at hs'
      obtain rfl := Except.ok.inj hs'
      simp only [World.pending, hs, Sender.pending, sum_pending_handOver h.attached, List.length_nil]
      omega
    | cons conn connections =>
      rw [senderStep, hs] at hs'
      obtain rfl := Except.ok.inj hs'
      simp only [World.pending, hs, Sender.pending, List.length_cons]
      omega
  | allocated msg conn connections =>
    rw [senderStep, hs] at hs'
    simp only [hmem, Run.bind_ok, Run.pure_ok] at hs'
    obtain rfl := Except.ok.inj hs'
    simp only [World.pending, hs, Sender.pending]
    omega
  | sized msg cbSize conn connections =>
    rw [senderStep, hs] at hs'
    simp only [hmem, Run.bind_ok, Run.pure_ok] at hs'
    obtain rfl := Except.ok.inj hs'
    simp only [World.pending, hs, Sender.pending, List.map_append, List.sum_append, List.map_cons,
      List.map_nil, List.sum_cons, List.sum_nil, Flight.pending]
    omega
  | returned => exact absurd hs h.active

/-- The only thing a callback step changes about the messages is where its own is. -/
theorem callbackStep_messages {s s' : World} {i : Nat} {msg : SteamNetworkingMessage}
    {flight : Flight} (hi : s.messages[i]? = some ⟨msg, flight⟩)
    (hf : msg.pfnFreeData = some .decreaseRefCountAndDeallocateIfZeroCallback)
    (hflight : flight.inCallback) (hs' : s.callbackStep i = .ok s') :
    s'.sender = s.sender ∧ ∃ g : Flight, g.pending + 1 = flight.pending ∧
      s'.messages = s.messages.set i ⟨msg, g⟩ := by
  cases flight with
  | attached => exact absurd hflight (by simp [Flight.inCallback])
  | released => exact absurd hflight (by simp [Flight.inCallback])
  | sent =>
    rw [callbackStep, hi] at hs'
    simp only [hf] at hs'
    obtain ⟨q, -, hs'⟩ := Run.bind_eq_ok.mp hs'
    obtain rfl := Except.ok.inj hs'
    exact ⟨rfl, .decreased q.refCount, rfl, rfl⟩
  | decreased old =>
    rw [callbackStep, hi] at hs'
    by_cases hold : 1 = old
    · simp only [if_pos hold] at hs'
      obtain ⟨t, ht, hs'⟩ := Run.bind_eq_ok.mp hs'
      obtain ⟨q, -, ht⟩ := Run.bind_eq_ok.mp ht
      obtain rfl := Except.ok.inj ht
      obtain rfl := Except.ok.inj hs'
      exact ⟨rfl, .released true, rfl, rfl⟩
    · simp only [if_neg hold] at hs'
      obtain rfl := Except.ok.inj hs'
      exact ⟨rfl, .released false, rfl, rfl⟩

/-- Every step of a thread brings its send one step nearer to the end. -/
theorem Inv.exec_pending {s s' : World} (h : Inv p call s) {action : Action}
    (hen : Enabled action s) (hs' : World.exec call p.ptr action s = .ok s') :
    s'.pending + 1 = s.pending := by
  cases action with
  | sender =>
    obtain h | h | h := h
    · exact h.senderStep_pending hs'
    · exact absurd h.sender hen
    · exact absurd h.sender hen
  | callback i =>
    obtain ⟨⟨msg, flight⟩, hi, hflight⟩ := (Option.any_eq_true _ _).mp hen
    have hc : Carries call.args p msg := h.carries (List.mem_of_getElem? hi)
    obtain ⟨hsender, g, hg, hmessages⟩ := callbackStep_messages hi hc.pfnFreeData hflight hs'
    have hsum := sum_pending_set (g := g) hi
    rw [World.pending, World.pending, hsender, hmessages]
    omega

theorem Inv.advance {s : World} (h : Inv p call s) (hn : call.connections.length < 2 ^ 31)
    {action : Action} (hen : Enabled action s) :
    ∃ s', World.exec call p.ptr action s = .ok s' ∧ Inv p call s' ∧ s'.pending + 1 = s.pending := by
  obtain ⟨s', hs', hinv⟩ := h.exec hn hen
  exact ⟨s', hs', hinv, h.exec_pending hen hs'⟩

theorem released_of_pending {s : World} (h0 : s.pending = 0) {m : InFlight}
    (hm : m ∈ s.messages) : ∃ deallocated, m.flight = .released deallocated := by
  have hsum : (s.messages.map fun m => m.flight.pending).sum = 0 := by
    rw [World.pending] at h0
    omega
  have hzero : m.flight.pending = 0 :=
    List.sum_eq_zero_iff_forall_eq_nat.mp hsum _ (List.mem_map_of_mem hm)
  cases hf : m.flight with
  | attached => simp [hf, Flight.pending] at hzero
  | sent => simp [hf, Flight.pending] at hzero
  | decreased old => simp [hf, Flight.pending] at hzero
  | released deallocated => exact ⟨deallocated, rfl⟩

/-- When no thread of a send has a step to take, none is left. -/
theorem Inv.pending_eq_zero_iff {s : World} (h : Inv p call s) (hn : call.connections.length < 2 ^ 31) :
    s.pending = 0 ↔ ∀ action, ¬ Enabled action s := by
  constructor
  · intro h0 action hen
    obtain ⟨s', -, -, hlt⟩ := h.advance hn hen
    omega
  · intro hrest
    have hsender : s.sender = .returned := not_not.mp (hrest .sender)
    have hattached : ∀ m ∈ s.messages, m.flight ≠ .attached := by
      obtain h | h | h := h
      · exact absurd hsender h.active
      · exact h.attached
      · exact h.attached
    rw [World.pending, hsender, Sender.pending, Nat.zero_add, List.sum_eq_zero_iff_forall_eq_nat]
    intro n hmem
    obtain ⟨m, hm, rfl⟩ := List.mem_map.mp hmem
    obtain ⟨i, hi⟩ := List.mem_iff_getElem?.mp hm
    have hno : ¬ m.flight.inCallback := fun hf => hrest (.callback i) (enabled_callback hi hf)
    cases hf : m.flight with
    | attached => exact absurd hf (hattached m hm)
    | sent => exact absurd rfl (hf ▸ hno)
    | decreased old => exact absurd rfl (hf ▸ hno)
    | released deallocated => rfl

end
end World
end Nalchi
