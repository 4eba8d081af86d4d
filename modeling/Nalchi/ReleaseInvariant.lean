import Nalchi.Releases

/-! Who holds a sent payload: the sender, then the messages, until the last of them
frees it. What the sender's steps make of that. -/
namespace Nalchi
open SharedPayload SocketExtensions

theorem countP_set_add {α : Type*} (P : α → Bool) {l : List α} {i : Nat} {a b : α}
    (h : l[i]? = some a) : (l.set i b).countP P + (if P a then 1 else 0) =
      l.countP P + if P b then 1 else 0 := by
  obtain ⟨hi, ha⟩ := List.getElem?_eq_some_iff.mp h
  have hle : (if P a then 1 else 0) ≤ l.countP P := by
    split_ifs with hp
    · exact List.countP_pos_iff.mpr ⟨a, List.mem_of_getElem? h, hp⟩
    · exact Nat.zero_le _
  rw [List.countP_set hi, ha]
  omega

/-- The messages of the loop do not depend on the count they find. -/
theorem addToMessages_refCount (allocateMessage : Nat → SteamNetworkingMessage) (args : SendArgs)
    (connections : List HSteamNetConnection) (i : Nat) (p : SharedPayload) (c : BitVec 32) :
    (addToMessages allocateMessage args i connections { p with refCount := c }).2 =
      (addToMessages allocateMessage args i connections p).2 := by
  induction connections generalizing i c with
  | nil => rfl
  | cons conn connections ih =>
    refine congrArg (_ :: ·) ?_
    exact (ih (i + 1) (c + 1)).trans (ih (i + 1) (p.refCount + 1)).symm

namespace World

/-- The connections whose message is not attached yet. -/
def waiting : Sender → List HSteamNetConnection
  | .start connections | .loop connections => connections
  | .allocated _ conn connections | .sized _ _ conn connections => conn :: connections
  | .returned => []

section
variable (p : SharedPayload) (call : SendCall)

/-- All the messages of the send. -/
def allMessages : List SteamNetworkingMessage :=
  (addToMessages call.allocateMessage call.args 0 call.connections p).2

/-- What the sender has in hand belongs to message `i`. -/
def InHand (i : Nat) : Sender → Prop
  | .allocated msg _ _ => msg = call.allocateMessage i
  | .sized msg cbSize _ _ =>
    msg = call.allocateMessage i ∧ cbSize = p.sendSize call.args.logicalBytesLength
  | _ => True

/-- Until `SendMessages` is called no message can be released. -/
structure Sending (s : World) : Prop where
  memory : s.memory = some { p with refCount := BitVec.ofNat 32 s.messages.length }
  deallocations : s.deallocations = 0
  active : s.sender ≠ .returned
  attached : ∀ m ∈ s.messages, m.flight = .attached
  inHand : InHand p call s.messages.length s.sender
  messages : s.messages.map InFlight.message ++
    (addToMessages call.allocateMessage call.args s.messages.length (waiting s.sender) p).2 =
      allMessages p call
  started : ∀ connections, s.sender = .start connections → s.messages = []
  nonempty : (∀ connections, s.sender ≠ .start connections) → call.connections ≠ []

structure HandedOver (s : World) : Prop where
  sender : s.sender = .returned
  messages : s.messages.map InFlight.message = allMessages p call
  attached : ∀ m ∈ s.messages, m.flight ≠ .attached

/-- The messages hold the payload, the last of them until its callback deallocates. -/
structure Held (s : World) : Prop extends HandedOver p call s where
  memory : s.memory = some { p with refCount := BitVec.ofNat 32 s.unreleased }
  deallocations : s.deallocations = 0
  deallocating : s.deallocating = if s.unreleased = 0 then 1 else 0
  deallocators : s.deallocators = 0

structure Freed (s : World) : Prop extends HandedOver p call s where
  memory : s.memory = none
  deallocations : s.deallocations = 1
  unreleased : s.unreleased = 0
  deallocating : s.deallocating = 0
  deallocators : s.deallocators = if call.connections.length = 0 then 0 else 1

def Inv (s : World) : Prop := Sending p call s ∨ Held p call s ∨ Freed p call s

theorem length_allMessages : (allMessages p call).length = call.connections.length := by
  have h := (addToMessages_spec call.allocateMessage call.args call.connections 0 p).2
  rw [allMessages, ← h, List.length_map, h]

variable {p call}

theorem HandedOver.length {s : World} (h : HandedOver p call s) :
    s.messages.length = call.connections.length := by
  rw [← length_allMessages p call, ← h.messages, List.length_map]

/-- A message handed over points to the payload and to its callback. -/
theorem HandedOver.carries {s : World} (h : HandedOver p call s) {m : InFlight}
    (hm : m ∈ s.messages) : Carries call.args p m.message := by
  refine addToMessages_carries call.allocateMessage call.args call.connections 0 p m.message ?_
  change m.message ∈ allMessages p call
  rw [← h.messages]
  exact List.mem_map_of_mem hm

theorem access_of_memory {s : World} {c : BitVec 32}
    (h : s.memory = some { p with refCount := c }) :
    s.access p.ptr = .ok { p with refCount := c } := by
  simp [access, h]

theorem multicasting_sending (hp : p.refCount = 0) :
    Sending p call (multicasting p call) where
  memory := by
    change some p = some { p with refCount := 0 }
    rw [← hp]
  deallocations := rfl
  active := by simp [multicasting]
  attached := by simp [multicasting]
  inHand := trivial
  messages := rfl
  started := fun _ _ => rfl
  nonempty := fun h => absurd rfl (h call.connections)

theorem unicasting_sending (hp : p.refCount = 0) (hc : call.connections ≠ []) :
    Sending p call (unicasting p call) where
  memory := by
    change some p = some { p with refCount := 0 }
    rw [← hp]
  deallocations := rfl
  active := by simp [unicasting]
  attached := by simp [unicasting]
  inHand := trivial
  messages := rfl
  started := fun _ _ => rfl
  nonempty := fun _ => hc

/-- When all messages are at the same point. -/
theorem count_of_all {P : Flight → Bool} {s : World} {f : Flight}
    (h : ∀ m ∈ s.messages, m.flight = f) :
    s.count P = if P f then s.messages.length else 0 := by
  split_ifs with hp
  · exact List.countP_eq_length.mpr fun m hm => by rw [h m hm, hp]
  · exact List.countP_eq_zero.mpr fun m hm => by rwa [h m hm]

theorem count_setFlight (P : Flight → Bool) {s : World} {i : Nat} {msg : SteamNetworkingMessage}
    {f g : Flight} (hi : s.messages[i]? = some ⟨msg, f⟩) :
    (s.setFlight i msg g).count P + (if P f then 1 else 0) = s.count P + if P g then 1 else 0 :=
  countP_set_add (b := ⟨msg, g⟩) (fun m : InFlight => P m.flight) hi

theorem count_pos {P : Flight → Bool} {s : World} {i : Nat} {m : InFlight}
    (hi : s.messages[i]? = some m) (hp : P m.flight) : 0 < s.count P :=
  List.countP_pos_iff.mpr ⟨m, List.mem_of_getElem? hi, hp⟩

/-- Right after `SendMessages` was called every message holds a reference. -/
theorem held_of_sent {s : World} (h : HandedOver p call s)
    (hsent : ∀ m ∈ s.messages, m.flight = .sent)
    (hmem : s.memory = some { p with refCount := BitVec.ofNat 32 s.messages.length })
    (hd : s.deallocations = 0) (hne : s.messages.length ≠ 0) : Held p call s := by
  have hu : s.unreleased = s.messages.length := count_of_all hsent
  have hf : s.deallocating = 0 := count_of_all hsent
  have hr : s.deallocators = 0 := count_of_all hsent
  exact ⟨h, by rw [hu]; exact hmem, hd, by rw [hf, hu, if_neg hne], hr⟩

/-- A loop that has come to its end has attached a message for every connection. -/
theorem Sending.length_of_loop {s : World} (h : Sending p call s) (hs : s.sender = .loop []) :
    s.messages.map InFlight.message = allMessages p call ∧
      s.messages.length = call.connections.length := by
  have hm := h.messages
  rw [hs] at hm
  simp only [waiting, addToMessages, List.append_nil] at hm
  exact ⟨hm, by rw [← length_allMessages p call, ← hm, List.length_map]⟩

theorem Sending.handOver {s : World} (h : Sending p call s) (hs : s.sender = .loop [])
    (hn : call.connections.length < 2 ^ 31) :
    Held p call { s with
      sender := .returned
      messages := World.handOver (IntType.int32.cast call.connections.length).val.toNat s.messages } := by
  obtain ⟨hm, hlen⟩ := h.length_of_loop hs
  have hcount : (IntType.int32.cast call.connections.length).val.toNat = s.messages.length := by
    rw [int32_cast_val hn, hlen, Int.toNat_natCast]
  have hall : World.handOver s.messages.length s.messages =
      s.messages.map fun m => { m with flight := .sent } := by
    rw [World.handOver, List.take_length, List.drop_length, List.append_nil]
  have hne : call.connections.length ≠ 0 := by
    have h0 := h.nonempty (by simp [hs])
    simpa using h0
  rw [hcount, hall]
  have hsent : ∀ m ∈ s.messages.map fun m => { m with flight := Flight.sent },
      m.flight = .sent := by
    intro m hmem
    obtain ⟨m', -, rfl⟩ := List.mem_map.mp hmem
    rfl
  refine held_of_sent ⟨rfl, ?_, fun m hmem => by simp [hsent m hmem]⟩ hsent ?_ h.deallocations ?_
  · rw [List.map_map]
    exact hm
  · rw [List.length_map]
    exact h.memory
  · rw [List.length_map, hlen]
    exact hne

/-- The reference is taken before the message is attached. -/
theorem Sending.attach {s : World} (h : Sending p call s) {msg : SteamNetworkingMessage}
    {cbSize : CInt} {conn : HSteamNetConnection} {connections : List HSteamNetConnection}
    (hs : s.sender = .sized msg cbSize conn connections) :
    Sending p call { s with
      memory := some { p with refCount := BitVec.ofNat 32 s.messages.length + 1 }
      sender := .loop connections
      messages := s.messages ++
        [⟨setup conn call.args (SharedPayload.attach p.ptr cbSize msg), .attached⟩] } := by
  have hin := h.inHand
  rw [hs] at hin
  obtain ⟨rfl, rfl⟩ := hin
  have hmsgs := h.messages
  rw [hs] at hmsgs
  refine ⟨?_, h.deallocations, by simp, ?_, trivial, ?_, by simp, fun _ => h.nonempty (by simp [hs])⟩
  · rw [List.length_append, List.length_singleton, BitVec.ofNat_add]
    rfl
  · intro m hmem
    obtain hmem | hmem := List.mem_append.mp hmem
    · exact h.attached m hmem
    · rw [List.mem_singleton.mp hmem]
  · rw [← hmsgs, List.map_append, List.append_assoc, List.length_append]
    refine congrArg (s.messages.map InFlight.message ++ ·) (congrArg (_ :: ·) ?_)
    exact (addToMessages_refCount _ _ _ _ p (p.refCount + 1)).symm

/-- A step of the sender that leaves the payload and the messages alone. -/
theorem Sending.move {s : World} (h : Sending p call s) {sender : Sender}
    (hw : waiting sender = waiting s.sender) (hin : InHand p call s.messages.length sender)
    (hr : sender ≠ .returned) (hstart : ∀ connections, sender ≠ .start connections)
    (hne : call.connections ≠ []) : Sending p call { s with sender := sender } :=
  ⟨h.memory, h.deallocations, hr, h.attached, hin, by rw [hw]; exact h.messages,
    fun connections hs => absurd hs (hstart connections), fun _ => hne⟩

/-- Before the test of `multicast` the connections are those it was called with. -/
theorem Sending.length_of_start {s : World} (h : Sending p call s)
    {connections : List HSteamNetConnection} (hs : s.sender = .start connections) :
    (addToMessages call.allocateMessage call.args 0 connections p).2 = allMessages p call ∧
      call.connections.length = connections.length := by
  have hm := h.messages
  rw [hs, h.started _ hs] at hm
  have hc := (addToMessages_spec call.allocateMessage call.args connections 0 p).2
  refine ⟨hm, ?_⟩
  rw [← length_allMessages p call, ← hm, ← congrArg List.length hc, List.length_map]
  rfl

theorem Sending.step {s : World} (h : Sending p call s)
    (hn : call.connections.length < 2 ^ 31) :
    ∃ s', s.senderStep call p.ptr = .ok s' ∧ Inv p call s' := by
  have hmem := access_of_memory h.memory
  cases hs : s.sender with
  | start connections =>
    obtain ⟨hall, hlen⟩ := h.length_of_start hs
    have hnil := h.started _ hs
    by_cases hc : connections.length = 0
    · refine ⟨{ s with memory := none, deallocations := s.deallocations + 1, sender := .returned },
        ?_, .inr (.inr ⟨⟨rfl, ?_, by simp [hnil]⟩, rfl, by rw [h.deallocations], ?_, ?_, ?_⟩)⟩
      · rw [senderStep, hs]
        simp only [if_pos hc, forceDeallocate, hmem]
        rfl
      · rw [← hall, hnil, List.length_eq_zero_iff.mp hc]
        rfl
      · simp [unreleased, count, hnil]
      · simp [World.deallocating, count, hnil]
      · simp [World.deallocators, count, hnil, hlen, hc]
    · refine ⟨{ s with sender := .loop connections }, ?_, .inl (h.move (by rw [hs]; rfl) trivial
        (by simp) (by simp) ?_)⟩
      · rw [senderStep, hs]
        simp only [if_neg hc]
      · rw [← List.length_pos_iff, hlen]
        omega
  | loop connections =>
    cases connections with
    | nil => exact ⟨_, by rw [senderStep, hs], .inr (.inl (h.handOver hs hn))⟩
    | cons conn connections =>
      exact ⟨{ s with
          sender := .allocated (call.allocateMessage s.messages.length) conn connections },
        by rw [senderStep, hs], .inl (h.move (by rw [hs]; rfl) rfl (by simp) (by simp)
          (h.nonempty (by simp [hs])))⟩
  | allocated msg conn connections =>
    have hin := h.inHand
    rw [hs] at hin
    exact ⟨{ s with
        sender := .sized msg (p.sendSize call.args.logicalBytesLength) conn connections },
      by rw [senderStep, hs, hmem]; rfl, .inl (h.move (by rw [hs]; rfl) ⟨hin, rfl⟩ (by simp)
        (by simp) (h.nonempty (by simp [hs])))⟩
  | sized msg cbSize conn connections =>
    exact ⟨_, by rw [senderStep, hs, hmem]; rfl, .inl (h.attach hs)⟩
  | returned => exact absurd hs h.active

end
end World
end Nalchi
