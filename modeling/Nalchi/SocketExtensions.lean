import Nalchi.SharedPayload

/-! `socket_extensions`: attaching a payload to messages, and the two ways to send it.
`AllocateMessage` and `SendMessages` belong to the network library. -/
namespace Nalchi

abbrev HSteamNetConnection := BitVec 32

/-- The callbacks a message can be given to release its data. -/
inductive FreeData where
  | decreaseRefCountAndDeallocateIfZeroCallback
deriving DecidableEq, Repr

/-- The fields of `SteamNetworkingMessage_t` that a send sets. -/
structure SteamNetworkingMessage where
  pData : Nat
  cbSize : CInt
  conn : HSteamNetConnection
  nFlags : CInt
  idxLane : BitVec 16
  nUserData : BitVec 64
  pfnFreeData : Option FreeData
deriving DecidableEq

/-- The arguments both sends share. -/
structure SendArgs where
  logicalBytesLength : CInt
  sendFlags : CInt
  lane : BitVec 16 := 0
  userData : BitVec 64 := 0
deriving DecidableEq

/-- What a send leaves: the payload, unless it was deallocated, and the messages that
`SendMessages` was called with. -/
structure Sent where
  payload : Option SharedPayload
  messages : List SteamNetworkingMessage

namespace SharedPayload

/-- The size `add_to_message` computes first. -/
def sendSize (p : SharedPayload) (logicalBytesLength : CInt) : CInt :=
  if p.usedBitStream then
    IntType.int32.cast (ceilToMultipleOf 4 logicalBytesLength.val).toNat
  else logicalBytesLength

/-- The fields `add_to_message` sets last. -/
def attach (ptr : Nat) (cbSize : CInt) (msg : SteamNetworkingMessage) : SteamNetworkingMessage :=
  { msg with
    pData := ptr
    cbSize := cbSize
    pfnFreeData := some .decreaseRefCountAndDeallocateIfZeroCallback }

def addToMessage (p : SharedPayload) (msg : SteamNetworkingMessage) (logicalBytesLength : CInt) :
    SharedPayload × SteamNetworkingMessage :=
  let cbSize := p.sendSize logicalBytesLength
  let p := p.increaseRefCount
  (p, attach p.ptr cbSize msg)

/-- `ceil_to_multiple_of` takes the `int` to `size_t`, sign and all. -/
theorem toNat_ceilToMultipleOf_int (L : CInt) : ((ceilToMultipleOf 4 L.val).toNat : Int) =
    (L.val + 3) % 2 ^ 64 / 4 * 4 := by
  have hdiv := toNat_and_not_mask (BitVec.ofInt 64 L.val + 3) 2 (by omega)
  change (ceilToMultipleOf 4 L.val).toNat = _ at hdiv
  have h3 : (3 : BitVec 64).toNat = 3 := rfl
  rw [hdiv, BitVec.toNat_add, BitVec.toNat_ofInt, h3]
  push_cast
  omega

/-- Rounded up to words the size wraps next to the largest `int`. -/
theorem sendSize_val (p : SharedPayload) (L : CInt) :
    (p.sendSize L).val = if p.usedBitStream then
      if L.val ≤ 2 ^ 31 - 4 then (L.val + 3) / 4 * 4 else -2 ^ 31 else L.val := by
  rw [sendSize]
  by_cases hflag : p.usedBitStream
  · have hlow : -2 ^ 31 ≤ L.val := L.property.1
    have hhigh : L.val ≤ 2 ^ 31 - 1 := L.property.2
    rw [if_pos hflag, if_pos hflag]
    simp only [IntType.cast, IntType.wrap, Width.bits]
    rw [toNat_ceilToMultipleOf_int, Int.bmod_def]
    split_ifs <;> omega
  · rw [if_neg hflag, if_neg hflag]

theorem sendSize_inside_iff (p : SharedPayload) (L : CInt) :
    (0 ≤ (p.sendSize L).val ∧ (p.sendSize L).val ≤ 4 * p.words.length) ↔
      (if p.usedBitStream then -3 else 0) ≤ L.val ∧ L.val ≤ 4 * p.words.length := by
  have hlen : 4 * p.words.length = p.wordCeiledSize.toNat := p.words_length
  have hle := p.wordCeiledSize_le
  have h19 : gnsMaxMsgSendSize = 2 ^ 19 := by decide
  rw [p.sendSize_val]
  split_ifs <;> omega

end SharedPayload

namespace SocketExtensions

def setup (conn : HSteamNetConnection) (args : SendArgs) (msg : SteamNetworkingMessage) :
    SteamNetworkingMessage :=
  { msg with
    conn := conn
    nFlags := args.sendFlags
    idxLane := args.lane
    nUserData := args.userData }

/-- `SendMessages` takes as many messages as its first argument says. -/
def sendMessages (count : CInt) (messages : List SteamNetworkingMessage) :
    List SteamNetworkingMessage :=
  messages.take count.val.toNat

theorem mem_of_mem_sendMessages {count : CInt} {messages : List SteamNetworkingMessage}
    {msg : SteamNetworkingMessage} (h : msg ∈ sendMessages count messages) : msg ∈ messages := by
  rw [sendMessages] at h
  exact List.mem_of_mem_take h

variable (allocateMessage : Nat → SteamNetworkingMessage) (args : SendArgs)

def unicast (connection : HSteamNetConnection) (payload : SharedPayload) : Sent :=
  let (payload, msg) := payload.addToMessage (allocateMessage 0) args.logicalBytesLength
  let msg := setup connection args msg
  ⟨some payload, sendMessages ⟨1, by decide⟩ [msg]⟩

/-- The loop of `multicast`, with `i` messages set up before. -/
def addToMessages : Nat → List HSteamNetConnection → SharedPayload →
    SharedPayload × List SteamNetworkingMessage
  | _, [], payload => (payload, [])
  | i, conn :: connections, payload =>
    let (payload, msg) := payload.addToMessage (allocateMessage i) args.logicalBytesLength
    let (payload, messages) := addToMessages (i + 1) connections payload
    (payload, setup conn args msg :: messages)

def multicast (connections : List HSteamNetConnection) (payload : SharedPayload) : Sent :=
  if connections.length = 0 then ⟨none, []⟩
  else
    let (payload, messages) := addToMessages allocateMessage args 0 connections payload
    ⟨some payload, sendMessages (IntType.int32.cast connections.length) messages⟩

theorem multicast_of_ne (connections : List HSteamNetConnection) (p : SharedPayload)
    (h : connections.length ≠ 0) : multicast allocateMessage args connections p =
      ⟨some (addToMessages allocateMessage args 0 connections p).1,
        sendMessages (IntType.int32.cast connections.length)
          (addToMessages allocateMessage args 0 connections p).2⟩ := by
  rw [multicast, if_neg h]

/-- What every message of a send has in common. -/
structure Carries (p : SharedPayload) (msg : SteamNetworkingMessage) : Prop where
  pData : msg.pData = p.ptr
  cbSize : msg.cbSize = p.sendSize args.logicalBytesLength
  pfnFreeData : msg.pfnFreeData = some .decreaseRefCountAndDeallocateIfZeroCallback

theorem addToMessages_carries (connections : List HSteamNetConnection) (i : Nat)
    (p : SharedPayload) :
    ∀ msg ∈ (addToMessages allocateMessage args i connections p).2, Carries args p msg := by
  induction connections generalizing i p with
  | nil => exact fun msg h => absurd h (by simp [addToMessages])
  | cons conn connections ih =>
    intro msg h
    obtain rfl | h := List.mem_cons.mp h
    · exact ⟨rfl, rfl, rfl⟩
    · obtain ⟨h1, h2, h3⟩ := ih (i + 1) p.increaseRefCount msg h
      exact ⟨h1, h2, h3⟩

/-- The loop changes nothing but the count, and gives each connection a message. -/
theorem addToMessages_spec (connections : List HSteamNetConnection) (i : Nat)
    (p : SharedPayload) :
    (addToMessages allocateMessage args i connections p).1 =
        { p with refCount := p.refCount + BitVec.ofNat 32 connections.length } ∧
      (addToMessages allocateMessage args i connections p).2.map (·.conn) = connections := by
  induction connections generalizing i p with
  | nil => simp [addToMessages]
  | cons conn connections ih =>
    obtain ⟨h1, h2⟩ := ih (i + 1) p.increaseRefCount
    constructor
    · refine h1.trans ?_
      have hc : p.refCount + 1 + BitVec.ofNat 32 connections.length =
          p.refCount + BitVec.ofNat 32 (connections.length + 1) := by
        rw [BitVec.ofNat_add, BitVec.add_assoc, BitVec.add_comm 1]
        rfl
      simp only [SharedPayload.increaseRefCount, hc, List.length_cons]
    · exact congrArg (conn :: ·) h2

/-- `SendMessages` is told the length of the array it is given. -/
theorem multicast_messages (connections : List HSteamNetConnection) (p : SharedPayload)
    (hn : connections.length < 2 ^ 31) : (multicast allocateMessage args connections p).messages =
      (addToMessages allocateMessage args 0 connections p).2 := by
  by_cases hc : connections.length = 0
  · rw [multicast, if_pos hc, List.length_eq_zero_iff.mp hc]
    rfl
  · have hlen := congrArg List.length (addToMessages_spec allocateMessage args connections 0 p).2
    rw [List.length_map] at hlen
    rw [multicast_of_ne allocateMessage args connections p hc, sendMessages, int32_cast_val hn,
      Int.toNat_natCast, List.take_of_length_le (by omega)]

/-- Each connection gets one message, in their order. -/
theorem multicast_conns (connections : List HSteamNetConnection) (p : SharedPayload)
    (hn : connections.length < 2 ^ 31) :
    (multicast allocateMessage args connections p).messages.map (·.conn) = connections := by
  rw [multicast_messages allocateMessage args connections p hn]
  exact (addToMessages_spec allocateMessage args connections 0 p).2

/-- Whoever gets a message, the payload behind it is still the one that was sent. -/
theorem mem_sent {p : SharedPayload} {connections : List HSteamNetConnection} {conn}
    {sent : Sent} (hs : sent = unicast allocateMessage args conn p ∨
      sent = multicast allocateMessage args connections p)
    {msg : SteamNetworkingMessage} (h : msg ∈ sent.messages) :
    Carries args p msg ∧ ∃ refCount, sent.payload = some { p with refCount := refCount } := by
  obtain rfl | rfl := hs
  · obtain rfl := List.mem_singleton.mp (mem_of_mem_sendMessages h)
    exact ⟨⟨rfl, rfl, rfl⟩, p.refCount + 1, rfl⟩
  · by_cases hn : connections.length = 0
    · rw [multicast, if_pos hn] at h
      exact absurd h (by simp)
    · rw [multicast_of_ne allocateMessage args connections p hn] at h ⊢
      simp only at h
      refine ⟨addToMessages_carries allocateMessage args connections 0 p msg
        (mem_of_mem_sendMessages h), p.refCount + BitVec.ofNat 32 connections.length, ?_⟩
      rw [(addToMessages_spec allocateMessage args connections 0 p).1]

end SocketExtensions
end Nalchi
