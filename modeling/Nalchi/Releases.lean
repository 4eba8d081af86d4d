import Nalchi.SocketExtensions

/-! A send and the callbacks of its messages as threads that take atomic steps in
any order. The network library calls `m_pfnFreeData` of each message once, at any
time after `SendMessages` was called with it. -/
namespace Nalchi
open SharedPayload SocketExtensions

/-- Where a message is, from the end of its set-up to the return of its callback. -/
inductive Flight where
  | attached
  | sent
  | decreased (old : BitVec 32)
  | released (deallocated : Bool)
deriving DecidableEq, Repr

/-- Attached, and its `fetch_sub` yet to come. -/
def Flight.holds : Flight → Bool
  | .attached | .sent => true
  | .decreased _ | .released _ => false

/-- Its callback may be called, or has not returned. -/
def Flight.inCallback : Flight → Bool
  | .sent | .decreased _ => true
  | .attached | .released _ => false

/-- Its callback is about to deallocate the payload. -/
def Flight.deallocating : Flight → Bool
  | .decreased old => 1 = old
  | _ => false

/-- Its callback was the one to deallocate the payload. -/
def Flight.deallocated : Flight → Bool
  | .released deallocated => deallocated
  | _ => false

structure InFlight where
  message : SteamNetworkingMessage
  flight : Flight
deriving DecidableEq

/-- Where the sending thread is. The connections still to be served come last. -/
inductive Sender where
  | start (connections : List HSteamNetConnection)
  | loop (connections : List HSteamNetConnection)
  | allocated (msg : SteamNetworkingMessage) (conn : HSteamNetConnection)
      (connections : List HSteamNetConnection)
  | sized (msg : SteamNetworkingMessage) (cbSize : CInt) (conn : HSteamNetConnection)
      (connections : List HSteamNetConnection)
  | returned
deriving DecidableEq

/-- The payload's memory, until it is deallocated, and all that may still touch it. -/
structure World where
  memory : Option SharedPayload
  deallocations : Nat
  sender : Sender
  messages : List InFlight
deriving DecidableEq

/-- What a send is called with, the payload apart, and what `AllocateMessage` returns to it. -/
structure SendCall where
  connections : List HSteamNetConnection
  args : SendArgs
  allocateMessage : Nat → SteamNetworkingMessage

/-- A thread takes a step: the sender, or the callback of message `i`. -/
inductive Action where
  | sender
  | callback (i : Nat)
deriving DecidableEq

namespace World

def multicasting (p : SharedPayload) (call : SendCall) : World :=
  ⟨some p, 0, .start call.connections, []⟩

/-- `unicast` has no test to make before it attaches. -/
def unicasting (p : SharedPayload) (call : SendCall) : World :=
  ⟨some p, 0, .loop call.connections, []⟩

/-- Any use of `ptr`. -/
def access (ptr : Nat) (s : World) : Except Fault SharedPayload :=
  match s.memory with
  | some p => if p.ptr = ptr then .ok p else .error (.invalidPointer ptr)
  | none => .error (.invalidPointer ptr)

def forceDeallocate (ptr : Nat) (s : World) : Except Fault World := do
  let _ ← s.access ptr
  return { s with memory := none, deallocations := s.deallocations + 1 }

/-- From the call of `SendMessages` on its messages may be released. -/
def handOver (count : Nat) (messages : List InFlight) : List InFlight :=
  (messages.take count).map (fun m => { m with flight := .sent }) ++ messages.drop count

/-- The sending thread. `used_bit_stream` and `fetch_add` are separate uses of the payload. -/
def senderStep (call : SendCall) (ptr : Nat) (s : World) : Except Fault World :=
  match s.sender with
  | .start connections =>
    if connections.length = 0 then do
      let s ← s.forceDeallocate ptr
      return { s with sender := .returned }
    else .ok { s with sender := .loop connections }
  | .loop [] =>
    .ok { s with
      sender := .returned
      messages := handOver (IntType.int32.cast call.connections.length).val.toNat s.messages }
  | .loop (conn :: connections) =>
    .ok { s with sender := .allocated (call.allocateMessage s.messages.length) conn connections }
  | .allocated msg conn connections => do
    let p ← s.access ptr
    return { s with sender := .sized msg (p.sendSize call.args.logicalBytesLength) conn connections }
  | .sized msg cbSize conn connections => do
    let p ← s.access ptr
    return { s with
      memory := some p.increaseRefCount
      sender := .loop connections
      messages := s.messages ++ [⟨setup conn call.args (attach ptr cbSize msg), .attached⟩] }
  | .returned => .ok s

def setFlight (i : Nat) (msg : SteamNetworkingMessage) (flight : Flight) (s : World) : World :=
  { s with messages := s.messages.set i ⟨msg, flight⟩ }

/-- `decrease_ref_count_and_deallocate_if_zero_callback`, first the `fetch_sub` and then
the test of what it returned. -/
def callbackStep (i : Nat) (s : World) : Except Fault World :=
  match s.messages[i]? with
  | some ⟨msg, .sent⟩ =>
    match msg.pfnFreeData with
    | some .decreaseRefCountAndDeallocateIfZeroCallback => do
      let p ← s.access msg.pData
      return setFlight i msg (.decreased p.refCount) { s with memory := some p.decreaseRefCount }
    | none => .ok (s.setFlight i msg (.released false))
  | some ⟨msg, .decreased old⟩ =>
    if 1 = old then do
      let s ← s.forceDeallocate msg.pData
      return s.setFlight i msg (.released true)
    else .ok (s.setFlight i msg (.released false))
  | _ => .ok s

def exec (call : SendCall) (ptr : Nat) (action : Action) (s : World) : Except Fault World :=
  match action with
  | .sender => s.senderStep call ptr
  | .callback i => s.callbackStep i

/-- The threads that have a step to take. -/
def Enabled (action : Action) (s : World) : Prop :=
  match action with
  | .sender => s.sender ≠ .returned
  | .callback i => s.messages[i]?.any fun m => m.flight.inCallback

instance decidableEnabled : ∀ action s, Decidable (Enabled action s)
  | .sender, s => inferInstanceAs (Decidable (s.sender ≠ .returned))
  | .callback i, s => inferInstanceAs (Decidable (s.messages[i]?.any (fun m => m.flight.inCallback)))

/-- How many messages are where `P` says. -/
def count (P : Flight → Bool) (s : World) : Nat := s.messages.countP fun m => P m.flight

def unreleased (s : World) : Nat := s.count Flight.holds
def deallocating (s : World) : Nat := s.count Flight.deallocating
def deallocators (s : World) : Nat := s.count Flight.deallocated

end World
end Nalchi
