import Nalchi.FreedOnce
import Nalchi.Ownership

/-! Many payloads at once. A program allocates, fills and sends payloads while the
network library releases the messages of earlier sends, each thread a step at a time,
and `std::malloc` hands out again what was freed. -/
namespace Nalchi
open SharedPayload SocketExtensions
open Function (update)

/-- A send: the payload as it was handed over, what the call was, and where its threads are. -/
structure Send where
  payload : SharedPayload
  call : SendCall
  deallocations : Nat
  sender : Sender
  messages : List InFlight

namespace Send

/-- The pointer a step of one of the threads goes through. A callback has it from its message. -/
def pointer (send : Send) : Action → Nat
  | .sender => send.payload.ptr
  | .callback i => (send.messages[i]?.map fun m => m.message.pData).getD send.payload.ptr

/-- The send with what lies behind a pointer. -/
def seeing (send : Send) (memory : Option SharedPayload) : World :=
  ⟨memory, send.deallocations, send.sender, send.messages⟩

def after (send : Send) (w : World) : Send :=
  { send with deallocations := w.deallocations, sender := w.sender, messages := w.messages }

def begin (p : SharedPayload) (call : SendCall) (w : World) : Send :=
  ⟨p, call, 0, w.sender, w.messages⟩

/-- The payload of the send is not deallocated. -/
def owns (send : Send) : Bool := send.deallocations == 0

/-- How many steps the threads have to take. -/
def pending (send : Send) : Nat := (send.seeing none).pending

end Send

/-- The payloads by their pointers, the pointers the program has and has not given away,
and all sends so far. -/
structure Store where
  heap : Nat → Option SharedPayload
  held : List Nat
  sends : List Send
  allocations : Nat
  deallocations : Nat

/-- What can happen next: a call the program makes, with what `std::malloc` answers, or
a step of a thread of send `i`. -/
inductive Event where
  | allocate (size : AllocSize) (raw : Option RawSpace)
  | resetWith (ptr : Nat)
  | storeWord (ptr : Nat) (i : Nat) (word : WordType)
  | forceDeallocate (ptr : Nat)
  | multicast (ptr : Nat) (call : SendCall)
  | unicast (ptr : Nat) (call : SendCall)
  | thread (i : Nat) (action : Action)

namespace Store

/-- Before anything is allocated. -/
def empty : Store := ⟨fun _ => none, [], [], 0, 0⟩

def access (ptr : Nat) (s : Store) : Except Fault SharedPayload :=
  match s.heap ptr with
  | some p => .ok p
  | none => .error (.invalidPointer ptr)

/-- A send begins with the sender where `begun` has it. -/
def send (ptr : Nat) (call : SendCall) (begun : SharedPayload → SendCall → World) (s : Store) :
    Except Fault Store := do
  let p ← s.access ptr
  return { s with
    held := s.held.erase ptr
    sends := s.sends ++ [.begin p call (begun p call)] }

/-- A step of a thread sees what lies behind the pointer it uses, and leaves what it made of it. -/
def threadStep (i : Nat) (action : Action) (s : Store) : Except Fault Store :=
  match s.sends[i]? with
  | none => .ok s
  | some send => do
    let w ← World.exec send.call send.payload.ptr action
      (send.seeing (s.heap (send.pointer action)))
    return { s with
      heap := update s.heap (send.pointer action) w.memory
      sends := s.sends.set i (send.after w) }

def exec (event : Event) (s : Store) : Except Fault Store :=
  match event with
  | .allocate size raw =>
    match SharedPayload.allocate (fun _ => raw) size with
    | none => .ok s
    | some p => .ok { s with
        heap := update s.heap p.ptr (some p)
        held := p.ptr :: s.held
        allocations := s.allocations + 1 }
  | .resetWith ptr => do
    let p ← s.access ptr
    return { s with heap := update s.heap ptr (some (p.setUsedBitStream true)) }
  | .storeWord ptr i word => do
    let p ← s.access ptr
    if i < p.words.length then
      return { s with heap := update s.heap ptr (some (p.withWords (p.words.set i word) (by simp))) }
    else .error (.wordIndex i)
  | .forceDeallocate ptr => do
    let _ ← s.access ptr
    return { s with
      heap := update s.heap ptr none
      held := s.held.erase ptr
      deallocations := s.deallocations + 1 }
  | .multicast ptr call => s.send ptr call World.multicasting
  | .unicast ptr call => s.send ptr call World.unicasting
  | .thread i action => s.threadStep i action

/-- Two blocks of memory, from their hidden fields to their last words, do not overlap. -/
def Apart (p q : SharedPayload) : Prop :=
  p.ptr - 8 + p.internalAllocSize.toNat ≤ q.ptr - 8 ∨
    q.ptr - 8 + q.internalAllocSize.toNat ≤ p.ptr - 8

/-- What `std::malloc` promises and what the documentation asks of the program: it uses a
payload only until it sends it. The network library calls each callback once. -/
def Allowed (event : Event) (s : Store) : Prop :=
  match event with
  | .allocate size raw => ∀ p, SharedPayload.allocate (fun _ => raw) size = some p →
      ∀ ptr q, s.heap ptr = some q → Apart p q
  | .resetWith ptr | .forceDeallocate ptr => ptr ∈ s.held
  | .storeWord ptr i _ => ptr ∈ s.held ∧ ∀ p, s.heap ptr = some p → i < p.words.length
  | .multicast ptr call => ptr ∈ s.held ∧ call.connections.length < 2 ^ 31
  | .unicast ptr call => ptr ∈ s.held ∧ call.connections.length = 1
  | .thread i action =>
      ∃ send, s.sends[i]? = some send ∧ World.Enabled action (send.seeing none)

/-- The payloads that are still to be deallocated by the sends they were given to. -/
def ownedBy (sends : List Send) : List Nat :=
  (sends.filter Send.owns).map fun send => send.payload.ptr

/-- Who answers for a payload: the program, or the send it was given to. -/
def owners (s : Store) : List Nat := s.held ++ ownedBy s.sends

def pending (s : Store) : Nat := (s.sends.map Send.pending).sum

end Store
end Nalchi
