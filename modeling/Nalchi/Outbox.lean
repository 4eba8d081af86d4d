import Nalchi.StoreRuns
import Nalchi.PayloadDelivery
import Nalchi.WriterFailure

/-! Messages in the making: the store of payloads and the writers bound to them. The words
a writer stores to are those of its payload. -/
namespace Nalchi
open SharedPayload SocketExtensions
open Function (update)

/-- A writer that was bound to a payload, what it was bound with, and all it was asked since. -/
structure Bound where
  object : BitStreamWriter
  payload : SharedPayload
  length : SizeType
  ops : List WriterOp
  writer : BitStreamWriter

namespace Bound

/-- The writer as `reset_with` left it. -/
def initial (b : Bound) : BitStreamWriter := (b.object.resetWithPayload b.payload b.length).1

/-- The writer over the words its payload has now. -/
def onto (b : Bound) (words : List WordType) : BitStreamWriter := { b.writer with words := words }

end Bound

/-- The store, and by its pointer the writer the program fills a payload with. -/
structure Outbox where
  store : Store
  writers : Nat → Option Bound

inductive OutboxEvent where
  | store (event : Event)
  | resetWith (object : BitStreamWriter) (ptr : Nat) (logicalBytesLength : SizeType)
  | write (ptr : Nat) (op : WriterOp)

/-- The payload an event of the program is about. -/
def Event.target : Event → Option Nat
  | .resetWith ptr | .storeWord ptr _ _ | .forceDeallocate ptr => some ptr
  | .multicast ptr _ | .unicast ptr _ => some ptr
  | .allocate _ _ | .thread _ _ => none

namespace Outbox

def empty : Outbox := ⟨Store.empty, fun _ => none⟩

/-- The program is done with the writers of payloads it disposes of in another way. -/
def forget (writers : Nat → Option Bound) : Option Nat → Nat → Option Bound
  | none => writers
  | some ptr => update writers ptr none

def exec (e : Endian) (event : OutboxEvent) (o : Outbox) : Except Fault Outbox :=
  match event with
  | .store event => do
    let store ← Store.exec event o.store
    return ⟨store, forget o.writers event.target⟩
  | .resetWith object ptr logicalBytesLength => do
    let p ← o.store.access ptr
    let (w, p') := object.resetWithPayload p logicalBytesLength
    return ⟨{ o.store with heap := update o.store.heap ptr (some p') },
      update o.writers ptr (some ⟨object, p, logicalBytesLength, [], w⟩)⟩
  | .write ptr op =>
    match o.writers ptr with
    | none => .error (.invalidPointer ptr)
    | some b => do
      let p ← o.store.access ptr
      let w ← op.exec e (b.onto p.words)
      if h : w.words.length = p.words.length then
        return ⟨{ o.store with heap := update o.store.heap ptr (some (p.withWords w.words h)) },
          update o.writers ptr (some { b with ops := b.ops ++ [op], writer := w })⟩
      else .error .unreachable

/-- A payload is used until it is sent, and filled by one writer or without one. -/
def Allowed (event : OutboxEvent) (o : Outbox) : Prop :=
  match event with
  | .store event => Store.Allowed event o.store ∧ ∀ ptr, event ≠ .resetWith ptr
  | .resetWith _ ptr _ => ptr ∈ o.store.held
  | .write ptr op => (o.writers ptr).isSome ∧ op.WithinLimits

end Outbox

/-- The bound writer is where the same calls take it with no other payload around. -/
structure Bound.Sound (e : Endian) (p : SharedPayload) (b : Bound) : Prop where
  usedBitStream : p.usedBitStream
  size : p.size = b.payload.size
  withinLimits : ∀ op ∈ b.ops, op.WithinLimits
  runs : b.initial.runOps e b.ops = .ok (b.onto p.words)

structure Outbox.Sound (e : Endian) (o : Outbox) : Prop where
  store : o.store.Sound
  writers : ∀ ptr b, o.writers ptr = some b → ptr ∈ o.store.held ∧
    ∀ p, o.store.heap ptr = some p → b.Sound e p

end Nalchi
