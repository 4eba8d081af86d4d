import Nalchi.Writer
import Mathlib.Data.Nat.Bitwise

/-! `shared_payload`: its allocation, the two fields hidden in front of it, and the
flag that shares a field with the size. -/
namespace Nalchi

/-- `k_cbMaxSteamNetworkingSocketsMessageSizeSend`, under the name of the payload's source file. -/
abbrev gnsMaxMsgSendSize : Nat := kCbMaxSteamNetworkingSocketsMessageSizeSend

abbrev IntType.int32 : IntType := .signed .w32

/-- A C++ `int`. -/
abbrev CInt := IntType.int32.Value

theorem int32_cast_val {n : Nat} (h : n < 2 ^ 31) : (IntType.int32.cast n).val = n := by
  have hh : IntType.int32.highest = 2 ^ 31 - 1 := rfl
  exact IntType.cast_natCast _ n (by rw [hh]; omega)

namespace SharedPayload

abbrev AllocSize := SizeType

def bitStreamUsedFlagMask : AllocSize := 1 <<< (8 * 4 - 1)

def payloadSizeMask : AllocSize := ~~~bitStreamUsedFlagMask

/-- `ceil_to_multiple_of<sizeof(word_type)>` of an `alloc_size_t`. -/
def ceilToWord (size : AllocSize) : AllocSize := (ceilToMultipleOf 4 size.toNat).setWidth 32

/-- What `size()` makes of the raw field. -/
def filterSize (rawField : AllocSize) : AllocSize := rawField &&& payloadSizeMask

def setFlag (used : Bool) (rawField : AllocSize) : AllocSize :=
  if used then rawField ||| bitStreamUsedFlagMask else rawField &&& ~~~bitStreamUsedFlagMask

/-- The flag and the size share the field without disturbing each other. -/
@[simp] theorem filterSize_setFlag (used : Bool) (rawField : AllocSize) :
    filterSize (setFlag used rawField) = filterSize rawField := by
  apply BitVec.eq_of_getLsbD_eq
  intro i hi
  cases used with
  | false => simp [filterSize, setFlag, payloadSizeMask, hi]
  | true =>
    simp only [filterSize, setFlag, payloadSizeMask, if_true, BitVec.getLsbD_and,
      BitVec.getLsbD_or, BitVec.getLsbD_not, hi, decide_true, Bool.true_and]
    cases bitStreamUsedFlagMask.getLsbD i with
    | false => simp
    | true => simp

theorem setFlag_true_and (rawField : AllocSize) :
    setFlag true rawField &&& bitStreamUsedFlagMask = bitStreamUsedFlagMask := by
  apply BitVec.eq_of_getLsbD_eq
  intro i hi
  simp only [setFlag, if_true, BitVec.getLsbD_and, BitVec.getLsbD_or]
  cases bitStreamUsedFlagMask.getLsbD i with
  | false => simp
  | true => simp

theorem toNat_filterSize (rawField : AllocSize) :
    (filterSize rawField).toNat = rawField.toNat % 2 ^ 31 := by
  have hm : payloadSizeMask.toNat = 2 ^ 31 - 1 := by decide
  rw [filterSize, BitVec.toNat_and, hm, Nat.and_two_pow_sub_one_eq_mod]

theorem filterSize_of_le {size : AllocSize} (h : size.toNat ≤ gnsMaxMsgSendSize) :
    filterSize size = size := by
  have hlimit : gnsMaxMsgSendSize < 2 ^ 31 := by decide
  apply BitVec.eq_of_toNat_eq
  rw [toNat_filterSize]
  omega

theorem and_flagMask_of_le {size : AllocSize} (h : size.toNat ≤ gnsMaxMsgSendSize) :
    size &&& bitStreamUsedFlagMask = 0 := by
  have hlimit : gnsMaxMsgSendSize < 2 ^ 31 := by decide
  have hm : bitStreamUsedFlagMask.toNat = 2 ^ 31 := by decide
  have hbit : size.toNat.testBit 31 = false := Nat.testBit_lt_two_pow (by omega)
  apply BitVec.eq_of_toNat_eq
  rw [BitVec.toNat_and, hm, Nat.and_two_pow, hbit]
  rfl

theorem toNat_ceilToWord {size : AllocSize} (h : size.toNat ≤ gnsMaxMsgSendSize) :
    (ceilToWord size).toNat = (size.toNat + 3) / 4 * 4 := by
  have hlimit : gnsMaxMsgSendSize < 2 ^ 31 := by decide
  have hc := toNat_ceilToMultipleOf 2 size.toNat (by omega) (by omega)
  change (ceilToMultipleOf 4 size.toNat).toNat = _ at hc
  rw [ceilToWord, BitVec.toNat_setWidth, hc]
  omega

/-- `alloc_size`: the reference count, the size field and the words. -/
def allocSize (size : AllocSize) : AllocSize :=
  (4 + 4 + (ceilToWord size).setWidth 64 : BitVec 64).setWidth 32

theorem toNat_allocSize {size : AllocSize} (h : size.toNat ≤ gnsMaxMsgSendSize) :
    (allocSize size).toNat = 8 + (ceilToWord size).toNat := by
  have hlimit : gnsMaxMsgSendSize < 2 ^ 31 := by decide
  have hc := toNat_ceilToWord h
  have h4 : (4 : BitVec 64).toNat = 4 := rfl
  rw [allocSize, BitVec.toNat_setWidth, BitVec.toNat_add, BitVec.toNat_add, h4,
    BitVec.toNat_setWidth]
  omega

end SharedPayload

open SharedPayload in
/-- A payload and the memory behind its `ptr`: the hidden fields, then the words.
There are as many words as the size in the hidden field asks for. -/
structure SharedPayload where
  ptr : Nat
  refCount : BitVec 32
  payloadSizeAndBitStreamUsedFlag : AllocSize
  words : List WordType
  size_pos : 0 < (filterSize payloadSizeAndBitStreamUsedFlag).toNat
  size_le : (filterSize payloadSizeAndBitStreamUsedFlag).toNat ≤ gnsMaxMsgSendSize
  words_length : 4 * words.length = (ceilToWord (filterSize payloadSizeAndBitStreamUsedFlag)).toNat
deriving DecidableEq, Repr

namespace SharedPayload

/-- What `std::malloc` returns: an address, and whatever lies there. -/
structure RawSpace where
  address : Nat
  contents : Nat → WordType

/-- The words `std::malloc` provides for so many bytes. -/
def RawSpace.words (raw : RawSpace) (bytes : AllocSize) : List WordType :=
  (List.range (bytes.toNat / 4)).map raw.contents

theorem length_drop_words (raw : RawSpace) {size : AllocSize}
    (h : size.toNat ≤ gnsMaxMsgSendSize) :
    4 * ((raw.words (allocSize size)).drop 2).length = (ceilToWord size).toNat := by
  have hc := toNat_ceilToWord h
  rw [List.length_drop, RawSpace.words, List.length_map, List.length_range, toNat_allocSize h]
  omega

/-- `allocate`; a payload whose `ptr` is null is `none`. -/
def allocate (malloc : AllocSize → Option RawSpace) (size : AllocSize) : Option SharedPayload :=
  if h : 0 < size.toNat ∧ size.toNat ≤ gnsMaxMsgSendSize then
    (malloc (allocSize size)).map fun raw =>
      { ptr := raw.address + 4 + 4
        refCount := 0
        payloadSizeAndBitStreamUsedFlag := size
        words := (raw.words (allocSize size)).drop 2
        size_pos := by rw [filterSize_of_le h.2]; exact h.1
        size_le := by rw [filterSize_of_le h.2]; exact h.2
        words_length := by rw [filterSize_of_le h.2]; exact length_drop_words raw h.2 }
  else none

def size (p : SharedPayload) : AllocSize := filterSize p.payloadSizeAndBitStreamUsedFlag

def wordCeiledSize (p : SharedPayload) : AllocSize := ceilToWord p.size

def internalAllocSize (p : SharedPayload) : AllocSize :=
  (4 + 4 + p.wordCeiledSize.setWidth 64 : BitVec 64).setWidth 32

def usedBitStream (p : SharedPayload) : Bool :=
  p.payloadSizeAndBitStreamUsedFlag &&& bitStreamUsedFlagMask != 0

def setUsedBitStream (used : Bool) (p : SharedPayload) : SharedPayload :=
  { p with
    payloadSizeAndBitStreamUsedFlag := setFlag used p.payloadSizeAndBitStreamUsedFlag
    size_pos := by rw [filterSize_setFlag]; exact p.size_pos
    size_le := by rw [filterSize_setFlag]; exact p.size_le
    words_length := by rw [filterSize_setFlag]; exact p.words_length }

/-- Stores through a pointer into the payload leave its length alone. -/
def withWords (p : SharedPayload) (words : List WordType) (h : words.length = p.words.length) :
    SharedPayload :=
  { p with words := words, words_length := by rw [h]; exact p.words_length }

/-- The span `reset_with(shared_payload, size_type)` makes of the payload. -/
def span (p : SharedPayload) : WordSpan :=
  ⟨p.ptr == 0, p.words.take (p.wordCeiledSize.toNat / 4)⟩

/-- `fetch_add(1)` on the reference count. -/
def increaseRefCount (p : SharedPayload) : SharedPayload := { p with refCount := p.refCount + 1 }

/-- `fetch_sub(1)` on the reference count. -/
def decreaseRefCount (p : SharedPayload) : SharedPayload := { p with refCount := p.refCount - 1 }

section
variable (p : SharedPayload)

@[simp] theorem size_setUsedBitStream (used : Bool) : (p.setUsedBitStream used).size = p.size :=
  filterSize_setFlag used _

@[simp] theorem wordCeiledSize_setUsedBitStream (used : Bool) :
    (p.setUsedBitStream used).wordCeiledSize = p.wordCeiledSize := by
  rw [wordCeiledSize, size_setUsedBitStream, wordCeiledSize]

@[simp] theorem usedBitStream_setUsedBitStream : (p.setUsedBitStream true).usedBitStream := by
  rw [usedBitStream, setUsedBitStream, setFlag_true_and]
  decide

theorem internalAllocSize_eq : p.internalAllocSize = allocSize p.size := rfl

/-- The span covers the words of the payload and no more. -/
@[simp] theorem words_span : p.span.words = p.words := by
  have h := p.words_length
  rw [span, List.take_of_length_le]
  change p.words.length ≤ (ceilToWord (filterSize p.payloadSizeAndBitStreamUsedFlag)).toNat / 4
  omega

theorem sizeBytes_span : p.span.sizeBytes = p.wordCeiledSize.toNat := by
  rw [WordSpan.sizeBytes, words_span]
  exact p.words_length

theorem wordCeiledSize_le : p.wordCeiledSize.toNat ≤ gnsMaxMsgSendSize := by
  have h := toNat_ceilToWord p.size_le
  have hs := p.size_le
  have hlimit : gnsMaxMsgSendSize % 4 = 0 := by decide
  change (ceilToWord p.size).toNat = _ at h
  rw [wordCeiledSize, h]
  change (p.size.toNat + 3) / 4 * 4 ≤ _
  change p.size.toNat ≤ _ at hs
  omega

/-- What is asked of `std::malloc` is what lies behind the payload. -/
theorem toNat_internalAllocSize : p.internalAllocSize.toNat = 4 + 4 + 4 * p.words.length := by
  rw [p.words_length]
  exact toNat_allocSize p.size_le

end

/-- A fresh payload: nothing refers to it, no flag is set, and it is as large as requested. -/
theorem allocate_spec {malloc : AllocSize → Option RawSpace} {size : AllocSize}
    {p : SharedPayload} (h : allocate malloc size = some p) :
    p.size = size ∧ p.ptr ≠ 0 ∧ p.refCount = 0 ∧ p.usedBitStream = false := by
  unfold allocate at h
  split_ifs at h with hs
  obtain ⟨raw, -, rfl⟩ := Option.map_eq_some_iff.mp h
  refine ⟨filterSize_of_le hs.2, by simp, rfl, ?_⟩
  rw [usedBitStream, and_flagMask_of_le hs.2]
  rfl

end SharedPayload

/-- `reset_with(shared_payload, size_type)`. -/
def BitStreamWriter.resetWithPayload (w : BitStreamWriter) (buffer : SharedPayload)
    (logicalBytesLength : SizeType) : BitStreamWriter × SharedPayload :=
  let buffer := buffer.setUsedBitStream true
  (w.resetWith buffer.span logicalBytesLength, buffer)

end Nalchi
