import Nalchi.IntTypes
import Nalchi.Run
import Nalchi.Words

/-! `bit_stream_writer`. The words of the span are part of the state, since the
writer is the only one to store into them while it is bound to the buffer. -/
namespace Nalchi

structure BitStreamWriter where
  scratch : ScratchType
  words : List WordType
  scratchIndex : Int
  wordsIndex : Int
  logicalTotalBits : SizeType
  logicalUsedBits : SizeType
  initFail : Bool
  fail : Bool
  finalFlushed : Bool
deriving DecidableEq, Repr

namespace BitStreamWriter

def strLenPrefixPrefixBits : SizeType := 2
def minStrLenPrefixPrefix : IntType.uint32.Value := ⟨0, by decide⟩
def maxStrLenPrefixPrefix : IntType.uint32.Value := ⟨3, by decide⟩

def setFail (w : BitStreamWriter) : BitStreamWriter := { w with fail := true }

def totalBytes (w : BitStreamWriter) : SizeType := w.logicalTotalBits / 8
def totalBits (w : BitStreamWriter) : SizeType := w.logicalTotalBits
def usedBits (w : BitStreamWriter) : SizeType := w.logicalUsedBits

def usedBytes (w : BitStreamWriter) : SizeType :=
  (ceilToMultipleOf 8 w.usedBits.toNat).setWidth 32 / 8
def unusedBytes (w : BitStreamWriter) : SizeType := w.totalBytes - w.usedBytes
def unusedBits (w : BitStreamWriter) : SizeType := w.totalBits - w.usedBits

def restart (w : BitStreamWriter) : BitStreamWriter :=
  { w with
    scratch := 0
    scratchIndex := 0
    wordsIndex := 0
    logicalUsedBits := 0
    fail := w.initFail
    finalFlushed := false }

def reset (w : BitStreamWriter) : BitStreamWriter :=
  restart { w with words := [], logicalTotalBits := 0, initFail := true }

/-- `bit_stream_writer()`. -/
instance : Inhabited BitStreamWriter := ⟨reset ⟨0, [], 0, 0, 0, 0, true, true, false⟩⟩

/-- `reset_with(std::span<word_type>, size_type)`. The constructors call it on
uninitialised members, all of which it sets. -/
def resetWith (w : BitStreamWriter) (buffer : WordSpan) (logicalBytesLength : SizeType) :
    BitStreamWriter :=
  restart { w with
    words := buffer.words
    logicalTotalBits := 8 * logicalBytesLength
    initFail := buffer.isNull || buffer.words.length == 0 ||
      decide (buffer.sizeBytes < logicalBytesLength.toNat) }

section
variable (e : Endian)

def doFlushWordUnchecked (w : BitStreamWriter) : Except Fault BitStreamWriter := do
  let word : WordType := ((w.scratch <<< 32) >>> 32).setWidth 32
  let words ← storeWord w.words w.wordsIndex (e.swap word)
  return { w with
    words := words
    wordsIndex := w.wordsIndex + 1
    scratch := w.scratch >>> 32
    scratchIndex := max 0 (w.scratchIndex - 32) }

def flushIfScratchOverflow (w : BitStreamWriter) : Except Fault BitStreamWriter :=
  if 32 ≤ w.scratchIndex then doFlushWordUnchecked e w else .ok w

def flushFinal (w : BitStreamWriter) : Except Fault BitStreamWriter :=
  if w.fail then .ok w
  else if w.finalFlushed then .ok w
  else do
    let w ← if 0 < w.scratchIndex then doFlushWordUnchecked e w else .ok w
    return { w with finalFlushed := true }

/-- Write to the scratch and flush if it overflows: the lines both `do_write`
templates share, once in the small one and once for each half in the big one. -/
def pushScratch (value : ScratchType) (bits : Nat) (w : BitStreamWriter) :
    Except Fault BitStreamWriter := do
  let shifted ← shiftScratch value w.scratchIndex
  flushIfScratchOverflow e { w with
    scratch := w.scratch ||| shifted
    scratchIndex := w.scratchIndex + bits }

/-- The two halves of the `BInt` template. -/
def pushHalves (value : ScratchType) (bits : Nat) (w : BitStreamWriter) :
    Except Fault BitStreamWriter := do
  let lowBits := min bits 32
  let w ← pushScratch e ((value <<< 32) >>> 32) lowBits w
  let highBits := bits - lowBits
  if 0 < highBits then pushScratch e (value >>> 32) highBits w else return w

/-- What differs between the two `do_write` templates. -/
def pushValue (t : IntType) (value : ScratchType) (bits : Nat) (w : BitStreamWriter) :
    Except Fault BitStreamWriter :=
  if t.isBig then pushHalves e value bits w else pushScratch e value bits w

/-- `do_write<Checked>` for either size of type. -/
def doWrite (checked : Bool) (t : IntType) (data min max : t.Value) (w : BitStreamWriter) :
    Except Fault BitStreamWriter :=
  if checked ∧ w.fail then .ok w
  else if checked ∧ w.finalFlushed then .ok { w with fail := true }
  else if checked ∧ max.val ≤ min.val then .ok { w with fail := true }
  else if checked ∧ (data.val < min.val ∨ max.val < data.val) then .ok { w with fail := true }
  else
    let value : ScratchType := (t.offset data min).setWidth 64
    let bits := t.rangeBits min max
    if checked ∧ w.logicalTotalBits < w.logicalUsedBits + BitVec.ofNat 32 bits then
      .ok { w with fail := true }
    else do
      let w ← pushValue e t value bits w
      return { w with logicalUsedBits := w.logicalUsedBits + BitVec.ofNat 32 bits }

/-- A call of `do_write` with `min` and `max` left at their defaults. -/
def doWriteFull (checked : Bool) (t : IntType) (data : t.Value) (w : BitStreamWriter) :
    Except Fault BitStreamWriter :=
  doWrite e checked t data t.minValue t.maxValue w

def writeInt (t : IntType) (data min max : t.Value) (w : BitStreamWriter) :
    Except Fault BitStreamWriter :=
  doWrite e true t data min max w

def writeBytesFrom (data : Nat → IntType.uint8.Value) :
    Nat → Nat → BitStreamWriter → Except Fault BitStreamWriter
  | _, 0, w => .ok w
  | i, n + 1, w => doWriteFull e false .uint8 (data i) w >>= writeBytesFrom data (i + 1) n

/-- `write(const void*, size_type)`; `data` is the memory at the pointer. -/
def writeBlock (data : Nat → IntType.uint8.Value) (size : SizeType) (w : BitStreamWriter) :
    Except Fault BitStreamWriter :=
  if w.fail then .ok w
  else if w.finalFlushed then .ok { w with fail := true }
  else if w.logicalTotalBits < w.logicalUsedBits + 8 * size then .ok { w with fail := true }
  else writeBytesFrom e data 0 size.toNat w

/-- `write(float)`, given the bits of the float. -/
def writeFloat (data : BitVec 32) (w : BitStreamWriter) : Except Fault BitStreamWriter :=
  writeInt e .uint32 (IntType.uint32.cast data.toNat) IntType.uint32.minValue
    IntType.uint32.maxValue w

/-- `write(double)`, given the bits of the double. -/
def writeDouble (data : BitVec 64) (w : BitStreamWriter) : Except Fault BitStreamWriter :=
  writeInt e .uint64 (IntType.uint64.cast data.toNat) IntType.uint64.minValue
    IntType.uint64.maxValue w

/-- `NALCHI_BIT_STREAM_WRITER_FAIL_IF_STR_OVERFLOW`: the first sum is made in
`size_type`, the others in the 64-bit `size_t`. -/
def strOverflow (prefixBytes strLenBytes : Nat) (w : BitStreamWriter) : Prop :=
  w.logicalTotalBits.toNat <
    ((w.logicalUsedBits + strLenPrefixPrefixBits).toNat + 8 * prefixBytes + 8 * strLenBytes) % 2 ^ 64

instance (prefixBytes strLenBytes : Nat) (w : BitStreamWriter) :
    Decidable (w.strOverflow prefixBytes strLenBytes) := Nat.decLt _ _

def writeChars (t : IntType) : List t.Value → BitStreamWriter → Except Fault BitStreamWriter
  | [], w => .ok w
  | ch :: str, w => doWriteFull e false t ch w >>= writeChars t str

/-- One branch of `write(std::basic_string_view)` and the loop after it: `kind` is the
prefix of the length prefix, `lenType` the type the length is cast to. -/
def writeStringAs (kind : IntType.uint32.Value) (lenType : IntType) (c : CharType)
    (str : List c.Value) (w : BitStreamWriter) : Except Fault BitStreamWriter :=
  if w.strOverflow (lenType.bits / 8) (str.length * c.size) then .ok { w with fail := true }
  else do
    let w ← doWrite e false .uint32 kind minStrLenPrefixPrefix maxStrLenPrefixPrefix w
    let w ← doWriteFull e false lenType (lenType.cast str.length) w
    writeChars e c.intType str w

/-- `write(std::basic_string_view)`, to which the other string overloads forward. -/
def writeString (c : CharType) (str : List c.Value) (w : BitStreamWriter) :
    Except Fault BitStreamWriter :=
  if w.fail then .ok w
  else if w.finalFlushed then .ok { w with fail := true }
  else if (str.length : Int) ≤ IntType.uint8.highest then
    writeStringAs e ⟨0, by decide⟩ .uint8 c str w
  else if (str.length : Int) ≤ IntType.uint16.highest then
    writeStringAs e ⟨1, by decide⟩ .uint16 c str w
  else if (str.length : Int) ≤ IntType.uint32.highest then
    writeStringAs e ⟨2, by decide⟩ .uint32 c str w
  else
    writeStringAs e ⟨3, by decide⟩ .uint64 c str w

end
end BitStreamWriter

/-- A call of one of the `write` overloads. -/
inductive WriteCall where
  | int (t : IntType) (data min max : t.Value)
  | float (data : BitVec 32)
  | double (data : BitVec 64)
  | block (data : Nat → IntType.uint8.Value) (size : SizeType)
  | string (c : CharType) (str : List c.Value)

def WriteCall.exec (e : Endian) (call : WriteCall) (w : BitStreamWriter) :
    Except Fault BitStreamWriter :=
  match call with
  | .int t data min max => w.writeInt e t data min max
  | .float data => w.writeFloat e data
  | .double data => w.writeDouble e data
  | .block data size => w.writeBlock e data size
  | .string c str => w.writeString e c str

/-- Any operation a program can make on a bound writer. -/
inductive WriterOp where
  | write (call : WriteCall)
  | flushFinal
  | setFail
  | restart

def WriterOp.exec (e : Endian) (op : WriterOp) (w : BitStreamWriter) :
    Except Fault BitStreamWriter :=
  match op with
  | .write call => call.exec e w
  | .flushFinal => w.flushFinal e
  | .setFail => .ok w.setFail
  | .restart => .ok w.restart

namespace BitStreamWriter

def writeAll (e : Endian) (calls : List WriteCall) (w : BitStreamWriter) :
    Except Fault BitStreamWriter :=
  Run.run (WriteCall.exec e) calls w

def runOps (e : Endian) (ops : List WriterOp) (w : BitStreamWriter) :
    Except Fault BitStreamWriter :=
  Run.run (WriterOp.exec e) ops w

end BitStreamWriter
end Nalchi
