import Nalchi.Writer

/-! `bit_stream_reader`. A variable the caller passes by reference, or memory it
passes by pointer, is an argument and comes back as part of the result. -/
namespace Nalchi

structure BitStreamReader where
  scratch : ScratchType
  words : List WordType
  scratchBits : Int
  wordsIndex : Int
  logicalTotalBits : SizeType
  logicalUsedBits : SizeType
  initFail : Bool
  fail : Bool
deriving DecidableEq, Repr

namespace BitStreamReader

def setFail (r : BitStreamReader) : BitStreamReader := { r with fail := true }

def totalBytes (r : BitStreamReader) : SizeType := r.logicalTotalBits / 8
def totalBits (r : BitStreamReader) : SizeType := r.logicalTotalBits
def usedBits (r : BitStreamReader) : SizeType := r.logicalUsedBits
def usedBytes (r : BitStreamReader) : SizeType :=
  (ceilToMultipleOf 8 r.usedBits.toNat).setWidth 32 / 8
def unusedBytes (r : BitStreamReader) : SizeType := r.totalBytes - r.usedBytes
def unusedBits (r : BitStreamReader) : SizeType := r.totalBits - r.usedBits

def restart (r : BitStreamReader) : BitStreamReader :=
  { r with
    scratch := 0
    scratchBits := 0
    wordsIndex := 0
    logicalUsedBits := 0
    fail := r.initFail }

def reset (r : BitStreamReader) : BitStreamReader :=
  restart { r with words := [], logicalTotalBits := 0, initFail := true }

/-- `bit_stream_reader()`. -/
instance : Inhabited BitStreamReader := ⟨reset ⟨0, [], 0, 0, 0, 0, true, true⟩⟩

/-- `reset_with(std::span<const word_type>, size_type)`. The constructors call it on
uninitialised members, all of which it sets. -/
def resetWith (r : BitStreamReader) (buffer : WordSpan) (logicalBytesLength : SizeType) :
    BitStreamReader :=
  restart { r with
    words := buffer.words
    logicalTotalBits := 8 * logicalBytesLength
    initFail := buffer.isNull || buffer.words.length == 0 ||
      decide (buffer.sizeBytes < logicalBytesLength.toNat) }

section
variable (e : Endian)

def doFetchWordUnchecked (r : BitStreamReader) : Except Fault BitStreamReader := do
  let word ← loadWord r.words r.wordsIndex
  let shifted ← shiftScratch ((e.swap word).setWidth 64) r.scratchBits
  return { r with
    wordsIndex := r.wordsIndex + 1
    scratch := r.scratch ||| shifted
    scratchBits := r.scratchBits + 32 }

/-- Load more bits to the scratch if needed. -/
def fetchIfShort (bits : Nat) (r : BitStreamReader) : Except Fault BitStreamReader :=
  if r.scratchBits < bits then doFetchWordUnchecked e r else .ok r

/-- Fetch, mask the low bits off and drop them: the lines both `do_read` templates
share, once in the small one and for each half in the big one. -/
def takeScratch (bits : Nat) (r : BitStreamReader) : Except Fault (BitStreamReader × ScratchType) := do
  let r ← fetchIfShort e bits r
  let value := r.scratch &&& (((1 : ScratchType) <<< bits) - 1)
  return ({ r with
    scratch := r.scratch >>> bits
    scratchBits := r.scratchBits - bits }, value)

/-- The two halves of the `BInt` template. -/
def takeHalves (bits : Nat) (r : BitStreamReader) : Except Fault (BitStreamReader × ScratchType) := do
  let lowBits := min bits 32
  let (r, low) ← takeScratch e lowBits r
  let highBits := bits - lowBits
  if 0 < highBits then
    let (r, high) ← takeScratch e highBits r
    return (r, low ||| (high <<< lowBits))
  else return (r, low)

/-- What differs between the two `do_read` templates. -/
def takeValue (t : IntType) (bits : Nat) (r : BitStreamReader) :
    Except Fault (BitStreamReader × ScratchType) :=
  if t.isBig then takeHalves e bits r else takeScratch e bits r

/-- `do_read<Checked>` for either size of type. -/
def doRead (checked : Bool) (t : IntType) (data min max : t.Value) (r : BitStreamReader) :
    Except Fault (BitStreamReader × t.Value) :=
  if checked ∧ r.fail then .ok (r, data)
  else if checked ∧ max.val ≤ min.val then .ok ({ r with fail := true }, data)
  else
    let bits := t.rangeBits min max
    if checked ∧ r.logicalTotalBits < r.logicalUsedBits + BitVec.ofNat 32 bits then
      .ok ({ r with fail := true }, data)
    else do
      let (r, value) ← takeValue e t bits r
      let conv := t.restore (value.setWidth t.bits) min
      if checked ∧ max.val < conv.val then return ({ r with fail := true }, data)
      else return ({ r with logicalUsedBits := r.logicalUsedBits + BitVec.ofNat 32 bits }, conv)

/-- A call of `do_read` with `min` and `max` left at their defaults. -/
def doReadFull (checked : Bool) (t : IntType) (data : t.Value) (r : BitStreamReader) :
    Except Fault (BitStreamReader × t.Value) :=
  doRead e checked t data t.minValue t.maxValue r

def readInt (t : IntType) (data min max : t.Value) (r : BitStreamReader) :
    Except Fault (BitStreamReader × t.Value) :=
  doRead e true t data min max r

/-- Read into the elements `i .. i + n - 1` of memory. -/
def readArray (t : IntType) :
    Nat → Nat → (Nat → t.Value) → BitStreamReader → Except Fault (BitStreamReader × (Nat → t.Value))
  | _, 0, data, r => .ok (r, data)
  | i, n + 1, data, r => do
    let (r, x) ← doReadFull e false t (data i) r
    readArray t (i + 1) n (Function.update data i x) r

/-- `read(void*, size_type)`; `data` is the memory at the pointer. -/
def readBlock (data : Nat → IntType.uint8.Value) (size : SizeType) (r : BitStreamReader) :
    Except Fault (BitStreamReader × (Nat → IntType.uint8.Value)) :=
  if r.fail then .ok (r, data)
  else if r.logicalTotalBits < r.logicalUsedBits + 8 * size then .ok ({ r with fail := true }, data)
  else readArray e .uint8 0 size.toNat data r

/-- `read(float&)` on the bits of the float. -/
def readFloat (data : BitVec 32) (r : BitStreamReader) :
    Except Fault (BitStreamReader × BitVec 32) := do
  let (r, raw) ← readInt e .uint32 (IntType.uint32.cast 0) IntType.uint32.minValue
    IntType.uint32.maxValue r
  if r.fail then return (r, data)
  else return (r, IntType.uint32.toUInt raw)

/-- `read(double&)` on the bits of the double. -/
def readDouble (data : BitVec 64) (r : BitStreamReader) :
    Except Fault (BitStreamReader × BitVec 64) := do
  let (r, raw) ← readInt e .uint64 (IntType.uint64.cast 0) IntType.uint64.minValue
    IntType.uint64.maxValue r
  if r.fail then return (r, data)
  else return (r, IntType.uint64.toUInt raw)

/-- `static_cast<ssize_type>`. -/
def castSsize (x : Int) : Int := (IntType.signed .w32).wrap x

/-- One case of the switch in `read_string_length`. -/
def readLengthAs (lenType : IntType) (r : BitStreamReader) : Except Fault (BitStreamReader × Int) := do
  let (r, len) ← doReadFull e true lenType (lenType.cast 0) r
  if r.fail then return (r, -1)
  else return (r, castSsize len.val)

def readStringLength (r : BitStreamReader) : Except Fault (BitStreamReader × Int) :=
  if r.fail then .ok (r, -1)
  else do
    let (r, lenOfLen) ← doRead e true .uint32 (IntType.uint32.cast 0)
      BitStreamWriter.minStrLenPrefixPrefix BitStreamWriter.maxStrLenPrefixPrefix r
    if r.fail then return (r, -1)
    else if lenOfLen.val = 0 then readLengthAs e .uint8 r
    else if lenOfLen.val = 1 then readLengthAs e .uint16 r
    else if lenOfLen.val = 2 then readLengthAs e .uint32 r
    else if lenOfLen.val = 3 then readLengthAs e .uint64 r
    else .error .unreachable

def peekStringLength (r : BitStreamReader) : Except Fault (BitStreamReader × Int) := do
  let (r', result) ← readStringLength e r
  return ({ r' with
    scratch := r.scratch
    scratchBits := r.scratchBits
    wordsIndex := r.wordsIndex
    logicalUsedBits := r.logicalUsedBits }, result)

/-- `NALCHI_BIT_STREAM_READER_FAIL_IF_STR_OVERFLOW`, summed in the 64-bit `size_t`. -/
def strOverflow (strLenBytes : Nat) (r : BitStreamReader) : Prop :=
  r.logicalTotalBits.toNat < (r.logicalUsedBits.toNat + 8 * strLenBytes) % 2 ^ 64

instance (strLenBytes : Nat) (r : BitStreamReader) : Decidable (r.strOverflow strLenBytes) :=
  Nat.decLt _ _

/-- The range-for over a resized string. -/
def readChars (t : IntType) :
    List t.Value → BitStreamReader → Except Fault (BitStreamReader × List t.Value)
  | [], r => .ok (r, [])
  | ch :: str, r => do
    let (r, x) ← doReadFull e false t ch r
    let (r, xs) ← readChars t str r
    return (r, x :: xs)

/-- `std::basic_string::resize`. -/
def resize (c : CharType) (str : List c.Value) (n : Nat) : List c.Value :=
  str.take n ++ List.replicate (n - str.length) (c.intType.cast 0)

/-- `read(std::basic_string&, size_type)`. -/
def readString (c : CharType) (str : List c.Value) (maxLength : SizeType) (r : BitStreamReader) :
    Except Fault (BitStreamReader × List c.Value) :=
  if r.fail then .ok (r, str)
  else do
    let (r, len) ← readStringLength e r
    if len < 0 ∨ maxLength.toNat < len.toNat then return ({ r with fail := true }, str)
    else if r.strOverflow (len.toNat * c.size) then return ({ r with fail := true }, str)
    else readChars e c.intType (resize c str len.toNat) r

/-- `read(CharT*, size_type)`; `str` is the memory at the pointer. -/
def readCString (c : CharType) (str : Nat → c.Value) (maxLength : SizeType) (r : BitStreamReader) :
    Except Fault (BitStreamReader × (Nat → c.Value)) :=
  if r.fail then .ok (r, str)
  else do
    let (r, len) ← readStringLength e r
    if len < 0 ∨ maxLength.toNat < len.toNat then return ({ r with fail := true }, str)
    else if r.strOverflow (len.toNat * c.size) then return ({ r with fail := true }, str)
    else do
      let (r, str) ← readArray e c.intType 0 len.toNat str r
      return (r, Function.update str len.toNat (c.intType.cast 0))

end
end BitStreamReader

/-- A call of one of the `read` overloads, with the present content of its destination. -/
inductive ReadCall where
  | int (t : IntType) (data min max : t.Value)
  | float (data : BitVec 32)
  | double (data : BitVec 64)
  | block (data : Nat → IntType.uint8.Value) (size : SizeType)
  | string (c : CharType) (str : List c.Value) (maxLength : SizeType)
  | cstring (c : CharType) (str : Nat → c.Value) (maxLength : SizeType)

/-- The call is returned with what its destination holds afterwards. -/
def ReadCall.exec (e : Endian) (call : ReadCall) (r : BitStreamReader) :
    Except Fault (BitStreamReader × ReadCall) :=
  match call with
  | .int t data min max => do
    let (r, data) ← r.readInt e t data min max
    return (r, .int t data min max)
  | .float data => do
    let (r, data) ← r.readFloat e data
    return (r, .float data)
  | .double data => do
    let (r, data) ← r.readDouble e data
    return (r, .double data)
  | .block data size => do
    let (r, data) ← r.readBlock e data size
    return (r, .block data size)
  | .string c str maxLength => do
    let (r, str) ← r.readString e c str maxLength
    return (r, .string c str maxLength)
  | .cstring c str maxLength => do
    let (r, str) ← r.readCString e c str maxLength
    return (r, .cstring c str maxLength)

/-- Any operation a program can make on a bound reader. -/
inductive ReaderOp where
  | read (call : ReadCall)
  | peekStringLength
  | setFail
  | restart

def ReaderOp.exec (e : Endian) (op : ReaderOp) (r : BitStreamReader) :
    Except Fault BitStreamReader :=
  match op with
  | .read call => Prod.fst <$> call.exec e r
  | .peekStringLength => Prod.fst <$> r.peekStringLength e
  | .setFail => .ok r.setFail
  | .restart => .ok r.restart

namespace BitStreamReader

/-- Perform reads one after the other, keeping what each delivered. -/
def readAll (e : Endian) : List ReadCall → BitStreamReader → Except Fault (BitStreamReader × List ReadCall)
  | [], r => .ok (r, [])
  | call :: calls, r => do
    let (r, done) ← call.exec e r
    let (r, rest) ← readAll e calls r
    return (r, done :: rest)

def runOps (e : Endian) (ops : List ReaderOp) (r : BitStreamReader) : Except Fault BitStreamReader :=
  Run.run (ReaderOp.exec e) ops r

end BitStreamReader
end Nalchi
