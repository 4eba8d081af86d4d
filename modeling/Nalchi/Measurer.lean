import Nalchi.Writer

/-! `bit_stream_measurer`, which adds up what the writer would use. -/
namespace Nalchi

structure BitStreamMeasurer where
  logicalUsedBits : SizeType := 0
deriving DecidableEq, Repr

namespace BitStreamMeasurer

def usedBits (m : BitStreamMeasurer) : SizeType := m.logicalUsedBits

def usedBytes (m : BitStreamMeasurer) : SizeType :=
  (ceilToMultipleOf 8 m.usedBits.toNat).setWidth 32 / 8

def restart (_ : BitStreamMeasurer) : BitStreamMeasurer := { logicalUsedBits := 0 }

/-- `_logical_used_bits += bits`. -/
def add (m : BitStreamMeasurer) (bits : SizeType) : BitStreamMeasurer :=
  { logicalUsedBits := m.logicalUsedBits + bits }

def writeBlock (size : SizeType) (m : BitStreamMeasurer) : BitStreamMeasurer := m.add (8 * size)

def writeInt (t : IntType) (min max : t.Value) (m : BitStreamMeasurer) : BitStreamMeasurer :=
  m.add (BitVec.ofNat 32 (t.rangeBits min max))

def writeFloat (m : BitStreamMeasurer) : BitStreamMeasurer := m.add (8 * 4)

def writeDouble (m : BitStreamMeasurer) : BitStreamMeasurer := m.add (8 * 8)

def writeString (c : CharType) (len : Nat) (m : BitStreamMeasurer) : BitStreamMeasurer :=
  let m := m.add BitStreamWriter.strLenPrefixPrefixBits
  let m :=
    if (len : Int) ≤ IntType.uint8.highest then m.add (8 * 1)
    else if (len : Int) ≤ IntType.uint16.highest then m.add (8 * 2)
    else if (len : Int) ≤ IntType.uint32.highest then m.add (8 * 4)
    else m.add (8 * 8)
  m.add (BitVec.ofNat 32 (8 * len * c.size % 2 ^ 64))

end BitStreamMeasurer

def WriteCall.measure (call : WriteCall) (m : BitStreamMeasurer) : BitStreamMeasurer :=
  match call with
  | .int t _ min max => m.writeInt t min max
  | .float _ => m.writeFloat
  | .double _ => m.writeDouble
  | .block _ size => m.writeBlock size
  | .string c str => m.writeString c str.length

def BitStreamMeasurer.measureAll (calls : List WriteCall) (m : BitStreamMeasurer) :
    BitStreamMeasurer :=
  calls.foldl (fun m call => call.measure m) m

end Nalchi
