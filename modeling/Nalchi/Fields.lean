import Nalchi.Packing

/-! The `do_write` calls a write consists of. The loops over bytes and characters
are runs over such calls, so one induction serves them all. -/
namespace Nalchi

/-- The arguments of a `do_write`, or of a `do_read` with what its destination holds. -/
structure Field where
  t : IntType
  data : t.Value
  min : t.Value
  max : t.Value

namespace Field

/-- With `min` and `max` left at their defaults. -/
def full (t : IntType) (data : t.Value) : Field := ⟨t, data, t.minValue, t.maxValue⟩

def write (e : Endian) (checked : Bool) (f : Field) (w : BitStreamWriter) :
    Except Fault BitStreamWriter :=
  w.doWrite e checked f.t f.data f.min f.max

def InRange (f : Field) : Prop :=
  f.min.val < f.max.val ∧ f.min.val ≤ f.data.val ∧ f.data.val ≤ f.max.val

def encode (f : Field) : List Bool := fieldBits f.data.val f.min.val f.max.val

theorem inRange_full {t : IntType} (data : t.Value) : (full t data).InRange := by
  refine ⟨?_, data.property⟩
  change t.lowest < t.highest
  cases t with
  | bool => decide
  | unsigned w => cases w <;> decide
  | signed w => cases w <;> decide

theorem length_encode (f : Field) (h : f.InRange) :
    f.encode.length = f.t.rangeBits f.min f.max := by
  rw [encode, length_fieldBits, f.t.rangeBits_eq f.min f.max h.1.le]

end Field

/-- The type the length of a string is written in, by the prefix of its prefix. -/
def lengthClass : Nat → Width
  | 0 => .w8
  | 1 => .w16
  | 2 => .w32
  | _ => .w64

theorem bits_lengthClass (kind : Nat) (h : kind < 4) : (lengthClass kind).bits = lengthWidth kind := by
  interval_cases kind <;> rfl

/-- The two fields in front of the characters of a string. -/
def lengthFields (len : Nat) : List Field :=
  [⟨.uint32, IntType.uint32.cast (lengthKind len), BitStreamWriter.minStrLenPrefixPrefix,
    BitStreamWriter.maxStrLenPrefixPrefix⟩,
    .full (.unsigned (lengthClass (lengthKind len)))
      ((IntType.unsigned (lengthClass (lengthKind len))).cast len)]

/-- The `do_write` calls a write makes if it is not rejected. -/
def WriteCall.fields : WriteCall → List Field
  | .int t data min max => [⟨t, data, min, max⟩]
  | .float data => [.full .uint32 (IntType.uint32.cast data.toNat)]
  | .double data => [.full .uint64 (IntType.uint64.cast data.toNat)]
  | .block data size => (List.range size.toNat).map fun i => .full .uint8 (data i)
  | .string c str => lengthFields str.length ++ str.map fun ch => .full c.intType ch

theorem kind_val (len : Nat) : (IntType.uint32.cast (lengthKind len)).val = lengthKind len := by
  have hk := lengthKind_lt len
  exact IntType.unsigned_cast .w32 _ (by simp only [Width.bits]; omega)

theorem WriteCall.inRange_fields (call : WriteCall) (hv : call.Valid) :
    ∀ f ∈ call.fields, f.InRange := by
  intro f hf
  cases call with
  | int t data min max =>
    rw [fields, List.mem_singleton] at hf
    rw [hf]
    exact hv
  | float data =>
    rw [fields, List.mem_singleton] at hf
    rw [hf]
    exact Field.inRange_full _
  | double data =>
    rw [fields, List.mem_singleton] at hf
    rw [hf]
    exact Field.inRange_full _
  | block data size =>
    obtain ⟨i, -, rfl⟩ := List.mem_map.mp hf
    exact Field.inRange_full _
  | string c str =>
    rw [fields, lengthFields, List.cons_append, List.cons_append, List.nil_append, List.mem_cons,
      List.mem_cons] at hf
    obtain rfl | rfl | hf := hf
    · have hk := lengthKind_lt str.length
      have hlt : BitStreamWriter.minStrLenPrefixPrefix.val <
          BitStreamWriter.maxStrLenPrefixPrefix.val := by decide
      refine ⟨hlt, ?_, ?_⟩
      · change 0 ≤ (IntType.uint32.cast (lengthKind str.length)).val
        rw [kind_val]
        omega
      · change (IntType.uint32.cast (lengthKind str.length)).val ≤ 3
        rw [kind_val]
        omega
    · exact Field.inRange_full _
    · obtain ⟨ch, -, rfl⟩ := List.mem_map.mp hf
      exact Field.inRange_full _

/-- A numeral over the whole range of an unsigned type. -/
theorem fullBits_cast (w : Width) (n : Nat) (h : n < 2 ^ w.bits) :
    fullBits (.unsigned w) ((IntType.unsigned w).cast n) = Bits.ofNat w.bits n := by
  have hc := IntType.unsigned_cast w n h
  have hw := fullWidth_of_ne (.unsigned w) (by simp)
  rw [fullWidth, IntType.bits] at hw
  rw [fullBits, fieldBits, hw, hc]
  simp [IntType.lowest]

theorem encode_lengthFields (len : Nat) (h : len < 2 ^ 64) :
    (lengthFields len).flatMap Field.encode = lengthBits len := by
  have hk := lengthKind_lt len
  have hw := bits_lengthClass (lengthKind len) hk
  have hlen := lt_lengthWidth len h
  rw [← hw] at hlen
  have hkind : fieldBits (IntType.uint32.cast (lengthKind len)).val
      BitStreamWriter.minStrLenPrefixPrefix.val BitStreamWriter.maxStrLenPrefixPrefix.val =
        Bits.ofNat 2 (lengthKind len) := by
    rw [kind_val]
    simp only [fieldBits, BitStreamWriter.minStrLenPrefixPrefix,
      BitStreamWriter.maxStrLenPrefixPrefix, sub_zero]
    rfl
  rw [lengthBits, ← hw, ← fullBits_cast _ _ hlen, ← hkind, lengthFields, List.flatMap_cons,
    List.flatMap_cons, List.flatMap_nil, List.append_nil]
  rfl

/-- Field by field the format comes out the same. -/
theorem WriteCall.encode_fields (call : WriteCall) (h : call.cost < 2 ^ 64) :
    call.fields.flatMap Field.encode = call.encode := by
  cases call with
  | int t data min max => simp only [fields, List.flatMap_cons, List.flatMap_nil, List.append_nil]; rfl
  | float data =>
    rw [fields, List.flatMap_cons, List.flatMap_nil, List.append_nil]
    exact fullBits_cast .w32 _ data.isLt
  | double data =>
    rw [fields, List.flatMap_cons, List.flatMap_nil, List.append_nil]
    exact fullBits_cast .w64 _ data.isLt
  | block data size =>
    rw [fields, List.flatMap_map]
    rfl
  | string c str =>
    have hs := c.intType_spec.2.2.1
    have hlen : str.length ≤ str.length * c.size := Nat.le_mul_of_pos_right _ hs
    rw [WriteCall.cost] at h
    rw [fields, List.flatMap_append, encode_lengthFields _ (by omega), List.flatMap_map]
    rfl

namespace BitStreamWriter
variable {e : Endian}

/-- Fields that fit are packed one behind the other, by induction on the fields left. -/
theorem writeFields_spec (fs : List Field) (w : BitStreamWriter) (h : w.Packed)
    (hv : ∀ f ∈ fs, f.InRange)
    (hfit : w.logicalUsedBits.toNat + (fs.flatMap Field.encode).length ≤
      w.logicalTotalBits.toNat) :
    ∃ w', Run.run (Field.write e false) fs w = .ok w' ∧
      Appended e w w' (fs.flatMap Field.encode) := by
  induction fs generalizing w with
  | nil => exact ⟨w, rfl, Appended.refl h⟩
  | cons f fs ih =>
    have hf := hv f (by simp)
    rw [List.flatMap_cons, List.length_append] at hfit
    obtain ⟨w₁, hw₁, ha₁⟩ := doWrite_unchecked (e := e) w h f.t f.data f.min f.max hf.2.1 hf.2.2
      (by rw [← f.length_encode hf]; omega)
    have hu : w₁.logicalUsedBits.toNat = w.logicalUsedBits.toNat + f.encode.length := ha₁.used h
    obtain ⟨w₂, hw₂, ha₂⟩ := ih w₁ ha₁.packed (fun g hg => hv g (by simp [hg]))
      (by rw [hu, ha₁.toExtends.total]; omega)
    refine ⟨w₂, ?_, ha₁.trans ha₂⟩
    rw [Run.run, Field.write, hw₁, Run.bind_ok, hw₂]

/-- What holds of a field that fits a packed stream holds of each of them in its turn. -/
theorem along_fields {P : Field → BitStreamWriter → Prop}
    (hP : ∀ f w, w.Packed → f.InRange → w.fail = false → w.finalFlushed = false →
      w.logicalUsedBits.toNat + f.t.rangeBits f.min f.max ≤ w.logicalTotalBits.toNat → P f w)
    (fs : List Field) (w : BitStreamWriter) (h : w.Packed) (hf : w.fail = false)
    (hfl : w.finalFlushed = false) (hv : ∀ f ∈ fs, f.InRange)
    (hfit : w.logicalUsedBits.toNat + (fs.flatMap Field.encode).length ≤
      w.logicalTotalBits.toNat) : Run.Along (Field.write e false) P fs w := by
  induction fs generalizing w with
  | nil => trivial
  | cons f fs ih =>
    have hr := hv f (by simp)
    have hlen := f.length_encode hr
    rw [List.flatMap_cons, List.length_append] at hfit
    refine ⟨hP f w h hr hf hfl (by omega), fun w₁ hw₁ => ?_⟩
    obtain ⟨w₁', hw₁', ha⟩ := doWrite_unchecked (e := e) w h f.t f.data f.min f.max hr.2.1 hr.2.2
      (by omega)
    obtain rfl := Run.ok_unique hw₁' hw₁
    have hu : w₁'.logicalUsedBits.toNat = w.logicalUsedBits.toNat + f.encode.length := ha.used h
    exact ih w₁' ha.packed (ha.toExtends.fail.trans hf) (ha.toExtends.finalFlushed.trans hfl)
      (fun g hg => hv g (by simp [hg])) (by rw [hu, ha.toExtends.total]; omega)

end BitStreamWriter
end Nalchi
