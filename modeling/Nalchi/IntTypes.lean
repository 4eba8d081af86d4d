import Mathlib.Data.Int.Order.Basic
import Mathlib.Tactic.Linarith
import Mathlib.Tactic.Ring
import Mathlib.Tactic.SplitIfs
import Mathlib.Tactic.IntervalCases

/-! The integral types the streams are instantiated with, their values as
bounded integers, and the casts the templates make between them. -/
namespace Nalchi

inductive Width where
  | w8 | w16 | w32 | w64
deriving DecidableEq, Repr

def Width.bits : Width → Nat
  | .w8 => 8
  | .w16 => 16
  | .w32 => 32
  | .w64 => 64

theorem Width.bits_injective : Function.Injective Width.bits := by
  intro v w h
  cases v <;> cases w <;> first | rfl | cases h

/- Every `std::integral` type is one of these: the named character types are
   further names for the 8, 16 and 32-bit ones. -/
inductive IntType where
  | bool
  | unsigned (w : Width)
  | signed (w : Width)
deriving DecidableEq, Repr

abbrev IntType.uint8 : IntType := .unsigned .w8
abbrev IntType.uint16 : IntType := .unsigned .w16
abbrev IntType.uint32 : IntType := .unsigned .w32
abbrev IntType.uint64 : IntType := .unsigned .w64

/-- Width of `make_unsigned_allow_bool_t<T>`. -/
def IntType.bits : IntType → Nat
  | .bool => 8
  | .unsigned w | .signed w => w.bits

/-- `std::numeric_limits<T>::min()`. -/
def IntType.lowest : IntType → Int
  | .bool | .unsigned _ => 0
  | .signed w => -2 ^ (w.bits - 1)

/-- `std::numeric_limits<T>::max()`. -/
def IntType.highest : IntType → Int
  | .bool => 1
  | .unsigned w => 2 ^ w.bits - 1
  | .signed w => 2 ^ (w.bits - 1) - 1

/-- `sizeof(T) > sizeof(word_type)`, the types of the `BInt` templates. -/
def IntType.isBig (t : IntType) : Bool := 32 < t.bits

def IntType.Value (t : IntType) : Type :=
  {x : Int // t.lowest ≤ x ∧ x ≤ t.highest}

instance (t : IntType) : DecidableEq t.Value :=
  inferInstanceAs (DecidableEq {x : Int // t.lowest ≤ x ∧ x ≤ t.highest})

/-- `static_cast<T>` of an integer: nonzero test for `bool`, modular otherwise. -/
def IntType.wrap (t : IntType) (x : Int) : Int :=
  match t with
  | .bool => if x = 0 then 0 else 1
  | .unsigned w => x % 2 ^ w.bits
  | .signed w => x.bmod (2 ^ w.bits)

theorem IntType.wrap_mem (t : IntType) (x : Int) :
    t.lowest ≤ t.wrap x ∧ t.wrap x ≤ t.highest := by
  cases t with
  | bool =>
    simp only [lowest, highest, wrap]
    split_ifs <;> omega
  | unsigned w =>
    cases w <;> simp only [lowest, highest, wrap, Width.bits] <;> omega
  | signed w =>
    cases w <;> simp only [lowest, highest, wrap, Width.bits, Int.bmod] <;> omega

def IntType.cast (t : IntType) (x : Int) : t.Value := ⟨t.wrap x, t.wrap_mem x⟩

theorem IntType.lowest_le_highest (t : IntType) : t.lowest ≤ t.highest :=
  (t.wrap_mem 0).1.trans (t.wrap_mem 0).2

def IntType.minValue (t : IntType) : t.Value := ⟨t.lowest, le_refl _, t.lowest_le_highest⟩

def IntType.maxValue (t : IntType) : t.Value := ⟨t.highest, t.lowest_le_highest, le_refl _⟩

/-- `(UInt)x`. -/
def IntType.toUInt (t : IntType) (x : t.Value) : BitVec t.bits := BitVec.ofInt t.bits x.val

/-- `std::bit_width`. -/
def bitWidth (x : Nat) : Nat := if x = 0 then 0 else x.log2 + 1

/-- `static_cast<UInt>(((UInt)data) - ((UInt)min))`. The subtraction is made in
`int` for the narrow types and modulo the width for the others; the outer cast
reduces both to the same value. -/
def IntType.offset (t : IntType) (data min : t.Value) : BitVec t.bits :=
  t.toUInt data - t.toUInt min

/-- The `bits` both templates compute from the range. -/
def IntType.rangeBits (t : IntType) (min max : t.Value) : Nat :=
  bitWidth (t.offset max min).toNat

/-- The `conv` of the reader, `static_cast<T>(((T)value) + min)`. Where the sum
of a 32 or 64-bit signed type overflows, it takes the two's complement value. -/
def IntType.restore (t : IntType) (value : BitVec t.bits) (min : t.Value) : t.Value :=
  t.cast ((t.cast value.toNat).val + min.val)

/-- `ceil_to_multiple_of<PowerOfTwo>` up to its final cast: the sum and the mask
are taken in the 64-bit `size_t`. -/
def ceilToMultipleOf (powerOfTwo : BitVec 64) (size : Int) : BitVec 64 :=
  (BitVec.ofInt 64 size + (powerOfTwo - 1)) &&& ~~~(powerOfTwo - 1)

/-- The `character` concept. What the implementation chooses about `char` and
`wchar_t` is part of the type: equal types on two hosts are equal choices. -/
inductive CharType where
  | char (isSigned : Bool)
  | wchar (isSigned isWide : Bool)
  | char8 | char16 | char32
deriving DecidableEq, Repr

def CharType.intType : CharType → IntType
  | .char isSigned => if isSigned then .signed .w8 else .unsigned .w8
  | .wchar isSigned isWide =>
    let w := if isWide then Width.w32 else Width.w16
    if isSigned then .signed w else .unsigned w
  | .char8 => .unsigned .w8
  | .char16 => .unsigned .w16
  | .char32 => .unsigned .w32

abbrev CharType.Value (c : CharType) : Type := c.intType.Value

/-- `sizeof(CharT)`. -/
def CharType.size (c : CharType) : Nat := c.intType.bits / 8

/-- A character type is a whole number of bytes, one to four. -/
theorem CharType.intType_spec (c : CharType) :
    c.intType ≠ .bool ∧ c.intType.bits = 8 * c.size ∧ 0 < c.size ∧ c.size ≤ 4 := by
  cases c with
  | char isSigned => cases isSigned <;> decide
  | wchar isSigned isWide => cases isSigned <;> cases isWide <;> decide
  | char8 => decide
  | char16 => decide
  | char32 => decide

theorem lt_two_pow_bitWidth (x : Nat) : x < 2 ^ bitWidth x := by
  unfold bitWidth
  split_ifs with h
  · simp [h]
  · exact Nat.lt_log2_self

theorem bitWidth_le {x n : Nat} (h : x < 2 ^ n) : bitWidth x ≤ n := by
  unfold bitWidth
  split_ifs with hx
  · exact Nat.zero_le n
  · exact (Nat.log2_lt hx).mpr h

theorem bitWidth_two_pow_sub_one (n : Nat) : bitWidth (2 ^ n - 1) = n := by
  cases n with
  | zero => rfl
  | succ n =>
    have hpos := Nat.two_pow_pos n
    have hle : bitWidth (2 ^ (n + 1) - 1) ≤ n + 1 := bitWidth_le (by omega)
    have hge : ¬ bitWidth (2 ^ (n + 1) - 1) ≤ n := by
      intro h
      have h1 := lt_two_pow_bitWidth (2 ^ (n + 1) - 1)
      have h2 := Nat.pow_le_pow_right Nat.two_pos h
      have h3 : 2 ^ (n + 1) = 2 ^ n * 2 := pow_succ 2 n
      omega
    omega

section
variable (t : IntType)

theorem IntType.bits_le : t.bits ≤ 64 := by
  cases t with
  | bool =>
    simp [bits]
  | unsigned w =>
    cases w <;> simp [bits, Width.bits]
  | signed w =>
    cases w <;> simp [bits, Width.bits]

theorem IntType.range_lt : t.highest - t.lowest < 2 ^ t.bits := by
  cases t with
  | bool =>
    simp [bits, lowest, highest]
  | unsigned w =>
    cases w <;> simp [bits, lowest, highest, Width.bits]
  | signed w =>
    cases w <;> simp [bits, lowest, highest, Width.bits]

/-- The unsigned difference is the difference of the values. -/
theorem IntType.toNat_offset (data min : t.Value) (h : min.val ≤ data.val) :
    ((t.offset data min).toNat : Int) = data.val - min.val := by
  have hr := t.range_lt
  have hd := data.property
  have hm := min.property
  have he : t.offset data min = BitVec.ofInt t.bits (data.val - min.val) := by
    rw [offset, toUInt, toUInt, Int.sub_eq_add_neg, BitVec.ofInt_add, BitVec.ofInt_neg,
      BitVec.sub_eq_add_neg]
  rw [he, BitVec.toNat_ofInt, Int.toNat_of_nonneg (Int.emod_nonneg _ (by positivity))]
  exact Int.emod_eq_of_lt (by omega) (by push_cast; omega)

theorem IntType.rangeBits_le (min max : t.Value) : t.rangeBits min max ≤ t.bits :=
  bitWidth_le (t.offset max min).isLt

/-- The range of a type other than `bool` is as wide as the type. -/
theorem IntType.highest_eq (ht : t ≠ .bool) : t.highest = t.lowest + (2 ^ t.bits - 1) := by
  cases t with
  | bool =>
    exact absurd rfl ht
  | unsigned w =>
    cases w <;> simp [bits, lowest, highest, Width.bits]
  | signed w =>
    cases w <;> simp [bits, lowest, highest, Width.bits]

/-- Widening to the scratch type changes no number. -/
theorem IntType.toNat_widen (x : BitVec t.bits) : (x.setWidth 64).toNat = x.toNat := by
  rw [BitVec.toNat_setWidth]
  exact Nat.mod_eq_of_lt (x.isLt.trans_le (Nat.pow_le_pow_right (by omega) t.bits_le))

/-- A value in range has an offset that fits the field. -/
theorem IntType.offset_lt (data min max : t.Value) (h1 : min.val ≤ data.val)
    (h2 : data.val ≤ max.val) : (t.offset data min).toNat < 2 ^ t.rangeBits min max := by
  have hd := t.toNat_offset data min h1
  have hm := t.toNat_offset max min (h1.trans h2)
  exact lt_of_le_of_lt (by omega) (lt_two_pow_bitWidth (t.offset max min).toNat)

theorem IntType.wrap_of_mem (x : Int) (h1 : t.lowest ≤ x) (h2 : x ≤ t.highest) :
    t.wrap x = x := by
  cases t with
  | bool =>
    simp only [wrap, lowest, highest] at *
    split_ifs <;> omega
  | unsigned w =>
    cases w <;> simp only [wrap, lowest, highest, Width.bits] at * <;> omega
  | signed w =>
    cases w <;> simp only [wrap, lowest, highest, Width.bits, Int.bmod] at * <;>
      split_ifs <;> omega

theorem IntType.lowest_nonpos (t : IntType) : t.lowest ≤ 0 := by
  cases t with
  | bool =>
    exact le_refl _
  | unsigned w =>
    exact le_refl _
  | signed w =>
    cases w <;> decide

theorem IntType.cast_natCast (t : IntType) (n : Nat) (h : (n : Int) ≤ t.highest) :
    (t.cast n).val = n :=
  t.wrap_of_mem n (t.lowest_nonpos.trans (Int.natCast_nonneg n)) h

/-- A number that an unsigned type can hold. -/
theorem IntType.unsigned_cast (w : Width) (n : Nat) (h : n < 2 ^ w.bits) :
    ((IntType.unsigned w).cast n).val = n := by
  have h' : (n : Int) < ((2 ^ w.bits : Nat) : Int) := by exact_mod_cast h
  push_cast at h'
  exact (IntType.unsigned w).cast_natCast n (by rw [highest]; omega)

/-- Past the end of the type a sum wraps round once. -/
theorem IntType.wrap_of_gt (x : Int) (ht : t ≠ .bool) (h1 : t.highest < x)
    (h2 : x ≤ t.highest + 2 ^ t.bits) : t.wrap x = x - 2 ^ t.bits := by
  cases t with
  | bool =>
    exact absurd rfl ht
  | unsigned w =>
    cases w <;> simp only [wrap, highest, bits, Width.bits] at * <;> omega
  | signed w =>
    cases w <;> simp only [wrap, highest, bits, Width.bits, Int.bmod] at * <;>
      split_ifs <;> omega

theorem IntType.cast_val (x : t.Value) : t.cast x.val = x :=
  Subtype.ext (t.wrap_of_mem x.val x.property.1 x.property.2)

/-- The two casts of the reader together take `min + value` modulo the width. -/
theorem IntType.restore_eq (value : BitVec t.bits) (min : t.Value) :
    t.restore value min = t.cast (min.val + value.toNat) := by
  have hm := min.property
  apply Subtype.ext
  cases t with
  | bool =>
    simp only [restore, cast, wrap, lowest, highest] at *
    split_ifs <;> omega
  | unsigned w =>
    simp only [restore, cast, wrap]
    rw [Int.emod_add_emod, Int.add_comm]
  | signed w =>
    simp only [restore, cast, wrap]
    rw [Int.bmod_add_bmod, Int.add_comm]

/-- The width of the field as the code computes it and as the range defines it. -/
theorem IntType.rangeBits_eq (min max : t.Value) (h : min.val ≤ max.val) :
    t.rangeBits min max = bitWidth (max.val - min.val).toNat := by
  have ho := t.toNat_offset max min h
  rw [rangeBits, ← ho, Int.toNat_natCast]

theorem IntType.rangeBits_full (ht : t ≠ .bool) :
    t.rangeBits t.minValue t.maxValue = t.bits := by
  have hr : t.maxValue.val - t.minValue.val = ((2 ^ t.bits - 1 : Nat) : Int) := by
    have hp := Nat.two_pow_pos t.bits
    simp only [minValue, maxValue]
    rw [t.highest_eq ht, Nat.cast_sub (by omega)]
    push_cast
    ring
  rw [t.rangeBits_eq _ _ t.lowest_le_highest, hr, Int.toNat_natCast, bitWidth_two_pow_sub_one]

end

/-- Masking the low bits off is rounding down. -/
theorem toNat_and_not_mask (y : BitVec 64) (k : Nat) (hk : k < 64) :
    (y &&& ~~~(BitVec.ofNat 64 (2 ^ k) - 1)).toNat = y.toNat / 2 ^ k * 2 ^ k := by
  have hlt : 2 ^ k < 2 ^ 64 := Nat.pow_lt_pow_right (by omega) hk
  have hm : (BitVec.ofNat 64 (2 ^ k) - 1).toNat = 2 ^ k - 1 := by
    have hpos := Nat.two_pow_pos k
    have h1 : (1 : BitVec 64).toNat = 1 := rfl
    rw [BitVec.toNat_sub, BitVec.toNat_ofNat, Nat.mod_eq_of_lt hlt, h1]
    omega
  have heq : y &&& ~~~(BitVec.ofNat 64 (2 ^ k) - 1) = (y >>> k) <<< k := by
    apply BitVec.eq_of_getLsbD_eq
    intro i hi
    have hbit : (BitVec.ofNat 64 (2 ^ k) - 1).getLsbD i = decide (i < k) := by
      rw [BitVec.getLsbD, hm, Nat.testBit_two_pow_sub_one]
    rw [BitVec.getLsbD_and, BitVec.getLsbD_not, hbit, BitVec.getLsbD_shiftLeft,
      BitVec.getLsbD_ushiftRight]
    by_cases hik : i < k
    · simp [hi, hik]
    · simp [hi, hik, Nat.add_sub_cancel' (Nat.le_of_not_lt hik)]
  have hle : y.toNat / 2 ^ k * 2 ^ k < 2 ^ 64 :=
    lt_of_le_of_lt (Nat.div_mul_le_self _ _) y.isLt
  rw [heq, BitVec.toNat_shiftLeft, BitVec.toNat_ushiftRight, Nat.shiftRight_eq_div_pow,
    Nat.shiftLeft_eq, Nat.mod_eq_of_lt hle]

/-- `ceil_to_multiple_of` rounds up, if the sum stays within `size_t`. -/
theorem toNat_ceilToMultipleOf (k n : Nat) (hk : k < 64) (h : n + (2 ^ k - 1) < 2 ^ 64) :
    (ceilToMultipleOf (BitVec.ofNat 64 (2 ^ k)) n).toNat = (n + (2 ^ k - 1)) / 2 ^ k * 2 ^ k := by
  have hlt : 2 ^ k < 2 ^ 64 := Nat.pow_lt_pow_right (by omega) hk
  have hpos := Nat.two_pow_pos k
  rw [ceilToMultipleOf, toNat_and_not_mask _ _ hk]
  congr 2
  have h1 : (1 : BitVec 64).toNat = 1 := rfl
  rw [BitVec.toNat_add, BitVec.toNat_sub, BitVec.toNat_ofNat, Nat.mod_eq_of_lt hlt, h1,
    BitVec.ofInt_natCast, BitVec.toNat_ofNat]
  omega

/-- The three `used_bytes` functions: bits to bytes, rounding up. -/
theorem toNat_ceil_bytes (bits : BitVec 32) (h : bits.toNat ≤ 2 ^ 32 - 8) :
    ((ceilToMultipleOf 8 bits.toNat).setWidth 32 / 8 : BitVec 32).toNat = (bits.toNat + 7) / 8 := by
  have hc := toNat_ceilToMultipleOf 3 bits.toNat (by omega) (by omega)
  have h8 : (8 : BitVec 32).toNat = 8 := rfl
  rw [BitVec.toNat_udiv, BitVec.toNat_setWidth, h8]
  change (ceilToMultipleOf 8 bits.toNat).toNat = _ at hc
  rw [hc]
  omega

end Nalchi
