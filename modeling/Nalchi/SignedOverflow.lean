import Nalchi.RangeSoundness

/-! The sum by which `do_read` returns to the original range, in the type C++ makes
it in: where it leaves that type the execution is undefined. -/
namespace Nalchi

/-- Integral promotion of both operands of a sum of two `T`. -/
def IntType.promote : IntType → IntType
  | .unsigned .w32 => .unsigned .w32
  | .unsigned .w64 => .unsigned .w64
  | .signed .w64 => .signed .w64
  | _ => .signed .w32

/-- `((T)value) + min` before it is made to fit any type. -/
def IntType.sum (t : IntType) (value : BitVec t.bits) (min : t.Value) : Int :=
  (t.cast value.toNat).val + min.val

/-- The sum is defined: unsigned ones always are, a signed one must not overflow. -/
def IntType.SumDefined (t : IntType) (value : BitVec t.bits) (min : t.Value) : Prop :=
  match t.promote with
  | .signed w => (IntType.signed w).lowest ≤ t.sum value min ∧
      t.sum value min ≤ (IntType.signed w).highest
  | _ => True

/-- The types whose sums are made in the type itself, and signed. -/
def IntType.isWideSigned : IntType → Bool
  | .signed .w32 | .signed .w64 => true
  | _ => false

section
variable (t : IntType)

/-- What is delivered is this sum made to fit the type. -/
theorem IntType.restore_eq_cast_sum (value : BitVec t.bits) (min : t.Value) :
    t.restore value min = t.cast (t.sum value min) := rfl

/-- Two values of a type that is promoted to a wider one have their sum in that. -/
theorem IntType.sumDefined_of_not_wideSigned (ht : t.isWideSigned = false)
    (value : BitVec t.bits) (min : t.Value) : t.SumDefined value min := by
  have hv := (t.cast value.toNat).property
  have hm := min.property
  rw [SumDefined, sum]
  cases t with
  | bool =>
    simp only [promote, lowest, highest, Width.bits] at *
    omega
  | unsigned w =>
    cases w with
    | w8 => simp only [promote, lowest, highest, Width.bits] at *; omega
    | w16 => simp only [promote, lowest, highest, Width.bits] at *; omega
    | w32 => trivial
    | w64 => trivial
  | signed w =>
    cases w with
    | w8 => simp only [promote, lowest, highest, Width.bits] at *; omega
    | w16 => simp only [promote, lowest, highest, Width.bits] at *; omega
    | w32 => cases ht
    | w64 => cases ht

/-- In the two wide types the raw field counts as negative from its top bit on. -/
theorem IntType.sumDefined_of_wideSigned (ht : t.isWideSigned = true) (value : BitVec t.bits)
    (min : t.Value) : t.SumDefined value min ↔
      (value.toNat < 2 ^ (t.bits - 1) ↔ min.val + value.toNat ≤ t.highest) := by
  have hv := value.isLt
  have hm := min.property
  rw [SumDefined, sum]
  cases t with
  | bool => cases ht
  | unsigned w => cases ht
  | signed w =>
    cases w with
    | w8 => cases ht
    | w16 => cases ht
    | w32 =>
      simp only [promote, cast, wrap, lowest, highest, bits, Width.bits, Int.bmod] at *
      split_ifs <;> omega
    | w64 =>
      simp only [promote, cast, wrap, lowest, highest, bits, Width.bits, Int.bmod] at *
      split_ifs <;> omega

theorem IntType.highest_of_wideSigned (ht : t.isWideSigned = true) :
    t.highest = 2 ^ (t.bits - 1) - 1 := by
  cases t with
  | bool => cases ht
  | unsigned w => cases ht
  | signed w => rfl

theorem IntType.two_pow_bits : 2 ^ t.bits = 2 * 2 ^ (t.bits - 1) := by
  have hpos : 0 < t.bits := by
    cases t with
    | bool => decide
    | unsigned w => cases w <;> decide
    | signed w => cases w <;> decide
  rw [← pow_succ', Nat.sub_add_cancel hpos]

/-- The same for a raw field given as a number. -/
theorem IntType.sumDefined_ofNat (ht : t.isWideSigned = true) (n : Nat) (hn : n < 2 ^ t.bits)
    (min : t.Value) : t.SumDefined (BitVec.ofNat t.bits n) min ↔
      (n < 2 ^ (t.bits - 1) ↔ min.val + n ≤ t.highest) := by
  have hv : (BitVec.ofNat t.bits n).toNat = n := by
    rw [BitVec.toNat_ofNat]
    exact Nat.mod_eq_of_lt hn
  rw [t.sumDefined_of_wideSigned ht, hv]

/-- A range whose width has the top bit reaches half way at least. -/
theorem IntType.half_le_offset (min max : t.Value) (hbits : t.rangeBits min max = t.bits) :
    2 ^ (t.bits - 1) ≤ (t.offset max min).toNat := by
  by_contra hsmall
  have hle : t.rangeBits min max ≤ t.bits - 1 := bitWidth_le (by omega)
  have hpow := t.two_pow_bits
  have hzero : t.bits = 0 := by omega
  rw [hzero] at hpow
  omega

/-- The ranges over which no raw field makes the sum overflow. -/
theorem IntType.sumDefined_all_iff (min max : t.Value) (hlt : min.val < max.val) :
    (∀ value : BitVec t.bits, value.toNat < 2 ^ t.rangeBits min max → t.SumDefined value min) ↔
      (t.isWideSigned = true →
        t.rangeBits min max < t.bits ∧ min.val + 2 ^ t.rangeBits min max ≤ 2 ^ (t.bits - 1)) := by
  by_cases ht : t.isWideSigned = true
  · have hbits := t.rangeBits_le min max
    have hhigh := t.highest_of_wideSigned ht
    have hmax := max.property
    have hoff := t.toNat_offset max min hlt.le
    have hhalf := t.half_le_offset min max
    have hsucc := t.two_pow_bits
    have hcast : ((2 ^ t.rangeBits min max : Nat) : Int) = 2 ^ t.rangeBits min max := by push_cast; rfl
    have hcast' : ((2 ^ (t.bits - 1) : Nat) : Int) = 2 ^ (t.bits - 1) := by push_cast; rfl
    rw [← hcast'] at hhigh
    rw [← hcast, ← hcast']
    generalize t.rangeBits min max = n at hbits hhalf ⊢
    have hn0 := Nat.two_pow_pos n
    constructor
    · intro h _
      -- The fields that overflow first: the top bit alone, or all bits of a narrower field.
      have hsum (m : Nat) (hm : m < 2 ^ n) (hm' : m < 2 ^ t.bits) :
          m < 2 ^ (t.bits - 1) ↔ min.val + m ≤ t.highest := by
        refine (t.sumDefined_ofNat ht m hm' min).mp (h _ ?_)
        rwa [BitVec.toNat_ofNat, Nat.mod_eq_of_lt hm']
      have hnarrow : n < t.bits := by
        by_contra hwide
        obtain rfl : n = t.bits := by omega
        have hle := hhalf rfl
        have htop := hsum (2 ^ (t.bits - 1)) (by omega) (by omega)
        omega
      have hle := Nat.pow_le_pow_right Nat.two_pos (Nat.le_sub_one_of_lt hnarrow)
      have hall := hsum (2 ^ n - 1) (by omega) (by omega)
      exact ⟨hnarrow, by omega⟩
    · intro h value hv
      obtain ⟨hnarrow, hroom⟩ := h ht
      have hle := Nat.pow_le_pow_right Nat.two_pos (Nat.le_sub_one_of_lt hnarrow)
      rw [t.sumDefined_of_wideSigned ht]
      omega
  · have ht' : t.isWideSigned = false := by simpa using ht
    exact iff_of_true (fun value _ => t.sumDefined_of_not_wideSigned ht' value min)
      (fun h => absurd h ht)

end

namespace BitStreamReader
variable {e : Endian}

/-- Whatever the scratch holds, a take masks its value to the bits taken. -/
theorem takeScratch_lt (n : Nat) (hn : n ≤ 32) :
    Run.Keeps (fun _ p => p.2.toNat < 2 ^ n) (takeScratch e n) := by
  intro r p h
  obtain ⟨r₁, -, h⟩ := Run.bind_eq_ok.mp h
  rw [← Except.ok.inj h]
  dsimp only
  rw [toNat_mask _ n (by omega)]
  exact Nat.mod_lt _ (Nat.two_pow_pos n)

theorem takeValue_lt (t : IntType) (n : Nat) (hn : n ≤ t.bits) :
    Run.Keeps (fun _ p => p.2.toNat < 2 ^ n) (takeValue e t n) := by
  intro r p h
  have h64 := t.bits_le
  rw [takeValue] at h
  split_ifs at h with hbig
  · obtain ⟨⟨r₁, low⟩, hr₁, h⟩ := Run.bind_eq_ok.mp h
    have hlow := takeScratch_lt (min n 32) (by omega) hr₁
    dsimp only at h hlow
    split_ifs at h with hhigh
    · obtain ⟨⟨r₂, high⟩, hr₂, h⟩ := Run.bind_eq_ok.mp h
      have hhi := takeScratch_lt (n - min n 32) (by omega) hr₂
      rw [← Except.ok.inj h]
      dsimp only at hhi ⊢
      have hlt := pack_lt hlow hhi
      rw [toNat_or_shift low high (min n 32) (n - min n 32) (by omega) hlow hhi]
      rwa [Nat.add_sub_cancel' (by omega)] at hlt
    · rw [← Except.ok.inj h]
      have hmin : min n 32 = n := by omega
      rwa [hmin] at hlow
  · simp only [IntType.isBig, decide_eq_true_eq] at hbig
    exact takeScratch_lt n (by omega) h

/-- In whatever state a `do_read` is made, the sum it makes of the raw field is defined
unless the type is signed and wide and the top bit of the field disagrees with where
the value lies; and these are the ranges for which it always is. -/
theorem do_read_sum_defined_iff (e : Endian) (t : IntType) (min max : t.Value)
    (hlt : min.val < max.val) :
    (∀ (r r' : BitStreamReader) (value : ScratchType),
      r.takeValue e t (t.rangeBits min max) = .ok (r', value) →
        value.toNat < 2 ^ t.rangeBits min max ∧
        (t.SumDefined (value.setWidth t.bits) min ↔
          (t.isWideSigned = true →
            (value.toNat < 2 ^ (t.bits - 1) ↔ min.val + value.toNat ≤ t.highest)))) ∧
    ((∀ value : BitVec t.bits, value.toNat < 2 ^ t.rangeBits min max → t.SumDefined value min) ↔
      (t.isWideSigned = true →
        t.rangeBits min max < t.bits ∧ min.val + 2 ^ t.rangeBits min max ≤ 2 ^ (t.bits - 1))) := by
  refine ⟨fun r r' value hr => ?_, t.sumDefined_all_iff min max hlt⟩
  have hbits := t.rangeBits_le min max
  have hv : value.toNat < 2 ^ t.rangeBits min max := takeValue_lt t _ hbits hr
  have hw : (value.setWidth t.bits).toNat = value.toNat := by
    rw [BitVec.toNat_setWidth]
    exact Nat.mod_eq_of_lt (hv.trans_le (Nat.pow_le_pow_right Nat.two_pos hbits))
  refine ⟨hv, ?_⟩
  by_cases ht : t.isWideSigned = true
  · rw [t.sumDefined_of_wideSigned ht, hw]
    exact ⟨fun h _ => h, fun h => h ht⟩
  · exact iff_of_true (t.sumDefined_of_not_wideSigned (by simpa using ht) _ min)
      (fun h => absurd h ht)

/-- The largest field of three bits above 5. -/
theorem do_read_sum_defined_small : (IntType.signed .w32).SumDefined 7 ⟨5, by decide⟩ :=
  (do_read_sum_defined_iff .little (.signed .w32) ⟨5, by decide⟩ ⟨12, by decide⟩
    (by decide)).2.mpr (fun _ => by decide) 7 (by decide)

/-- 0 read with the default range: the raw field is `2 ^ 31`, so `INT_MIN + INT_MIN`. -/
theorem default_int32_read_overflows :
    ∃ r' value, ((default : BitStreamReader).resetWith ⟨false, [0x80000000]⟩ 4).takeValue .little
        (.signed .w32) ((IntType.signed .w32).rangeBits (IntType.minValue _) (IntType.maxValue _)) =
          .ok (r', value) ∧
      ¬ (IntType.signed .w32).SumDefined (value.setWidth 32) (IntType.minValue _) ∧
      ((default : BitStreamReader).resetWith ⟨false, [0x80000000]⟩ 4).readInt .little (.signed .w32)
        ⟨7, by decide⟩ (IntType.minValue _) (IntType.maxValue _) =
          .ok (⟨0, [0x80000000], 0, 1, 32, 32, false, false⟩, ⟨0, by decide⟩) :=
  ⟨⟨0, [0x80000000], 0, 1, 32, 0, false, false⟩, 0x80000000, by decide,
    fun h => absurd h.1 (by decide), by decide⟩

end BitStreamReader
end Nalchi
