import Nalchi.ReaderBinding

/-! What a checked integer read lets through: the value is restored modulo the
width of its type and compared with `max` alone. -/
namespace Nalchi.BitStreamReader
variable {e : Endian}

/-- The three ways a read with a valid range can go, given that nothing faults. -/
theorem doRead_cases (r : BitStreamReader) (h : r.Windowed) (hf : r.fail = false) (t : IntType)
    (data min max : t.Value) (hlt : min.val < max.val) {r' : BitStreamReader} {x : t.Value}
    (hr : r.doRead e true t data min max = .ok (r', x)) :
    let bits := t.rangeBits min max
    let conv := t.cast (min.val + (Bits.toNat ((r.ahead e).take bits) : Nat))
    if r.logicalTotalBits < r.logicalUsedBits + BitVec.ofNat 32 bits ∨ max.val < conv.val then
      r'.fail = true ∧ x = data
    else r'.fail = false ∧ x = conv := by
  intro bits conv
  have hno : ¬ max.val ≤ min.val := by omega
  simp only [doRead, hf, hno, Bool.false_eq_true, and_false, if_false, true_and] at hr
  by_cases hlack : r.logicalTotalBits < r.logicalUsedBits + BitVec.ofNat 32 bits
  · rw [if_pos hlack] at hr
    obtain ⟨rfl, rfl⟩ := Prod.mk.inj (Except.ok.inj hr)
    rw [if_pos (.inl hlack)]
    exact ⟨rfl, rfl⟩
  · rw [if_neg hlack] at hr
    obtain ⟨⟨r₁, v⟩, hr₁, hr⟩ := Run.bind_eq_ok.mp hr
    obtain ⟨-, hv, ht⟩ := takeValue_of_ok h (t.rangeBits_le min max) hr₁
    have hconv : t.restore (v.setWidth t.bits) min = conv :=
      restore_take t bits (t.rangeBits_le min max) _ v hv min
    dsimp only at hr
    rw [hconv] at hr
    by_cases hmax : max.val < conv.val
    · rw [if_pos hmax] at hr
      obtain ⟨rfl, rfl⟩ := Prod.mk.inj (Except.ok.inj hr)
      rw [if_pos (.inr hmax)]
      exact ⟨rfl, rfl⟩
    · rw [if_neg hmax] at hr
      obtain ⟨rfl, rfl⟩ := Prod.mk.inj (Except.ok.inj hr)
      rw [if_neg (by tauto)]
      exact ⟨ht.fail.trans hf, rfl⟩

/-- Past the end of the type the restored value comes out below the range. -/
theorem cast_below (t : IntType) (min max : t.Value) (hlt : min.val < max.val) (raw : Nat)
    (hraw : raw < 2 ^ t.rangeBits min max) (h : t.highest < min.val + raw)
    (hover : max.val - min.val < raw) : (t.cast (min.val + raw)).val < min.val := by
  have hbits := Nat.pow_le_pow_right Nat.two_pos (t.rangeBits_le min max)
  have hmin := min.property
  have hmax := max.property
  have ht : t ≠ .bool := by
    rintro rfl
    have h1 : IntType.bool.rangeBits min max ≤ 1 := by
      rw [IntType.rangeBits_eq _ _ _ hlt.le]
      simp only [IntType.lowest, IntType.highest] at hmin hmax
      exact bitWidth_le (by omega)
    have h2 := Nat.pow_le_pow_right Nat.two_pos h1
    simp only [IntType.lowest, IntType.highest] at hmin hmax
    omega
  have hraw' : (raw : Int) < 2 ^ t.bits := by exact_mod_cast hraw.trans_le hbits
  have hw : (t.cast (min.val + raw)).val = min.val + raw - 2 ^ t.bits :=
    t.wrap_of_gt _ ht h (by omega)
  rw [hw]
  omega

/-- Over any reachable state, a read keeps to its range exactly when the call is
rejected for lack of data, the raw field is within the range, or restoring it
does not leave the type. -/
theorem readInt_range_sound_iff (e : Endian) (r₀ : BitStreamReader) (span : WordSpan)
    (L : SizeType) (ops : List ReaderOp) (r : BitStreamReader)
    (hops : runOps e ops (r₀.resetWith span L) = .ok r) (hf : r.fail = false) (t : IntType)
    (data min max : t.Value) (hlt : min.val < max.val) (r' : BitStreamReader) (x : t.Value)
    (hr : r.readInt e t data min max = .ok (r', x)) :
    let raw : Nat := Bits.toNat ((r.ahead e).take (t.rangeBits min max))
    ((r'.fail = false → min.val ≤ x.val ∧ x.val ≤ max.val ∧ x.val - min.val = raw) ∧
      (max.val - min.val < raw → r'.fail = true ∧ x = data)) ↔
    r.logicalTotalBits < r.logicalUsedBits + BitVec.ofNat 32 (t.rangeBits min max) ∨
      (raw : Int) ≤ max.val - min.val ∨ min.val + raw ≤ t.highest := by
  intro raw
  have hw := (runOps_follows ops hops (Windowed.restart _)).1
  have hcases : if r.logicalTotalBits < r.logicalUsedBits + BitVec.ofNat 32 (t.rangeBits min max) ∨
        max.val < (t.cast (min.val + raw)).val then r'.fail = true ∧ x = data
      else r'.fail = false ∧ x = t.cast (min.val + raw) :=
    doRead_cases r hw hf t data min max hlt hr
  have hraw : raw < 2 ^ t.rangeBits min max := toNat_take_lt _ _
  clear_value raw
  have hmin := min.property
  have hmax := max.property
  by_cases hlack : r.logicalTotalBits < r.logicalUsedBits + BitVec.ofNat 32 (t.rangeBits min max)
  · rw [if_pos (.inl hlack)] at hcases
    exact iff_of_true ⟨fun h => by simp [hcases.1] at h, fun _ => hcases⟩ (.inl hlack)
  by_cases hin : min.val + raw ≤ t.highest
  · have hconv : (t.cast (min.val + raw)).val = min.val + raw :=
      t.wrap_of_mem _ (by omega) hin
    refine iff_of_true ?_ (.inr (.inr hin))
    by_cases hle : (raw : Int) ≤ max.val - min.val
    · rw [if_neg (by rw [hconv]; rintro (h | h); exacts [hlack h, by omega])] at hcases
      refine ⟨fun _ => ?_, fun h => absurd h (by omega)⟩
      rw [hcases.2, hconv]
      omega
    · rw [if_pos (.inr (by rw [hconv]; omega))] at hcases
      exact ⟨fun h => by simp [hcases.1] at h, fun _ => hcases⟩
  · have hover : max.val - min.val < raw := by omega
    have hbelow := cast_below t min max hlt raw hraw (by omega) hover
    rw [if_neg (by rintro (h | h); exacts [hlack h, by omega])] at hcases
    refine iff_of_false (fun h => ?_) (by rintro (h | h | h); exacts [hlack h, by omega, hin h])
    simp [hcases.1] at h
    omega

theorem readInt_in_range :
    ∃ r' x, ((default : BitStreamReader).resetWith ⟨false, [0x64]⟩ 4).readInt .little .uint8
        ⟨0, by decide⟩ ⟨10, by decide⟩ ⟨200, by decide⟩ = .ok (r', x) ∧
      r'.fail = false ∧ 10 ≤ x.val ∧ x.val ≤ 200 ∧ x.val - 10 = (100 : Nat) := by
  have hread : ((default : BitStreamReader).resetWith ⟨false, [0x64]⟩ 4).readInt .little .uint8
      ⟨0, by decide⟩ ⟨10, by decide⟩ ⟨200, by decide⟩ =
        .ok (⟨0, [0x64], 24, 1, 32, 8, false, false⟩, ⟨110, by decide⟩) := by decide
  have hiff := readInt_range_sound_iff .little default ⟨false, [0x64]⟩ 4 [] _ rfl (by decide) .uint8
    ⟨0, by decide⟩ ⟨10, by decide⟩ ⟨200, by decide⟩ (by decide) _ _ hread
  exact ⟨_, _, hread, rfl, (hiff.mpr (.inr (.inl (by decide)))).1 rfl⟩

/-- `1 + 255` is 0 in a byte, which is not above the maximum. -/
theorem readInt_below_min :
    ∃ r' x, ((default : BitStreamReader).resetWith ⟨false, [0xff]⟩ 4).readInt .little .uint8
        ⟨7, by decide⟩ ⟨1, by decide⟩ ⟨255, by decide⟩ = .ok (r', x) ∧
      r'.fail = false ∧ x.val < 1 :=
  ⟨⟨0, [0xff], 24, 1, 32, 8, false, false⟩, ⟨0, by decide⟩, by decide, rfl, by decide⟩

end Nalchi.BitStreamReader
