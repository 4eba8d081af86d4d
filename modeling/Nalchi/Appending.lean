import Nalchi.Fields

/-! The writer refines "append bits to a list": an accepted call appends exactly
its encoding, a rejected one sets the fail flag and does nothing else. -/
namespace Nalchi
namespace BitStreamWriter
variable {e : Endian}

/-- The checks of `do_write<true>` all pass, so it does what `do_write<false>` does. -/
theorem doWrite_checked (w : BitStreamWriter) (t : IntType) (data min max : t.Value)
    (hf : w.fail = false) (hfl : w.finalFlushed = false) (h : min.val < max.val)
    (h1 : min.val ≤ data.val) (h2 : data.val ≤ max.val)
    (hfit : ¬ w.logicalTotalBits < w.logicalUsedBits + BitVec.ofNat 32 (t.rangeBits min max)) :
    w.doWrite e true t data min max = w.doWrite e false t data min max := by
  have h3 : ¬ max.val ≤ min.val := by omega
  have h4 : ¬ (data.val < min.val ∨ max.val < data.val) := by omega
  simp [doWrite, hf, hfl, h3, h4, hfit]

/-- The branch `write(std::basic_string_view)` takes is the class of the format. -/
theorem writeString_eq (c : CharType) (str : List c.Value) (w : BitStreamWriter)
    (hf : w.fail = false) (hfl : w.finalFlushed = false) :
    ∃ (kind : IntType.uint32.Value) (lenType : Width),
      w.writeString e c str = w.writeStringAs e kind (.unsigned lenType) c str ∧
      kind.val = lengthKind str.length ∧ lenType.bits = lengthWidth (lengthKind str.length) := by
  simp only [writeString, hf, hfl, Bool.false_eq_true, if_false, IntType.highest, Width.bits]
  by_cases h8 : str.length < 2 ^ 8
  · have hk : lengthKind str.length = 0 := if_pos h8
    refine ⟨_, .w8, if_pos (by omega), ?_, ?_⟩ <;> rw [hk] <;> rfl
  by_cases h16 : str.length < 2 ^ 16
  · have hk : lengthKind str.length = 1 := by rw [lengthKind, if_neg h8, if_pos h16]
    refine ⟨_, .w16, (if_neg (by omega)).trans (if_pos (by omega)), ?_, ?_⟩ <;> rw [hk] <;> rfl
  by_cases h32 : str.length < 2 ^ 32
  · have hk : lengthKind str.length = 2 := by
      rw [lengthKind, if_neg h8, if_neg h16, if_pos h32]
    refine ⟨_, .w32, ((if_neg (by omega)).trans (if_neg (by omega))).trans (if_pos (by omega)),
      ?_, ?_⟩ <;> rw [hk] <;> rfl
  · have hk : lengthKind str.length = 3 := by
      rw [lengthKind, if_neg h8, if_neg h16, if_neg h32]
    refine ⟨_, .w64, ((if_neg (by omega)).trans (if_neg (by omega))).trans (if_neg (by omega)),
      ?_, ?_⟩ <;> rw [hk] <;> rfl

/-- The aggregated check sums the encoding's bits, modulo the width of `size_t`. -/
theorem strOverflow_iff (w : BitStreamWriter) (h : w.Packed) (p n : Nat) (hp : p % 8 = 0) :
    w.strOverflow (p / 8) n ↔
      w.logicalTotalBits.toNat < (w.logicalUsedBits.toNat + (2 + p + 8 * n)) % 2 ^ 64 := by
  have h2 : (w.logicalUsedBits + strLenPrefixPrefixBits).toNat = w.logicalUsedBits.toNat + 2 := by
    have hu := h.used_le
    have ht := w.logicalTotalBits.isLt
    have hm := h.total_mod
    have hprefix : strLenPrefixPrefixBits.toNat = 2 := rfl
    rw [BitVec.toNat_add, hprefix]
    omega
  have hsum : w.logicalUsedBits.toNat + 2 + 8 * (p / 8) + 8 * n =
      w.logicalUsedBits.toNat + (2 + p + 8 * n) := by omega
  rw [strOverflow, h2, hsum]

end BitStreamWriter

open BitStreamWriter

/-- The width of the sum the call's capacity check is made in. -/
def WriteCall.sumBits : WriteCall → Nat
  | .string _ _ => 64
  | _ => 32

/-- The call's capacity check is not passed by a sum that wrapped round: if the
check lets the call through, the stream really has room for it. -/
def WriteCall.CheckSound (call : WriteCall) (w : BitStreamWriter) : Prop :=
  w.fail = false → w.finalFlushed = false → call.Valid →
    (w.logicalUsedBits.toNat + call.cost) % 2 ^ call.sumBits ≤ w.logicalTotalBits.toNat →
    w.logicalUsedBits.toNat + call.cost ≤ w.logicalTotalBits.toNat

instance WriteCall.decidableCheckSound (call : WriteCall) (w : BitStreamWriter) :
    Decidable (call.CheckSound w) :=
  inferInstanceAs (Decidable (_ → _ → _ → _ → _))

/-- What it takes for a call to be accepted. -/
def WriteCall.Accepted (call : WriteCall) (w : BitStreamWriter) : Prop :=
  w.fail = false ∧ w.finalFlushed = false ∧ call.Valid ∧
    w.logicalUsedBits.toNat + call.cost ≤ w.logicalTotalBits.toNat

instance (call : WriteCall) (w : BitStreamWriter) : Decidable (call.Accepted w) :=
  inferInstanceAs (Decidable (_ ∧ _ ∧ _ ∧ _))

section
variable {e : Endian}

theorem writeBytesFrom_eq_fields (data : Nat → IntType.uint8.Value) (i n : Nat)
    (w : BitStreamWriter) : w.writeBytesFrom e data i n =
      Run.run (Field.write e false) ((List.range' i n).map fun j => .full .uint8 (data j)) w := by
  induction n generalizing i w with
  | zero => rfl
  | succ n ih =>
    rw [writeBytesFrom, List.range'_succ, List.map_cons, Run.run]
    exact congrArg (_ >>= ·) (funext fun w₁ => ih (i + 1) w₁)

theorem writeChars_eq_fields (t : IntType) (str : List t.Value) (w : BitStreamWriter) :
    w.writeChars e t str = Run.run (Field.write e false) (str.map fun ch => .full t ch) w := by
  induction str generalizing w with
  | nil => rfl
  | cons ch str ih =>
    rw [writeChars, List.map_cons, Run.run]
    exact congrArg (_ >>= ·) (funext fun w₁ => ih w₁)

/-- An accepted call is nothing but its unchecked `do_write` calls. -/
theorem WriteCall.exec_eq_fields (call : WriteCall) (w : BitStreamWriter) (h : w.Packed)
    (ha : call.Accepted w) : call.exec e w = Run.run (Field.write e false) call.fields w := by
  obtain ⟨hf, hfl, hv, hfit⟩ := ha
  have full (t : Width) (x : IntType.Value (.unsigned t))
      (hx : w.logicalUsedBits.toNat + t.bits ≤ w.logicalTotalBits.toNat) :
      w.writeInt e (.unsigned t) x (IntType.unsigned t).minValue (IntType.unsigned t).maxValue =
        Run.run (Field.write e false) [.full (.unsigned t) x] w := by
    have hw := (fullWidth_eq (.unsigned t)).symm.trans (fullWidth_of_ne (.unsigned t) (by simp))
    have hlt : (IntType.unsigned t).minValue.val < (IntType.unsigned t).maxValue.val :=
      (Field.inRange_full x).1
    rw [Run.run_singleton, writeInt, doWrite_checked w _ x _ _ hf hfl hlt x.property.1
      x.property.2 (not_lt_add (by rw [hw]; exact hx))]
    rfl
  cases call with
  | int t data min max =>
    rw [WriteCall.cost, ← t.rangeBits_eq min max hv.1.le] at hfit
    rw [WriteCall.exec, WriteCall.fields, Run.run_singleton, writeInt,
      doWrite_checked w t data min max hf hfl hv.1 hv.2.1 hv.2.2 (not_lt_add hfit)]
    rfl
  | float data => exact full .w32 (IntType.uint32.cast data.toNat) hfit
  | double data => exact full .w64 (IntType.uint64.cast data.toNat) hfit
  | block data size =>
    have hcheck : ¬ w.logicalTotalBits < w.logicalUsedBits + 8 * size := by
      have ht := w.logicalTotalBits.isLt
      rw [WriteCall.cost] at hfit
      rw [lt_add_iff, toNat_eight_mul]
      omega
    simp only [WriteCall.exec, writeBlock, hf, hfl, hcheck, Bool.false_eq_true, if_false]
    rw [writeBytesFrom_eq_fields, WriteCall.fields, List.range_eq_range']
  | string c str =>
    obtain ⟨kind, lenType, heq, hkind, hwidth⟩ := writeString_eq (e := e) c str w hf hfl
    have hk := lengthKind_lt str.length
    have ht := w.logicalTotalBits.isLt
    rw [WriteCall.cost, ← hwidth] at hfit
    have hcheck : ¬ w.strOverflow (lenType.bits / 8) (str.length * c.size) := by
      rw [strOverflow_iff w h _ _ (by cases lenType <;> rfl)]
      omega
    have hkind' : kind = IntType.uint32.cast (lengthKind str.length) :=
      Subtype.ext (hkind.trans (kind_val str.length).symm)
    have hclass : lenType = lengthClass (lengthKind str.length) :=
      Width.bits_injective (hwidth.trans (bits_lengthClass _ hk).symm)
    rw [WriteCall.exec, heq, writeStringAs, IntType.bits, if_neg hcheck, hkind', hclass,
      WriteCall.fields, lengthFields]
    exact congrArg (_ >>= ·) (funext fun w₁ => congrArg (_ >>= ·)
      (funext fun w₂ => writeChars_eq_fields c.intType str w₂))

/-- It appends its encoding. -/
theorem WriteCall.exec_of_accepted (call : WriteCall) (w : BitStreamWriter) (h : w.Packed)
    (ha : call.Accepted w) : ∃ w', call.exec e w = .ok w' ∧ Appended e w w' call.encode := by
  have hfit := ha.2.2.2
  have ht := w.logicalTotalBits.isLt
  have henc := call.encode_fields (by omega)
  rw [call.exec_eq_fields w h ha, ← henc]
  exact writeFields_spec call.fields w h (call.inRange_fields ha.2.2.1)
    (by rw [henc, length_encode]; exact hfit)

/-- `do_write<true>` rejects what it should, the sum being sound. -/
theorem doWrite_rejects (w : BitStreamWriter) (t : IntType) (data min max : t.Value)
    (hf : w.fail = false) (h : ¬ (w.finalFlushed = false ∧
      (min.val < max.val ∧ min.val ≤ data.val ∧ data.val ≤ max.val) ∧
      ¬ w.logicalTotalBits < w.logicalUsedBits + BitVec.ofNat 32 (t.rangeBits min max))) :
    w.doWrite e true t data min max = .ok { w with fail := true } := by
  simp only [doWrite, hf, Bool.false_eq_true, and_false, if_false, true_and]
  split_ifs with h1 h2 h3 h4
  · rfl
  · rfl
  · rfl
  · rfl
  · exact absurd ⟨by simpa using h1, ⟨by omega, by omega, by omega⟩, h4⟩ h

/-- A failed or flushed stream takes no more writes. -/
theorem WriteCall.exec_of_closed (call : WriteCall) (w : BitStreamWriter)
    (h : w.fail = true ∨ w.finalFlushed = true) :
    call.exec e w = .ok { w with fail := true } := by
  by_cases hf : w.fail = true
  · have hw : { w with fail := true } = w := by rw [← hf]
    rw [hw]
    cases call <;>
      simp [WriteCall.exec, writeInt, writeFloat, writeDouble, writeBlock, writeString, doWrite, hf]
  · have hfl : w.finalFlushed = true := h.resolve_left hf
    cases call <;>
      simp [WriteCall.exec, writeInt, writeFloat, writeDouble, writeBlock, writeString, doWrite,
        hf, hfl]

/-- Any other call sets the fail flag and changes nothing else, if its check is sound. -/
theorem WriteCall.exec_of_not_accepted (call : WriteCall) (w : BitStreamWriter) (h : w.Packed)
    (ha : ¬ call.Accepted w) (hs : call.CheckSound w) :
    call.exec e w = .ok { w with fail := true } := by
  by_cases hclosed : w.fail = true ∨ w.finalFlushed = true
  · exact call.exec_of_closed w hclosed
  have hf : w.fail = false := by simpa using fun hf => hclosed (.inl hf)
  have hfl : w.finalFlushed = false := by simpa using fun hfl => hclosed (.inr hfl)
  -- From here on only the arguments and the room decide.
  have hroom (hv : call.Valid) : w.logicalTotalBits.toNat <
      (w.logicalUsedBits.toNat + call.cost) % 2 ^ call.sumBits := by
    by_contra hle
    exact ha ⟨hf, hfl, hv, hs hf hfl hv (by omega)⟩
  have full (t : Width) (x : IntType.Value (.unsigned t)) (hx : w.logicalTotalBits.toNat <
      (w.logicalUsedBits.toNat + t.bits) % 2 ^ 32) :
      w.writeInt e (.unsigned t) x (IntType.unsigned t).minValue (IntType.unsigned t).maxValue =
        .ok { w with fail := true } := by
    refine doWrite_rejects w _ _ _ _ hf fun hok => hok.2.2 ?_
    rw [(fullWidth_eq (.unsigned t)).symm.trans (fullWidth_of_ne (.unsigned t) (by simp)),
      lt_add_iff, BitVec.toNat_ofNat, Nat.add_mod_mod]
    exact hx
  cases call with
  | int t data min max =>
    refine doWrite_rejects w t data min max hf fun hok => hok.2.2 ?_
    have hlt := hroom hok.2.1
    rw [WriteCall.cost, ← t.rangeBits_eq min max hok.2.1.1.le] at hlt
    rw [lt_add_iff, BitVec.toNat_ofNat, Nat.add_mod_mod]
    exact hlt
  | float data => exact full .w32 _ (hroom trivial)
  | double data => exact full .w64 _ (hroom trivial)
  | block data size =>
    have hcheck : w.logicalTotalBits < w.logicalUsedBits + 8 * size := by
      rw [lt_add_iff, toNat_eight_mul, Nat.add_mod_mod]
      exact hroom trivial
    simp only [WriteCall.exec, writeBlock, hf, hfl, hcheck, Bool.false_eq_true, if_false, if_true]
  | string c str =>
    obtain ⟨kind, lenType, heq, -, hwidth⟩ := writeString_eq (e := e) c str w hf hfl
    have hlt := hroom trivial
    rw [WriteCall.cost, ← hwidth] at hlt
    rw [WriteCall.exec, heq, writeStringAs, IntType.bits, if_pos]
    rw [strOverflow_iff w h _ _ (by cases lenType <;> rfl)]
    exact hlt

end
end Nalchi
