import Nalchi.Cursor

/-! Every read of the reader refines its decoder on the bits at the cursor. -/
namespace Nalchi
namespace BitStreamReader
variable {e : Endian}

/-- One more step behind a read that refines a decoder. -/
theorem Refines.map {α β : Type} {r : BitStreamReader}
    {res : Except Fault (BitStreamReader × α)} {dec : Except Nat (α × List Bool)} {old : α}
    (h : Refines e r res dec old) (f : α → β) :
    Refines e r (res >>= fun p => pure (p.1, f p.2)) (dec.map fun p => (f p.1, p.2)) (f old) := by
  cases dec with
  | ok p =>
    obtain ⟨r', rfl, ha⟩ := h
    exact ⟨r', rfl, ha⟩
  | error n =>
    obtain ⟨r', rfl, hs⟩ := h
    exact ⟨r', rfl, hs⟩

/-- An unchecked read over the whole range of the type. -/
theorem doReadFull_unchecked (r : BitStreamReader) (h : r.Synced e) (t : IntType) (data : t.Value)
    (hn : fullWidth t ≤ (r.logicalRest e).length) :
    ∃ r', r.doReadFull e false t data = .ok (r',
        t.cast (t.lowest + (Bits.toNat ((r.logicalRest e).take (fullWidth t)) : Nat))) ∧
      Advanced e r r' ((r.logicalRest e).drop (fullWidth t)) := by
  rw [fullWidth_eq] at hn ⊢
  exact doRead_unchecked r h t data t.minValue t.maxValue hn

/-- The element loop, by induction on the elements left. -/
theorem readArray_spec (t : IntType) (i n : Nat) (data : Nat → t.Value) (r : BitStreamReader)
    (h : r.Synced e) (hn : n * fullWidth t ≤ (r.logicalRest e).length) :
    ∃ r', r.readArray e t i n data = .ok (r', fun j => if j < i then data j else
        ((takeValues t n (r.logicalRest e))[j - i]?).getD (data j)) ∧
      Advanced e r r' ((r.logicalRest e).drop (n * fullWidth t)) := by
  induction n generalizing i data r with
  | zero =>
    refine ⟨r, ?_, by simpa using Advanced.refl h⟩
    simp [readArray, takeValues]
  | succ n ih =>
    rw [Nat.succ_mul] at hn
    obtain ⟨r₁, hr₁, ha₁⟩ := doReadFull_unchecked r h t (data i) (by omega)
    obtain ⟨r₂, hr₂, ha₂⟩ := ih (i + 1) (Function.update data i _) r₁ ha₁.synced
      (by rw [ha₁.rest, List.length_drop]; omega)
    rw [ha₁.rest] at hr₂ ha₂
    rw [List.drop_drop, Nat.add_comm, ← Nat.succ_mul] at ha₂
    refine ⟨r₂, ?_, ha₁.trans ha₂⟩
    rw [readArray, hr₁]
    simp only [Run.bind_ok]
    rw [hr₂]
    congr 2
    funext j
    by_cases hlt : j < i
    · rw [if_pos (by omega), if_pos hlt, Function.update_of_ne (by omega)]
    · rw [if_neg hlt, takeValues]
      by_cases heq : j = i
      · rw [heq, if_pos (by omega), Nat.sub_self, Function.update_self]
        rfl
      · obtain ⟨k, hk⟩ : ∃ k, j - i = k + 1 := ⟨j - i - 1, by omega⟩
        have hk' : j - (i + 1) = k := by omega
        rw [if_neg (by omega), hk, List.getElem?_cons_succ, Function.update_of_ne heq, hk']

/-- The character loop, by induction on the characters left. -/
theorem readChars_spec (t : IntType) (str : List t.Value) (r : BitStreamReader) (h : r.Synced e)
    (hn : str.length * fullWidth t ≤ (r.logicalRest e).length) :
    ∃ r', r.readChars e t str = .ok (r', takeValues t str.length (r.logicalRest e)) ∧
      Advanced e r r' ((r.logicalRest e).drop (str.length * fullWidth t)) := by
  induction str generalizing r with
  | nil => exact ⟨r, rfl, by simpa using Advanced.refl h⟩
  | cons ch str ih =>
    rw [List.length_cons, Nat.succ_mul] at hn
    obtain ⟨r₁, hr₁, ha₁⟩ := doReadFull_unchecked r h t ch (by omega)
    obtain ⟨r₂, hr₂, ha₂⟩ := ih r₁ ha₁.synced (by rw [ha₁.rest, List.length_drop]; omega)
    rw [ha₁.rest] at hr₂ ha₂
    rw [List.drop_drop, Nat.add_comm, ← Nat.succ_mul] at ha₂
    refine ⟨r₂, ?_, ha₁.trans ha₂⟩
    rw [readChars, hr₁]
    simp only [Run.bind_ok]
    rw [hr₂]
    rfl

theorem length_takeValues (t : IntType) (n : Nat) (bs : List Bool) :
    (takeValues t n bs).length = n := by
  induction n generalizing bs with
  | zero => rfl
  | succ n ih => rw [takeValues, List.length_cons, ih]

/-- What the destination held is lost on an unchecked read. -/
theorem doReadFull_data (t : IntType) (data data' : t.Value) (r : BitStreamReader) :
    r.doReadFull e false t data = r.doReadFull e false t data' := by
  simp [doReadFull, doRead]

theorem readChars_data (t : IntType) (xs ys : List t.Value) (h : xs.length = ys.length)
    (r : BitStreamReader) : r.readChars e t xs = r.readChars e t ys := by
  induction xs generalizing ys r with
  | nil => rw [List.length_eq_zero_iff.mp h.symm]
  | cons x xs ih =>
    obtain ⟨y, ys, rfl⟩ := List.exists_cons_of_length_eq_add_one h.symm
    rw [readChars, readChars, doReadFull_data t x y]
    have hrec := ih ys (Nat.succ.inj h)
    simp only [hrec]

/-- The two loops leave the stream in one state. -/
theorem readArray_state (t : IntType) (str : List t.Value) (i : Nat) (data : Nat → t.Value)
    (r : BitStreamReader) :
    (r.readArray e t i str.length data).map Prod.fst = (r.readChars e t str).map Prod.fst := by
  induction str generalizing i data r with
  | nil => rfl
  | cons ch str ih =>
    rw [List.length_cons, readArray, readChars, doReadFull_data t (data i) ch]
    cases r.doReadFull e false t ch with
    | error f => rfl
    | ok p =>
      simp only [Run.bind_ok]
      rw [ih]
      cases p.1.readChars e t str <;> rfl

theorem getElem?_takeValues (t : IntType) (n : Nat) (bs : List Bool) (i : Nat) (hi : i < n) :
    (takeValues t n bs)[i]? = some (t.cast (t.lowest +
      (Bits.toNat ((bs.drop (i * fullWidth t)).take (fullWidth t)) : Nat))) := by
  induction n generalizing bs i with
  | zero => exact absurd hi (Nat.not_lt_zero i)
  | succ n ih =>
    cases i with
    | zero => rw [Nat.zero_mul]; rfl
    | succ i =>
      rw [takeValues, List.getElem?_cons_succ, ih _ i (by omega), List.drop_drop, Nat.succ_mul,
        Nat.add_comm (fullWidth t)]

/-- A field over the whole range of an unsigned type is its numeral. -/
theorem decodeInt_full (w : Width) (bs : List Bool) :
    decodeInt (.unsigned w) (IntType.minValue _) (IntType.maxValue _) bs =
      match Bits.split w.bits bs with
      | none => .error 0
      | some (raw, rest) => .ok ((IntType.unsigned w).cast raw, rest) := by
  have hw : bitWidth (((IntType.unsigned w).maxValue).val - ((IntType.unsigned w).minValue).val).toNat =
      w.bits := fullWidth_of_ne (.unsigned w) (by simp)
  have hlt : ¬ (IntType.unsigned w).maxValue.val ≤ (IntType.unsigned w).minValue.val := by
    cases w <;> decide
  rw [decodeInt, if_neg hlt, hw]
  cases hsplit : Bits.split w.bits bs with
  | none => rfl
  | some p =>
    obtain ⟨raw, rest⟩ := p
    have hzero : ((IntType.unsigned w).minValue.val + raw : Int) = raw := by
      simp [IntType.minValue, IntType.lowest]
    simp only [hzero]
    rw [if_neg (by have h := ((IntType.unsigned w).cast raw).property.2; exact not_lt.mpr h)]

theorem rangeBits_unsigned (w : Width) :
    (IntType.unsigned w).rangeBits (IntType.minValue _) (IntType.maxValue _) = w.bits :=
  (IntType.unsigned w).rangeBits_full (by simp)

/-- A checked read over the whole range of an unsigned type. -/
theorem doReadFull_refines (r : BitStreamReader) (h : r.Synced e) (hf : r.fail = false) (w : Width)
    (data : IntType.Value (.unsigned w)) (hs : r.SumSound w.bits) :
    Refines e r (r.doReadFull e true (.unsigned w) data)
      (match Bits.split w.bits (r.logicalRest e) with
        | none => .error 0
        | some (raw, rest) => .ok ((IntType.unsigned w).cast raw, rest)) data := by
  rw [← decodeInt_full]
  exact doRead_refines r h hf _ _ _ _ fun _ => by rw [rangeBits_unsigned]; exact hs

theorem readLengthAs_refines (r : BitStreamReader) (h : r.Synced e) (hf : r.fail = false)
    (w : Width) (hs : r.SumSound w.bits) :
    Refines e r (r.readLengthAs e (.unsigned w))
      (match Bits.split w.bits (r.logicalRest e) with
        | none => .error 0
        | some (raw, rest) => .ok (castSsize raw, rest)) (-1) := by
  have href := doReadFull_refines r h hf w ((IntType.unsigned w).cast 0) hs
  rw [readLengthAs]
  by_cases hlen : (r.logicalRest e).length < w.bits
  · rw [Bits.split_of_lt hlen] at href ⊢
    obtain ⟨r', hr', hstop⟩ := href
    refine ⟨r', ?_, hstop⟩
    rw [hr']
    simp only [Run.bind_ok, hstop.fail, if_true, Run.pure_ok]
  · rw [Bits.split_of_le (by omega)] at href ⊢
    obtain ⟨r', hr', ha⟩ := href
    refine ⟨r', ?_, ha⟩
    have hraw := IntType.unsigned_cast w _ (toNat_take_lt w.bits (r.logicalRest e))
    rw [hr']
    simp only [Run.bind_ok, ha.fail.trans hf, Bool.false_eq_true, if_false, Run.pure_ok, hraw]

/-- The check for the length itself is sound, whichever width the prefix names. -/
def LengthSound (e : Endian) (r : BitStreamReader) : Prop :=
  2 ≤ (r.logicalRest e).length →
    r.SumSound (2 + lengthWidth (Bits.toNat ((r.logicalRest e).take 2)))

instance (r : BitStreamReader) : Decidable (r.LengthSound e) :=
  inferInstanceAs (Decidable (_ → _))

theorem decodeInt_kind (bs : List Bool) :
    decodeInt .uint32 BitStreamWriter.minStrLenPrefixPrefix BitStreamWriter.maxStrLenPrefixPrefix bs =
      match Bits.split 2 bs with
      | none => .error 0
      | some (raw, rest) => .ok (IntType.uint32.cast raw, rest) := by
  have hw : bitWidth (BitStreamWriter.maxStrLenPrefixPrefix.val -
      BitStreamWriter.minStrLenPrefixPrefix.val).toNat = 2 := by decide
  rw [decodeInt, if_neg (by decide), hw]
  by_cases hlen : bs.length < 2
  · rw [Bits.split_of_lt hlen]
  · rw [Bits.split_of_le (by omega)]
    have hlt := toNat_take_lt 2 bs
    have hraw := IntType.unsigned_cast .w32 (Bits.toNat (bs.take 2)) (by simp [Width.bits]; omega)
    have h0 : BitStreamWriter.minStrLenPrefixPrefix.val = 0 := rfl
    have h3 : BitStreamWriter.maxStrLenPrefixPrefix.val = 3 := rfl
    simp only [h0, h3, zero_add]
    rw [if_neg (by rw [hraw]; omega)]

/-- With the prefix read, the switch reads the length in the width it names. -/
theorem readStringLength_of_kind (r r₁ : BitStreamReader) (hf : r.fail = false)
    (hf₁ : r₁.fail = false) (kind : Nat) (hkind : kind < 4)
    (hr₁ : r.doRead e true .uint32 (IntType.uint32.cast 0) BitStreamWriter.minStrLenPrefixPrefix
      BitStreamWriter.maxStrLenPrefixPrefix = .ok (r₁, IntType.uint32.cast kind)) :
    ∃ w : Width, w.bits = lengthWidth kind ∧
      r.readStringLength e = r₁.readLengthAs e (.unsigned w) := by
  rw [readStringLength, if_neg (by simp [hf]), hr₁]
  simp only [Run.bind_ok]
  rw [if_neg (by simp [hf₁]), IntType.unsigned_cast .w32 kind (by simp [Width.bits]; omega)]
  interval_cases kind
  · exact ⟨.w8, rfl, rfl⟩
  · exact ⟨.w16, rfl, rfl⟩
  · exact ⟨.w32, rfl, rfl⟩
  · exact ⟨.w64, rfl, rfl⟩

theorem readStringLength_refines (r : BitStreamReader) (h : r.Synced e) (hf : r.fail = false)
    (hs : r.LengthSound e) :
    Refines e r (r.readStringLength e)
      ((decodeLength (r.logicalRest e)).map fun p => (castSsize p.1, p.2)) (-1) := by
  have hl := length_logicalRest r h
  have h2 : r.SumSound (IntType.uint32.rangeBits BitStreamWriter.minStrLenPrefixPrefix
      BitStreamWriter.maxStrLenPrefixPrefix) := by
    have ht := r.logicalTotalBits.isLt
    have hle := h.used_le
    have hmod := h.total_mod
    have hbits : IntType.uint32.rangeBits BitStreamWriter.minStrLenPrefixPrefix
        BitStreamWriter.maxStrLenPrefixPrefix = 2 := by decide
    rw [hbits]
    unfold SumSound
    omega
  have href := doRead_refines r h hf .uint32 (IntType.uint32.cast 0)
    BitStreamWriter.minStrLenPrefixPrefix BitStreamWriter.maxStrLenPrefixPrefix fun _ => h2
  rw [decodeInt_kind] at href
  rw [decodeLength]
  by_cases hlen : (r.logicalRest e).length < 2
  · rw [Bits.split_of_lt hlen] at href ⊢
    obtain ⟨r', hr', hstop⟩ := href
    refine ⟨r', ?_, hstop⟩
    rw [readStringLength, if_neg (by simp [hf]), hr']
    simp only [Run.bind_ok, hstop.fail, if_true, Run.pure_ok]
  · rw [Bits.split_of_le (by omega)] at href ⊢
    obtain ⟨r₁, hr₁, ha⟩ := href
    have hf₁ := ha.fail.trans hf
    have hu := ha.used
    rw [List.length_drop] at hu
    have hsound := hs (by omega)
    obtain ⟨w, hw, hswitch⟩ := readStringLength_of_kind r r₁ hf hf₁ _
      (toNat_take_lt 2 (r.logicalRest e)) hr₁
    dsimp only
    rw [hswitch, ← hw]
    rw [← hw] at hsound
    have href₁ := readLengthAs_refines r₁ ha.synced hf₁ w (by
      have hle := h.used_le
      have hused : r₁.logicalUsedBits.toNat = r.logicalUsedBits.toNat + 2 := by omega
      unfold SumSound at *
      rw [ha.total, hused]
      simpa only [Nat.add_assoc] using hsound)
    rw [ha.rest] at href₁
    by_cases hlen₁ : ((r.logicalRest e).drop 2).length < w.bits
    · rw [Bits.split_of_lt hlen₁] at href₁ ⊢
      obtain ⟨r', hr', hstop⟩ := href₁
      have hstop' := ha.stopped h hstop
      have hmoved : (r.logicalRest e).length - ((r.logicalRest e).length - 2) + 0 = 2 := by omega
      rw [List.length_drop, hmoved] at hstop'
      exact ⟨r', hr', hstop'⟩
    · rw [Bits.split_of_le (by omega)] at href₁ ⊢
      obtain ⟨r', hr', ha'⟩ := href₁
      exact ⟨r', hr', ha.trans ha'⟩

/-- The check for missing characters cannot wrap: a length is below `2 ^ 31`. -/
theorem strOverflow_iff (r : BitStreamReader) (h : r.Synced e) (c : CharType) (len : Int)
    (hlen : len < 2 ^ 31) : r.strOverflow (len.toNat * c.size) ↔
      (r.logicalRest e).length < 8 * (len.toNat * c.size) := by
  have hs := c.intType_spec.2.2.2
  have hmul : len.toNat * c.size ≤ 2 ^ 31 * 4 := Nat.mul_le_mul (by omega) hs
  have ht := r.logicalTotalBits.isLt
  have hle := h.used_le
  rw [strOverflow, length_logicalRest r h, Nat.mod_eq_of_lt (by omega)]
  omega

theorem castSsize_lt (x : Int) : castSsize x < 2 ^ 31 := by
  have h := ((IntType.signed .w32).wrap_mem x).2
  simp only [IntType.highest, Width.bits] at h
  unfold castSsize
  omega

end BitStreamReader
end Nalchi
