import Nalchi.Delivering

/-! The reader refines a cursor over the buffer's bits: each of its calls does
what the decoder of the call says, and a failed reader does nothing. -/
namespace Nalchi
namespace BitStreamReader
variable {e : Endian}

theorem Stopped.again {r r' : BitStreamReader} {n : Nat} (h : Stopped r r' n) :
    Stopped r { r' with fail := true } n :=
  ⟨⟨h.1.1, h.1.2, h.1.3, h.1.4⟩, h.used, h.used_le, h.words, h.total, h.initFail, rfl⟩

/-- What the two string reads do with the length, with the loop behind it as `body`. -/
theorem chars_refines {α : Type} (r : BitStreamReader) (h : r.Synced e) (c : CharType)
    (maxLength : SizeType) (len : Int) (hlen : len < 2 ^ 31) (old : α) (f : List c.Value → α)
    (body : BitStreamReader → Int → Except Fault (BitStreamReader × α))
    (hbody : 8 * (len.toNat * c.size) ≤ (r.logicalRest e).length →
      ∃ r', body r len = .ok (r', f (takeValues c.intType len.toNat (r.logicalRest e))) ∧
        Advanced e r r' ((r.logicalRest e).drop (8 * (len.toNat * c.size)))) :
    Refines e r (if len < 0 ∨ maxLength.toNat < len.toNat then .ok ({ r with fail := true }, old)
        else if r.strOverflow (len.toNat * c.size) then .ok ({ r with fail := true }, old)
        else body r len)
      (match decodeChars c maxLength len (r.logicalRest e) with
        | none => .error 0
        | some (str, rest) => .ok (f str, rest)) old := by
  have hover := strOverflow_iff r h c len hlen
  rw [decodeChars]
  by_cases hbad : len < 0 ∨ maxLength.toNat < len.toNat
  · rw [if_pos hbad, if_pos (by tauto)]
    exact ⟨_, rfl, Stopped.setFail h⟩
  rw [if_neg hbad]
  by_cases hlack : (r.logicalRest e).length < 8 * (len.toNat * c.size)
  · rw [if_pos (hover.mpr hlack), if_pos (by tauto)]
    exact ⟨_, rfl, Stopped.setFail h⟩
  · rw [if_neg (fun hlt => hlack (hover.mp hlt)), if_neg (by tauto)]
    exact hbody (by omega)

/-- The lines the two string reads share. -/
theorem string_refines {α : Type} (r : BitStreamReader) (h : r.Synced e) (hf : r.fail = false)
    (hs : r.LengthSound e) (c : CharType) (maxLength : SizeType) (old : α)
    (f : List c.Value → α) (body : BitStreamReader → Int → Except Fault (BitStreamReader × α))
    (hbody : ∀ r₁ len, r₁.Synced e → 8 * (len.toNat * c.size) ≤ (r₁.logicalRest e).length →
      ∃ r', body r₁ len = .ok (r', f (takeValues c.intType len.toNat (r₁.logicalRest e))) ∧
        Advanced e r₁ r' ((r₁.logicalRest e).drop (8 * (len.toNat * c.size)))) :
    Refines e r (do
        let (r, len) ← r.readStringLength e
        if len < 0 ∨ maxLength.toNat < len.toNat then return ({ r with fail := true }, old)
        else if r.strOverflow (len.toNat * c.size) then return ({ r with fail := true }, old)
        else body r len)
      ((decodeString c maxLength (r.logicalRest e)).map fun p => (f p.1, p.2)) old := by
  have href := readStringLength_refines r h hf hs
  cases hdec : decodeLength (r.logicalRest e) with
  | error n =>
    rw [decodeString, hdec]
    rw [hdec] at href
    obtain ⟨r', hr', hstop⟩ := href
    refine ⟨{ r' with fail := true }, ?_, hstop.again⟩
    rw [hr']
    rfl
  | ok p =>
    obtain ⟨raw, rest⟩ := p
    obtain ⟨len, hlen⟩ : ∃ len, castSsize raw = len := ⟨_, rfl⟩
    have hlt := castSsize_lt raw
    rw [decodeString_of_length hdec hlen]
    rw [hdec, Except.map, hlen] at href
    rw [hlen] at hlt
    obtain ⟨r₁, hr₁, ha⟩ := href
    have hchars := chars_refines r₁ ha.synced c maxLength len hlt old f body
      (hbody r₁ len ha.synced)
    rw [ha.rest] at hchars
    rw [hr₁]
    cases hdecode : decodeChars c maxLength len rest with
    | none =>
      rw [hdecode] at hchars
      obtain ⟨r', hr', hstop⟩ := hchars
      exact ⟨r', hr', by simpa using ha.stopped h hstop⟩
    | some p =>
      rw [hdecode] at hchars
      obtain ⟨r', hr', ha'⟩ := hchars
      exact ⟨r', hr', ha.trans ha'⟩

theorem mul_fullWidth (c : CharType) (n : Nat) : n * fullWidth c.intType = 8 * (n * c.size) := by
  have hc := c.intType_spec
  rw [fullWidth_of_ne _ hc.1, hc.2.1, Nat.mul_left_comm]

theorem length_resize (c : CharType) (str : List c.Value) (n : Nat) :
    (resize c str n).length = n := by
  rw [resize, List.length_append, List.length_take, List.length_replicate]
  omega

theorem readString_refines (r : BitStreamReader) (h : r.Synced e) (hf : r.fail = false)
    (hs : r.LengthSound e) (c : CharType) (str : List c.Value) (maxLength : SizeType) :
    Refines e r (r.readString e c str maxLength)
      ((decodeString c maxLength (r.logicalRest e)).map fun p => (id p.1, p.2)) str := by
  rw [readString, if_neg (by simp [hf])]
  refine string_refines r h hf hs c maxLength str id
    (fun r len => r.readChars e c.intType (resize c str len.toNat)) fun r₁ len h₁ hn => ?_
  have hlen := length_resize c str len.toNat
  have hspec := readChars_spec c.intType (resize c str len.toNat) r₁ h₁
    (by rw [hlen, mul_fullWidth]; exact hn)
  rwa [hlen, mul_fullWidth] at hspec

/-- The terminator behind the elements the loop stored. -/
theorem update_eq_overlay {α : Type} (mem : Nat → α) (xs : List α) (z : α) :
    Function.update (fun j => if j < 0 then mem j else (xs[j - 0]?).getD (mem j)) xs.length z =
      overlay mem (xs ++ [z]) := by
  funext j
  rw [overlay, List.getElem?_append]
  by_cases hj : j = xs.length
  · rw [hj, Function.update_self]
    simp
  · rw [Function.update_of_ne hj]
    by_cases hlt : j < xs.length
    · simp [hlt]
    · obtain ⟨k, hk⟩ : ∃ k, j - xs.length = k + 1 := ⟨j - xs.length - 1, by omega⟩
      rw [if_neg hlt, hk, List.getElem?_eq_none (by omega)]
      simp

theorem readCString_refines (r : BitStreamReader) (h : r.Synced e) (hf : r.fail = false)
    (hs : r.LengthSound e) (c : CharType) (mem : Nat → c.Value) (maxLength : SizeType) :
    Refines e r (r.readCString e c mem maxLength)
      ((decodeString c maxLength (r.logicalRest e)).map fun p =>
        (overlay mem (p.1 ++ [c.intType.cast 0]), p.2)) mem := by
  rw [readCString, if_neg (by simp [hf])]
  refine string_refines r h hf hs c maxLength mem
    (fun str => overlay mem (str ++ [c.intType.cast 0]))
    (fun r len => r.readArray e c.intType 0 len.toNat mem >>= fun p =>
      pure (p.1, Function.update p.2 len.toNat (c.intType.cast 0))) fun r₁ len h₁ hn => ?_
  obtain ⟨r', hr', ha⟩ := readArray_spec c.intType 0 len.toNat mem r₁ h₁
    (by rw [mul_fullWidth]; exact hn)
  rw [mul_fullWidth] at ha
  refine ⟨r', ?_, ha⟩
  have hlen := length_takeValues c.intType len.toNat (r₁.logicalRest e)
  have hover := update_eq_overlay mem (takeValues c.intType len.toNat (r₁.logicalRest e))
    (c.intType.cast 0)
  rw [hlen] at hover
  rw [hr', ← hover]
  rfl

theorem readBlock_refines (r : BitStreamReader) (h : r.Synced e) (hf : r.fail = false)
    (data : Nat → IntType.uint8.Value) (size : SizeType) (hs : r.SumSound (8 * size.toNat)) :
    Refines e r (r.readBlock e data size)
      (if (r.logicalRest e).length < 8 * size.toNat then .error 0
        else .ok (overlay data (takeValues .uint8 size.toNat (r.logicalRest e)),
          (r.logicalRest e).drop (8 * size.toNat))) data := by
  have hlack := lack_iff r h (toNat_eight_mul size) hs
  have h8 : size.toNat * fullWidth .uint8 = 8 * size.toNat := by
    have hbyte : fullWidth .uint8 = 8 := by decide
    rw [hbyte, Nat.mul_comm]
  simp only [readBlock, hf, Bool.false_eq_true, if_false]
  by_cases hshort : (r.logicalRest e).length < 8 * size.toNat
  · rw [if_pos (hlack.mpr hshort), if_pos hshort]
    exact ⟨_, rfl, Stopped.setFail h⟩
  · rw [if_neg (fun hlt => hshort (hlack.mp hlt)), if_neg hshort]
    have hspec := readArray_spec .uint8 0 size.toNat data r h (by rw [h8]; omega)
    rwa [h8] at hspec

/-- The lines `read(float&)` and `read(double&)` share: the bits are read as an
integer of their width. -/
theorem raw_refines (r : BitStreamReader) (h : r.Synced e) (hf : r.fail = false) (w : Width)
    (data : BitVec (IntType.unsigned w).bits) (hs : r.SumSound w.bits) :
    Refines e r (do
        let (r, raw) ← r.readInt e (.unsigned w) ((IntType.unsigned w).cast 0)
          (IntType.unsigned w).minValue (IntType.unsigned w).maxValue
        if r.fail then return (r, data)
        else return (r, (IntType.unsigned w).toUInt raw))
      (match Bits.split w.bits (r.logicalRest e) with
        | none => .error 0
        | some (raw, rest) => .ok (BitVec.ofNat _ raw, rest)) data := by
  have href := doReadFull_refines r h hf w ((IntType.unsigned w).cast 0) hs
  have heq : r.readInt e (.unsigned w) ((IntType.unsigned w).cast 0)
      (IntType.unsigned w).minValue (IntType.unsigned w).maxValue =
    r.doReadFull e true (.unsigned w) ((IntType.unsigned w).cast 0) := rfl
  rw [heq]
  by_cases hlen : (r.logicalRest e).length < w.bits
  · rw [Bits.split_of_lt hlen] at href ⊢
    obtain ⟨r', hr', hstop⟩ := href
    refine ⟨r', ?_, hstop⟩
    rw [hr']
    simp only [Run.bind_ok, hstop.fail, if_true, Run.pure_ok]
  · rw [Bits.split_of_le (by omega)] at href ⊢
    obtain ⟨r', hr', ha⟩ := href
    refine ⟨r', ?_, ha⟩
    rw [hr']
    simp only [Run.bind_ok, ha.fail.trans hf, Bool.false_eq_true, if_false, Run.pure_ok]
    rw [IntType.toUInt, IntType.unsigned_cast w _ (toNat_take_lt _ _), BitVec.ofInt_natCast]

end BitStreamReader

open BitStreamReader

/-- The capacity check of the call, if it makes one, is not passed by a sum that
wrapped round. A string read's is made on the prefix that lies at the cursor. -/
def ReadCall.CheckSound (e : Endian) (call : ReadCall) (r : BitStreamReader) : Prop :=
  r.fail = false → match call with
    | .int t _ min max => min.val < max.val → r.SumSound (t.rangeBits min max)
    | .float _ => r.SumSound 32
    | .double _ => r.SumSound 64
    | .block _ size => r.SumSound (8 * size.toNat)
    | .string _ _ _ | .cstring _ _ _ => r.LengthSound e

instance ReadCall.decidableCheckSound (e : Endian) (call : ReadCall) (r : BitStreamReader) :
    Decidable (call.CheckSound e r) := by
  cases call <;> unfold ReadCall.CheckSound <;> infer_instance

section
variable {e : Endian}

/-- Each read does what its decoder says. -/
theorem ReadCall.exec_refines (call : ReadCall) (r : BitStreamReader) (h : r.Synced e)
    (hf : r.fail = false) (hs : call.CheckSound e r) :
    Refines e r (call.exec e r) (call.decode (r.logicalRest e)) call := by
  have hsound := hs hf
  cases call with
  | int t data min max =>
    exact (doRead_refines r h hf t data min max hsound).map fun x => ReadCall.int t x min max
  | float data =>
    have href := (raw_refines r h hf .w32 data hsound).map ReadCall.float
    simp only [ReadCall.decode]
    cases hsplit : Bits.split 32 (r.logicalRest e) with
    | none =>
      have hw : Bits.split Width.w32.bits (r.logicalRest e) = none := hsplit
      rw [hw] at href
      exact href
    | some p =>
      have hw : Bits.split Width.w32.bits (r.logicalRest e) = some p := hsplit
      rw [hw] at href
      exact href
  | double data =>
    have href := (raw_refines r h hf .w64 data hsound).map ReadCall.double
    simp only [ReadCall.decode]
    cases hsplit : Bits.split 64 (r.logicalRest e) with
    | none =>
      have hw : Bits.split Width.w64.bits (r.logicalRest e) = none := hsplit
      rw [hw] at href
      exact href
    | some p =>
      have hw : Bits.split Width.w64.bits (r.logicalRest e) = some p := hsplit
      rw [hw] at href
      exact href
  | block data size =>
    have href := (readBlock_refines r h hf data size hsound).map fun data => ReadCall.block data size
    simp only [ReadCall.decode]
    split_ifs at href ⊢
    · exact href
    · exact href
  | string c str maxLength =>
    have href := (readString_refines r h hf hsound c str maxLength).map fun str =>
      ReadCall.string c str maxLength
    simp only [ReadCall.decode]
    cases hdec : decodeString c maxLength (r.logicalRest e) with
    | error n => rw [hdec] at href; exact href
    | ok p => rw [hdec] at href; exact href
  | cstring c mem maxLength =>
    have href := (readCString_refines r h hf hsound c mem maxLength).map fun mem =>
      ReadCall.cstring c mem maxLength
    simp only [ReadCall.decode]
    cases hdec : decodeString c maxLength (r.logicalRest e) with
    | error n => rw [hdec] at href; exact href
    | ok p => rw [hdec] at href; exact href

/-- Once failed, a read does nothing. -/
theorem ReadCall.exec_of_fail (call : ReadCall) (r : BitStreamReader) (hf : r.fail = true) :
    call.exec e r = .ok (r, call) := by
  cases call <;>
    simp [ReadCall.exec, readInt, readFloat, readDouble, readBlock, readString, readCString, doRead,
      hf]

theorem BitStreamReader.peekStringLength_of_fail (r : BitStreamReader) (hf : r.fail = true) :
    r.peekStringLength e = .ok (r, -1) := by
  rw [peekStringLength, readStringLength, if_pos hf]
  rfl

end
end Nalchi
