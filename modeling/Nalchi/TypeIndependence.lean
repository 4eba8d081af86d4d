import Nalchi.CursorRefinement
import Nalchi.WriterFailure

/-! What a write packs and a read delivers depends on the numbers alone, not on the
integral type they come in. -/
namespace Nalchi
variable {e : Endian}

section
open BitStreamWriter

/-- Up to a word there is no high half. -/
theorem BitStreamWriter.pushHalves_of_le (w : BitStreamWriter) (v : ScratchType) (n : Nat)
    (hn : n ≤ 32) (hv : v.toNat < 2 ^ n) : w.pushHalves e v n = w.pushScratch e v n := by
  have hlow : (v <<< 32) >>> 32 = v := by
    apply BitVec.eq_of_toNat_eq
    rw [toNat_low_half, Nat.mod_eq_of_lt (hv.trans_le (Nat.pow_le_pow_right (by omega) hn))]
  simp only [pushHalves, Nat.min_eq_left hn, hlow, Nat.sub_self]
  cases w.pushScratch e v n <;> rfl

theorem BitStreamWriter.pushValue_eq_halves (w : BitStreamWriter) (t : IntType) (v : ScratchType)
    (n : Nat) (hn : n ≤ t.bits) (hv : v.toNat < 2 ^ n) :
    w.pushValue e t v n = w.pushHalves e v n := by
  rw [pushValue]
  by_cases hbig : t.isBig = true
  · rw [if_pos hbig]
  · rw [if_neg hbig]
    simp only [IntType.isBig, decide_eq_true_eq] at hbig
    exact (w.pushHalves_of_le v n (by omega) hv).symm

/-- Equal numbers in two types are written alike, or rejected alike. -/
theorem BitStreamWriter.writeInt_eq (w : BitStreamWriter) (t u : IntType)
    (data min max : t.Value) (data' min' max' : u.Value) (hdata : data'.val = data.val)
    (hmin : min'.val = min.val) (hmax : max'.val = max.val) :
    w.writeInt e t data min max = w.writeInt e u data' min' max' := by
  rw [writeInt, writeInt, doWrite, doWrite, hdata, hmin, hmax]
  by_cases hv : max.val ≤ min.val ∨ data.val < min.val ∨ max.val < data.val
  · obtain hv | hv := hv <;> simp only [hv, true_and, if_true]
  have hbits : u.rangeBits min' max' = t.rangeBits min max := by
    rw [t.rangeBits_eq min max (by omega), u.rangeBits_eq min' max' (by omega), hmin, hmax]
  have ht := t.toNat_offset data min (by omega)
  have hu := u.toNat_offset data' min' (by omega)
  have hltt := t.offset_lt data min max (by omega) (by omega)
  have hvalue : ((u.offset data' min').setWidth 64 : ScratchType) =
      (t.offset data min).setWidth 64 := by
    apply BitVec.eq_of_toNat_eq
    rw [u.toNat_widen, t.toNat_widen]
    omega
  simp only [hbits, hvalue]
  rw [pushValue_eq_halves w t _ _ (t.rangeBits_le min max) (by rw [t.toNat_widen]; exact hltt),
    pushValue_eq_halves w u _ _ (by rw [← hbits]; exact u.rangeBits_le min' max')
      (by rw [t.toNat_widen]; exact hltt)]

end

section
open BitStreamReader

theorem BitStreamReader.takeHalves_of_le (r : BitStreamReader) (n : Nat) (hn : n ≤ 32) :
    r.takeHalves e n = r.takeScratch e n := by
  simp only [takeHalves, Nat.min_eq_left hn, Nat.sub_self]
  cases r.takeScratch e n <;> rfl

theorem BitStreamReader.takeValue_eq_halves (r : BitStreamReader) (t : IntType) (n : Nat)
    (hn : n ≤ t.bits) : r.takeValue e t n = r.takeHalves e n := by
  rw [takeValue]
  by_cases hbig : t.isBig = true
  · rw [if_pos hbig]
  · rw [if_neg hbig]
    simp only [IntType.isBig, decide_eq_true_eq] at hbig
    exact (r.takeHalves_of_le n (by omega)).symm

/-- The halves of a field that is there make the number at the cursor. -/
theorem BitStreamReader.takeHalves_at (r : BitStreamReader) (h : r.Synced e) (n : Nat)
    (hn : n ≤ 64) (hroom : n ≤ (r.logicalRest e).length) :
    ∃ r₁ v, r.takeHalves e n = .ok (r₁, v) ∧ r₁.fail = r.fail ∧
      v.toNat = fieldAt (memoryBits e r.words) r.usedBits.toNat n := by
  obtain ⟨hahead, htake⟩ := take_ahead r h n hroom
  obtain ⟨r₁, v, hr₁, hv, hmoved⟩ := takeHalves_spec (e := e) r h.toWindowed n hn hahead
  rw [htake, toNat_take_logicalRest r h n hroom] at hv
  exact ⟨r₁, v, hr₁, hmoved.fail, hv⟩

/-- A checked read of a raw field within the range: the number comes from the halves,
the type takes no part in it. -/
theorem BitStreamReader.readInt_of_raw (r r₁ : BitStreamReader) (hf : r.fail = false) (t : IntType)
    (data min max : t.Value) (hlt : min.val < max.val) (n : Nat)
    (hn : bitWidth (max.val - min.val).toNat = n)
    (hroom : ¬ r.logicalTotalBits < r.logicalUsedBits + BitVec.ofNat 32 n) (v : ScratchType)
    (htake : r.takeHalves e n = .ok (r₁, v)) (hraw : (v.toNat : Int) ≤ max.val - min.val) :
    ∃ x, r.readInt e t data min max =
        .ok ({ r₁ with logicalUsedBits := r₁.logicalUsedBits + BitVec.ofNat 32 n }, x) ∧
      x.val = min.val + v.toNat := by
  have hbits := t.rangeBits_eq min max hlt.le
  have hle := t.rangeBits_le min max
  rw [hn] at hbits
  rw [hbits] at hle
  have hrange := t.range_lt
  have hmin := min.property
  have hmax := max.property
  have hcast : ((2 ^ t.bits : Nat) : Int) = 2 ^ t.bits := by push_cast; rfl
  have hv : (t.restore (v.setWidth t.bits) min).val = min.val + v.toNat := by
    rw [t.restore_eq, BitVec.toNat_setWidth, Nat.mod_eq_of_lt (by omega)]
    exact t.wrap_of_mem _ (by omega) (by omega)
  refine ⟨t.restore (v.setWidth t.bits) min, ?_, hv⟩
  rw [readInt, doRead]
  simp only [hf, hbits, Bool.false_eq_true, and_false, if_false, true_and]
  rw [if_neg (by omega), if_neg hroom, takeValue_eq_halves r t n hle, htake]
  simp only [Run.bind_ok]
  rw [if_neg (by omega)]
  rfl

/-- Two types that can hold the range read alike, as long as the raw field is in it. -/
theorem BitStreamReader.readInt_eq (r : BitStreamReader)
    (h : r.fail = false → r.Sound e ∧ r.logicalTotalBits.toNat ≤ 8 * gnsMaxMsgRecvSize)
    (t u : IntType) (x min max : t.Value) (y min' max' : u.Value) (hmin : min'.val = min.val)
    (hmax : max'.val = max.val)
    (hraw : r.usedBits.toNat + bitWidth (max.val - min.val).toNat ≤ r.totalBits.toNat →
      (fieldAt (memoryBits e r.words) r.usedBits.toNat (bitWidth (max.val - min.val).toNat) : Int) ≤
        max.val - min.val) :
    ∃ r' x' y', r.readInt e t x min max = .ok (r', x') ∧ r.readInt e u y min' max' = .ok (r', y') ∧
      (r'.fail = false → x'.val = y'.val) ∧ (r'.fail = true → x' = x ∧ y' = y) := by
  have rejected (r' : BitStreamReader) (hf : r'.fail = true)
      (hx : r.readInt e t x min max = .ok (r', x)) (hy : r.readInt e u y min' max' = .ok (r', y)) :
      ∃ r' x' y', r.readInt e t x min max = .ok (r', x') ∧
        r.readInt e u y min' max' = .ok (r', y') ∧
        (r'.fail = false → x'.val = y'.val) ∧ (r'.fail = true → x' = x ∧ y' = y) :=
    ⟨r', x, y, hx, hy, fun hno => absurd (hf.symm.trans hno) (by simp), fun _ => ⟨rfl, rfl⟩⟩
  by_cases hf : r.fail = true
  · exact rejected r hf (by simp [readInt, doRead, hf]) (by simp [readInt, doRead, hf])
  have hf : r.fail = false := by simpa using hf
  obtain ⟨hsound, ht⟩ := h hf
  have hs := hsound.synced hf
  by_cases hlt : max.val ≤ min.val
  · exact rejected { r with fail := true } rfl (by simp [readInt, doRead, hf, hlt])
      (by simp [readInt, doRead, hf, hmin, hmax, hlt])
  have hn := t.rangeBits_eq min max (by omega)
  have hn' := u.rangeBits_eq min' max' (by omega)
  have hle := t.rangeBits_le min max
  have h64 := t.bits_le
  have hu := hs.used_le
  have hlack := field_lack_iff r hs ht t min max
  rw [hmin, hmax] at hn'
  generalize hwidth : bitWidth (max.val - min.val).toNat = n at hn hn' hraw
  rw [hn] at hlack
  by_cases hshort : r.logicalTotalBits < r.logicalUsedBits + BitVec.ofNat 32 n
  · exact rejected { r with fail := true } rfl
      (by simp [readInt, doRead, hf, hlt, hn, hshort])
      (by simp [readInt, doRead, hf, hmin, hmax, hlt, hn', hshort])
  have hroom : n ≤ (r.logicalRest e).length := by
    by_contra hno
    exact hshort (hlack.mpr (by omega))
  obtain ⟨r₁, v, hr₁, hf₁, hv⟩ := takeHalves_at r hs n (by omega) hroom
  have hin : r.usedBits.toNat + n ≤ r.totalBits.toNat := by
    have hl := length_logicalRest r hs
    have hu' : r.usedBits.toNat = r.logicalUsedBits.toNat := rfl
    have ht' : r.totalBits.toNat = r.logicalTotalBits.toNat := rfl
    omega
  have hfit := hraw hin
  rw [← hv] at hfit
  obtain ⟨x', hx', hvx⟩ := readInt_of_raw r r₁ hf t x min max (by omega) n hwidth hshort v hr₁ hfit
  obtain ⟨y', hy', hvy⟩ := readInt_of_raw r r₁ hf u y min' max' (by omega) n
    (by rw [hmin, hmax]; exact hwidth) hshort v hr₁ (by omega)
  exact ⟨_, x', y', hx', hy', fun _ => by omega,
    fun hno => absurd (hno.symm.trans (hf₁.trans hf)) (by simp)⟩

end

/-- Two integral types that can hold the same numbers are interchangeable: what one
writes the other would have written, and what one reads the other would have read, as
long as the raw field is one a writer could have written. -/
theorem type_independent (e : Endian) (t u : IntType) (data min max : t.Value)
    (data' min' max' : u.Value) (hdata : data'.val = data.val) (hmin : min'.val = min.val)
    (hmax : max'.val = max.val) :
    (∀ (w₀ : BitStreamWriter) (span : WordSpan) (L : SizeType), L.toNat ≤ gnsMaxMsgRecvSize →
      ∀ ops : List WriterOp, (∀ op ∈ ops, op.WithinLimits) →
      ∀ w, BitStreamWriter.runOps e ops (w₀.resetWith span L) = .ok w →
      ∃ w', w.writeInt e t data min max = .ok w' ∧ w.writeInt e u data' min' max' = .ok w') ∧
    (∀ (r₀ : BitStreamReader) (span : WordSpan) (L : SizeType), L.toNat ≤ gnsMaxMsgRecvSize →
      ∀ ops : List ReaderOp, (∀ op ∈ ops, op.WithinLimits) →
      ∀ r, BitStreamReader.runOps e ops (r₀.resetWith span L) = .ok r →
      (r.usedBits.toNat + bitWidth (max.val - min.val).toNat ≤ r.totalBits.toNat →
        (fieldAt (memoryBits e r.words) r.usedBits.toNat (bitWidth (max.val - min.val).toNat) : Int) ≤
          max.val - min.val) →
      ∀ (x : t.Value) (y : u.Value), ∃ r' x' y', r.readInt e t x min max = .ok (r', x') ∧
        r.readInt e u y min' max' = .ok (r', y') ∧
        (r'.fail = false → x'.val = y'.val) ∧ (r'.fail = true → x' = x ∧ y' = y)) := by
  refine ⟨fun w₀ span L hL ops hops w hw => ?_, fun r₀ span L hL ops hops r hr hraw x y => ?_⟩
  · obtain ⟨w', hw', -⟩ := (WriteCall.int t data min max).exec_of_reachable hL hops hw trivial
    exact ⟨w', hw', (w.writeInt_eq t u data min max data' min' max' hdata hmin hmax).symm.trans hw'⟩
  · exact r.readInt_eq (reachable_sound hL hops hr) t u x min max y min' max' hmin
      hmax hraw

/-- A flag and a 64-bit number. -/
theorem type_independent_flag :
    (∃ w', ((default : BitStreamWriter).resetWith ⟨false, [0]⟩ 4).writeInt .little .bool
        ⟨1, by decide⟩ ⟨0, by decide⟩ ⟨1, by decide⟩ = .ok w' ∧
      ((default : BitStreamWriter).resetWith ⟨false, [0]⟩ 4).writeInt .little (.signed .w64)
        ⟨1, by decide⟩ ⟨0, by decide⟩ ⟨1, by decide⟩ = .ok w') ∧
    ∃ r' x' y', ((default : BitStreamReader).resetWith ⟨false, [1]⟩ 4).readInt .little .bool
        ⟨0, by decide⟩ ⟨0, by decide⟩ ⟨1, by decide⟩ = .ok (r', x') ∧
      ((default : BitStreamReader).resetWith ⟨false, [1]⟩ 4).readInt .little (.signed .w64)
        ⟨-7, by decide⟩ ⟨0, by decide⟩ ⟨1, by decide⟩ = .ok (r', y') ∧ x'.val = y'.val := by
  obtain ⟨hwrite, hread⟩ := type_independent .little .bool (.signed .w64) ⟨1, by decide⟩
    ⟨0, by decide⟩ ⟨1, by decide⟩ ⟨1, by decide⟩ ⟨0, by decide⟩ ⟨1, by decide⟩ rfl rfl rfl
  refine ⟨hwrite default ⟨false, [0]⟩ 4 (by decide) [] (by simp) _ rfl, ?_⟩
  obtain ⟨r', x', y', hx, hy, hsame, -⟩ := hread default ⟨false, [1]⟩ 4 (by decide) [] (by simp) _ rfl
    (by decide) ⟨0, by decide⟩ ⟨-7, by decide⟩
  obtain ⟨rfl, -⟩ := Run.ok_unique_pair hx rfl
  exact ⟨_, x', y', hx, hy, hsame (by decide)⟩

end Nalchi
