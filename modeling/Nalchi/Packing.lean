import Nalchi.Format

/-! The writer packs: every step appends the bits it should to what has been
written so far, inside the span and without losing a bit of the scratch. -/
namespace Nalchi.BitStreamWriter
variable {e : Endian}

/-- The bits written so far: whole words in memory, the rest in the scratch. -/
def written (e : Endian) (w : BitStreamWriter) : List Bool :=
  memoryBits e (w.words.take w.wordsIndex.toNat) ++
    Bits.ofNat w.scratchIndex.toNat w.scratch.toNat

/-- The bit the next field goes to. -/
def position (w : BitStreamWriter) : Int := 32 * w.wordsIndex + w.scratchIndex

/-- The scratch holds less than a word, with nothing above its index. -/
structure Aligned (w : BitStreamWriter) : Prop where
  wordsIndex_nonneg : 0 ≤ w.wordsIndex
  wordsIndex_le : w.wordsIndex ≤ w.words.length
  index_nonneg : 0 ≤ w.scratchIndex
  index_lt : w.scratchIndex < 32
  scratch_lt : w.scratch.toNat < 2 ^ w.scratchIndex.toNat

/-- `w'` is `w` with `bs` packed behind what was written, and nothing else done. -/
structure Extends (e : Endian) (w w' : BitStreamWriter) (bs : List Bool) : Prop where
  aligned : w'.Aligned
  written : w'.written e = w.written e ++ bs
  position : w'.position = w.position + bs.length
  index_mono : w.wordsIndex ≤ w'.wordsIndex
  length : w'.words.length = w.words.length
  later : w'.words.drop w'.wordsIndex.toNat = w.words.drop w'.wordsIndex.toNat
  total : w'.logicalTotalBits = w.logicalTotalBits
  initFail : w'.initFail = w.initFail
  fail : w'.fail = w.fail
  finalFlushed : w'.finalFlushed = w.finalFlushed

theorem Extends.refl {w : BitStreamWriter} (h : w.Aligned) : Extends e w w [] := by
  constructor <;> simp [h]

theorem Extends.trans {u v w : BitStreamWriter} {as bs : List Bool}
    (h : Extends e u v as) (h' : Extends e v w bs) : Extends e u w (as ++ bs) where
  aligned := h'.aligned
  written := by rw [h'.written, h.written, List.append_assoc]
  position := by rw [h'.position, h.position, List.length_append]; push_cast; ring
  index_mono := h.index_mono.trans h'.index_mono
  length := h'.length.trans h.length
  later := by
    have hm := h'.index_mono
    have hv := h.aligned.wordsIndex_nonneg
    obtain ⟨k, hk⟩ : ∃ k, w.wordsIndex.toNat = v.wordsIndex.toNat + k :=
      ⟨w.wordsIndex.toNat - v.wordsIndex.toNat, by omega⟩
    rw [h'.later, hk, ← List.drop_drop, h.later, List.drop_drop]
  total := h'.total.trans h.total
  initFail := h'.initFail.trans h.initFail
  fail := h'.fail.trans h.fail
  finalFlushed := h'.finalFlushed.trans h.finalFlushed

/-- `Extends` does not look at the used bits, which are counted separately. -/
theorem Extends.setUsed {w w' : BitStreamWriter} {bs : List Bool} (h : Extends e w w' bs)
    (n : SizeType) : Extends e w { w' with logicalUsedBits := n } bs :=
  ⟨⟨h.1.1, h.1.2, h.1.3, h.1.4, h.1.5⟩, h.2, h.3, h.4, h.5, h.6, h.7, h.8, h.9, h.10⟩

/-- A flush moves the low word of the scratch to memory. -/
theorem doFlushWordUnchecked_eq (w : BitStreamWriter) (h0 : 0 ≤ w.wordsIndex)
    (h1 : w.wordsIndex < w.words.length) :
    w.doFlushWordUnchecked e = .ok { w with
      words := w.words.set w.wordsIndex.toNat (e.swap (BitVec.ofNat 32 w.scratch.toNat))
      wordsIndex := w.wordsIndex + 1
      scratch := w.scratch >>> 32
      scratchIndex := max 0 (w.scratchIndex - 32) } := by
  have hw : ((w.scratch <<< 32) >>> 32).setWidth 32 = BitVec.ofNat 32 w.scratch.toNat := by
    apply BitVec.eq_of_toNat_eq
    rw [BitVec.toNat_setWidth, toNat_low_half, BitVec.toNat_ofNat, Nat.mod_mod]
  rw [doFlushWordUnchecked, hw, storeWord, if_pos ⟨h0, h1⟩]
  rfl

theorem take_set_succ {α : Type*} (xs : List α) (i : Nat) (x : α) (h : i < xs.length) :
    (xs.set i x).take (i + 1) = xs.take i ++ [x] := by
  rw [List.take_add_one, List.take_set_of_le (le_refl i), List.getElem?_set_self h]
  rfl

/-- The words in memory after a flush, as bits. -/
theorem memoryBits_flush (ws : List WordType) (i x : Nat) (h : i < ws.length) :
    memoryBits e ((ws.set i (e.swap (BitVec.ofNat 32 x))).take (i + 1)) =
      memoryBits e (ws.take i) ++ Bits.ofNat 32 x := by
  rw [take_set_succ _ _ _ h, memoryBits_append, memoryBits_cons, Endian.swap_swap,
    BitVec.toNat_ofNat, Bits.ofNat_mod, memoryBits_nil, List.append_nil]

/-- One push of at most a word of bits, where the span has room for them. -/
theorem pushScratch_spec (w : BitStreamWriter) (h : w.Aligned) (v : ScratchType) (n : Nat)
    (hn : n ≤ 32) (hv : v.toNat < 2 ^ n) (hroom : w.position + n ≤ 32 * w.words.length) :
    ∃ w', w.pushScratch e v n = .ok w' ∧ w'.logicalUsedBits = w.logicalUsedBits ∧
      Extends e w w' (Bits.ofNat n v.toNat) := by
  obtain ⟨h0, h1, h2, h3, h4⟩ := h
  have hor := toNat_or_shift w.scratch v w.scratchIndex.toNat n (by omega) h4 hv
  have hlt := pack_lt h4 hv
  have hpack := Bits.ofNat_pack w.scratchIndex.toNat n w.scratch.toNat v.toNat h4
  rw [← hor] at hlt hpack
  have hshift : 0 ≤ w.scratchIndex ∧ w.scratchIndex < 64 := by omega
  simp only [pushScratch, shiftScratch, if_pos hshift, Run.bind_ok, flushIfScratchOverflow]
  generalize w.scratch ||| v <<< w.scratchIndex.toNat = x at hlt hpack ⊢
  simp only [position] at hroom
  by_cases hover : 32 ≤ w.scratchIndex + n
  · -- The scratch runs over: its low word becomes the next word of the buffer.
    have hflush := doFlushWordUnchecked_eq (e := e)
      { w with scratch := x, scratchIndex := w.scratchIndex + n } h0 (by dsimp only; omega)
    rw [if_pos hover, hflush]
    have hx : (x >>> 32).toNat = x.toNat / 2 ^ 32 := by
      rw [BitVec.toNat_ushiftRight, Nat.shiftRight_eq_div_pow]
    have hi : (w.wordsIndex + 1).toNat = w.wordsIndex.toNat + 1 := by omega
    have hs : (max 0 (w.scratchIndex + n - 32)).toNat = w.scratchIndex.toNat + n - 32 := by omega
    refine ⟨_, rfl, rfl, ⟨by dsimp only; omega, by simp; omega, by dsimp only; omega,
      by dsimp only; omega, ?_⟩, ?_, ?_, by dsimp only; omega, by simp, ?_, rfl, rfl, rfl, rfl⟩
    · dsimp only
      rw [hx, hs]
      apply Nat.div_lt_of_lt_mul
      rwa [← pow_add, Nat.add_sub_cancel' (by omega)]
    · have hsplit := Bits.ofNat_add 32 (w.scratchIndex.toNat + n - 32) x.toNat
      rw [Nat.add_sub_cancel' (by omega)] at hsplit
      simp only [written]
      rw [hi, memoryBits_flush _ _ _ (by omega), hx, hs, List.append_assoc, ← hsplit, hpack,
        List.append_assoc]
    · simp only [position, Bits.length_ofNat]
      omega
    · dsimp only
      rw [hi, List.drop_set_of_lt (by omega)]
  · rw [if_neg hover]
    refine ⟨_, rfl, rfl, ⟨h0, h1, by dsimp only; omega, by dsimp only; omega, ?_⟩, ?_, ?_, le_refl _,
      rfl, rfl, rfl, rfl, rfl, rfl⟩
    · dsimp only
      rwa [Int.toNat_add h2 (by omega), Int.toNat_natCast]
    · simp only [written]
      rw [Int.toNat_add h2 (by omega), Int.toNat_natCast, hpack, List.append_assoc]
    · simp only [position, Bits.length_ofNat]
      omega

/-- The two halves of a 64-bit value land where the whole would. -/
theorem pushHalves_spec (w : BitStreamWriter) (h : w.Aligned) (v : ScratchType) (n : Nat)
    (hn : n ≤ 64) (hv : v.toNat < 2 ^ n) (hroom : w.position + n ≤ 32 * w.words.length) :
    ∃ w', w.pushHalves e v n = .ok w' ∧ w'.logicalUsedBits = w.logicalUsedBits ∧
      Extends e w w' (Bits.ofNat n v.toNat) := by
  have hlow := toNat_low_half_lt v hv
  obtain ⟨w₁, hw₁, hu₁, hx₁⟩ := pushScratch_spec (e := e) w h _ (min n 32) (by omega) hlow
    (by omega)
  have hbits : Bits.ofNat (min n 32) ((v <<< 32) >>> 32).toNat = Bits.ofNat (min n 32) v.toNat := by
    rw [toNat_low_half]
    obtain hle | hle := Nat.le_total n 32
    · rw [Nat.mod_eq_of_lt (hv.trans_le (Nat.pow_le_pow_right (by omega) hle))]
    · rw [Nat.min_eq_right hle, Bits.ofNat_mod]
  rw [hbits] at hx₁
  simp only [pushHalves, hw₁, Run.bind_ok]
  by_cases hhigh : 0 < n - min n 32
  · have hmin : min n 32 = 32 := by omega
    have hv₂ : (v >>> 32).toNat < 2 ^ (n - min n 32) :=
      toNat_high_half_lt v (by rwa [hmin, Nat.add_sub_cancel' (by omega)])
    obtain ⟨w₂, hw₂, hu₂, hx₂⟩ := pushScratch_spec (e := e) w₁ hx₁.aligned _ _ (by omega) hv₂
      (by rw [hx₁.position, hx₁.length, Bits.length_ofNat]; omega)
    have hsplit := Bits.ofNat_add 32 (n - 32) v.toNat
    rw [Nat.add_sub_cancel' (by omega)] at hsplit
    refine ⟨w₂, by rw [if_pos hhigh, hw₂], hu₂.trans hu₁, ?_⟩
    rw [hsplit, ← toNat_high_half]
    rw [hmin] at hx₁ hx₂
    exact hx₁.trans hx₂
  · rw [if_neg hhigh]
    have hmin : min n 32 = n := by omega
    rw [hmin] at hx₁
    exact ⟨w₁, rfl, hu₁, hx₁⟩

/-- The representation between two writes: the used bits count what is packed,
within the logical length, which is within the span. -/
structure Packed (w : BitStreamWriter) : Prop extends Aligned w where
  used_eq : (w.logicalUsedBits.toNat : Int) = w.position
  used_le : w.logicalUsedBits.toNat ≤ w.logicalTotalBits.toNat
  capacity : w.logicalTotalBits.toNat ≤ 32 * w.words.length
  total_mod : w.logicalTotalBits.toNat % 8 = 0

/-- A successful write: `bs` is packed and counted. -/
structure Appended (e : Endian) (w w' : BitStreamWriter) (bs : List Bool) : Prop where
  toExtends : Extends e w w' bs
  packed : w'.Packed

theorem Appended.refl {w : BitStreamWriter} (h : w.Packed) : Appended e w w [] :=
  ⟨Extends.refl h.toAligned, h⟩

theorem Appended.trans {u v w : BitStreamWriter} {as bs : List Bool}
    (h : Appended e u v as) (h' : Appended e v w bs) : Appended e u w (as ++ bs) :=
  ⟨h.toExtends.trans h'.toExtends, h'.packed⟩

theorem Appended.used {w w' : BitStreamWriter} {bs : List Bool} (h : Appended e w w' bs)
    (hw : w.Packed) : w'.logicalUsedBits.toNat = w.logicalUsedBits.toNat + bs.length := by
  have h1 := h.packed.used_eq
  have h2 := hw.used_eq
  have h3 := h.toExtends.position
  omega

theorem fieldBits_eq (t : IntType) (data min max : t.Value) (h1 : min.val ≤ data.val)
    (h2 : data.val ≤ max.val) : fieldBits data.val min.val max.val =
      Bits.ofNat (t.rangeBits min max) (t.offset data min).toNat := by
  rw [fieldBits, t.rangeBits_eq min max (h1.trans h2), ← t.toNat_offset data min h1,
    Int.toNat_natCast]

/-- Either template appends the field, given that it fits. -/
theorem doWrite_unchecked (w : BitStreamWriter) (h : w.Packed) (t : IntType)
    (data min max : t.Value) (h1 : min.val ≤ data.val) (h2 : data.val ≤ max.val)
    (hfit : w.logicalUsedBits.toNat + t.rangeBits min max ≤ w.logicalTotalBits.toNat) :
    ∃ w', w.doWrite e false t data min max = .ok w' ∧
      Appended e w w' (fieldBits data.val min.val max.val) := by
  have hbits := t.rangeBits_le min max
  have h64 := t.bits_le
  have hoff := t.offset_lt data min max h1 h2
  have hcap := h.capacity
  have hused := h.used_eq
  have hv := t.toNat_widen (t.offset data min)
  have hpush : ∃ w', w.pushValue e t ((t.offset data min).setWidth 64) (t.rangeBits min max) =
        .ok w' ∧
      w'.logicalUsedBits = w.logicalUsedBits ∧
      Extends e w w' (fieldBits data.val min.val max.val) := by
    rw [fieldBits_eq t data min max h1 h2, ← hv, pushValue]
    rw [← hv] at hoff
    by_cases hbig : t.isBig = true
    · rw [if_pos hbig]
      exact pushHalves_spec w h.toAligned _ _ (by omega) hoff (by omega)
    · rw [if_neg hbig]
      simp only [IntType.isBig, decide_eq_true_eq] at hbig
      exact pushScratch_spec w h.toAligned _ _ (by omega) hoff (by omega)
  obtain ⟨w', hw', hu, hx⟩ := hpush
  have hlen : (fieldBits data.val min.val max.val).length = t.rangeBits min max := by
    rw [length_fieldBits, t.rangeBits_eq min max (h1.trans h2)]
  have hadd : (w.logicalUsedBits + BitVec.ofNat 32 (t.rangeBits min max)).toNat =
      w.logicalUsedBits.toNat + t.rangeBits min max := by
    have ht := w.logicalTotalBits.isLt
    rw [BitVec.toNat_add, BitVec.toNat_ofNat]
    omega
  refine ⟨_, ?_, hx.setUsed (w.logicalUsedBits + BitVec.ofNat 32 (t.rangeBits min max)), ?_⟩
  · simp only [doWrite, Bool.false_eq_true, false_and, if_false]
    rw [hw', Run.bind_ok, hu]
    rfl
  · have hp := hx.position
    exact ⟨(hx.setUsed _).aligned, by dsimp only [position] at *; omega,
      by dsimp only; rw [hadd, hx.total]; exact hfit,
      by dsimp only; rw [hx.total, hx.length]; exact hcap,
      by dsimp only; rw [hx.total]; exact h.total_mod⟩

end Nalchi.BitStreamWriter
