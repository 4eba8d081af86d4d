import Nalchi.Format

/-! The reader's scratch is a window on the buffer: taking bits off it takes them
off the front of everything the reader still has ahead. -/
namespace Nalchi.BitStreamReader
variable {e : Endian}

/-- The bits not read yet: those in the scratch, then the words not fetched. -/
def ahead (e : Endian) (r : BitStreamReader) : List Bool :=
  Bits.ofNat r.scratchBits.toNat r.scratch.toNat ++ memoryBits e (r.words.drop r.wordsIndex.toNat)

/-- Between two reads the scratch holds less than a word, with nothing above it. -/
structure Windowed (r : BitStreamReader) : Prop where
  wordsIndex_nonneg : 0 ≤ r.wordsIndex
  bits_nonneg : 0 ≤ r.scratchBits
  bits_lt : r.scratchBits < 32
  scratch_lt : r.scratch.toNat < 2 ^ r.scratchBits.toNat

/-- `r'` is `r` with `n` bits taken off the front. -/
structure Takes (e : Endian) (r r' : BitStreamReader) (n : Nat) : Prop where
  windowed : r'.Windowed
  ahead : r'.ahead e = (r.ahead e).drop n
  words : r'.words = r.words
  total : r'.logicalTotalBits = r.logicalTotalBits
  used : r'.logicalUsedBits = r.logicalUsedBits
  initFail : r'.initFail = r.initFail
  fail : r'.fail = r.fail

theorem Takes.trans {u v w : BitStreamReader} {m n : Nat} (h : Takes e u v m)
    (h' : Takes e v w n) : Takes e u w (m + n) where
  windowed := h'.windowed
  ahead := by rw [h'.ahead, h.ahead, List.drop_drop]
  words := h'.words.trans h.words
  total := h'.total.trans h.total
  used := h'.used.trans h.used
  initFail := h'.initFail.trans h.initFail
  fail := h'.fail.trans h.fail

/-- Masking, on numbers. -/
theorem toNat_mask (x : ScratchType) (n : Nat) (hn : n < 64) :
    (x &&& (((1 : ScratchType) <<< n) - 1)).toNat = x.toNat % 2 ^ n := by
  have hpos := Nat.two_pow_pos n
  have hlt : 2 ^ n < 2 ^ 64 := Nat.pow_lt_pow_right (by omega) hn
  have h1 : (1 : ScratchType).toNat = 1 := rfl
  have hshift : ((1 : ScratchType) <<< n).toNat = 2 ^ n := by
    rw [BitVec.toNat_shiftLeft, Nat.shiftLeft_eq, h1, Nat.one_mul, Nat.mod_eq_of_lt hlt]
  have hm : (((1 : ScratchType) <<< n) - 1).toNat = 2 ^ n - 1 := by
    rw [BitVec.toNat_sub, hshift, h1]
    omega
  rw [BitVec.toNat_and, hm, Nat.and_two_pow_sub_one_eq_mod]

/-- A fetch leaves what is ahead as it is, with a word of it moved to the scratch. -/
theorem doFetchWordUnchecked_spec (r : BitStreamReader) (h : r.Windowed)
    (hlt : r.wordsIndex < r.words.length) :
    ∃ x : ScratchType, r.doFetchWordUnchecked e = .ok { r with
        wordsIndex := r.wordsIndex + 1
        scratch := x
        scratchBits := r.scratchBits + 32 } ∧
      x.toNat < 2 ^ (r.scratchBits.toNat + 32) ∧
      r.ahead e = Bits.ofNat (r.scratchBits.toNat + 32) x.toNat ++
        memoryBits e (r.words.drop (r.wordsIndex.toNat + 1)) := by
  obtain ⟨h0, h1, h2, h3⟩ := h
  have hi : r.wordsIndex.toNat < r.words.length := by omega
  have hw : ((e.swap r.words[r.wordsIndex.toNat]).setWidth 64 : ScratchType).toNat =
      (e.swap r.words[r.wordsIndex.toNat]).toNat := by
    rw [BitVec.toNat_setWidth]
    exact Nat.mod_eq_of_lt ((e.swap _).isLt.trans (by decide))
  have hv := (e.swap r.words[r.wordsIndex.toNat]).isLt
  rw [← hw] at hv
  have hor := toNat_or_shift r.scratch _ r.scratchBits.toNat 32 (by omega) h3 hv
  refine ⟨_, ?_, by rw [hor]; exact pack_lt h3 hv, ?_⟩
  · have hshift : 0 ≤ r.scratchBits ∧ r.scratchBits < 64 := by omega
    rw [doFetchWordUnchecked, loadWord, if_pos h0, List.getElem?_eq_getElem hi]
    simp only [Run.bind_ok, shiftScratch, if_pos hshift]
    rfl
  · rw [hor, Bits.ofNat_pack _ _ _ _ h3, hw, ahead, List.drop_eq_getElem_cons hi,
      memoryBits_cons, List.append_assoc]

/-- Bits already in the scratch are taken off its low end. -/
theorem take_scratch (r : BitStreamReader) (x : ScratchType) (s i n : Nat) (hx : x.toNat < 2 ^ s)
    (hn : n ≤ s) (hs : s < n + 32) (hn32 : n ≤ 32)
    (hahead : r.ahead e = Bits.ofNat s x.toNat ++ memoryBits e (r.words.drop i)) :
    (x &&& (((1 : ScratchType) <<< n) - 1)).toNat = Bits.toNat ((r.ahead e).take n) ∧
      Takes e r { r with wordsIndex := i, scratch := x >>> n, scratchBits := s - n } n := by
  have hsplit := Bits.ofNat_add n (s - n) x.toNat
  rw [Nat.add_sub_cancel' hn] at hsplit
  rw [hsplit, List.append_assoc] at hahead
  have hsub : ((s : Int) - n).toNat = s - n := by omega
  have hx' : (x >>> n).toNat = x.toNat / 2 ^ n := by
    rw [BitVec.toNat_ushiftRight, Nat.shiftRight_eq_div_pow]
  refine ⟨?_, ⟨⟨by dsimp only; omega, by dsimp only; omega, by dsimp only; omega, ?_⟩, ?_, rfl,
    rfl, rfl, rfl, rfl⟩⟩
  · rw [hahead, List.take_left' (by simp), Bits.toNat_ofNat, toNat_mask x n (by omega)]
  · dsimp only
    rw [hsub, hx']
    apply Nat.div_lt_of_lt_mul
    rwa [← pow_add, Nat.add_sub_cancel' hn]
  · rw [hahead, List.drop_left' (by simp), ahead]
    dsimp only
    rw [hsub, hx', Int.toNat_natCast]

/-- One take of at most a word, when there is that much ahead. -/
theorem takeScratch_spec (r : BitStreamReader) (h : r.Windowed) (n : Nat) (hn : n ≤ 32)
    (hlen : n ≤ (r.ahead e).length) :
    ∃ r' v, r.takeScratch e n = .ok (r', v) ∧ v.toNat = Bits.toNat ((r.ahead e).take n) ∧
      Takes e r r' n := by
  have h0 := h.wordsIndex_nonneg
  have h1 := h.bits_nonneg
  have h2 := h.bits_lt
  by_cases hshort : r.scratchBits < n
  · have hlt : r.wordsIndex < r.words.length := by
      rw [ahead, List.length_append, Bits.length_ofNat, length_memoryBits, List.length_drop] at hlen
      omega
    obtain ⟨x, hfetch, hx, hahead⟩ := doFetchWordUnchecked_spec (e := e) r h hlt
    obtain ⟨hv, ht⟩ := take_scratch r x _ _ n hx (by omega) (by omega) hn hahead
    refine ⟨_, _, ?_, hv, ht⟩
    rw [takeScratch, fetchIfShort, if_pos hshort, hfetch]
    simp only [Run.bind_ok, Run.pure_ok]
    congr 3 <;> omega
  · obtain ⟨hv, ht⟩ := take_scratch (e := e) r r.scratch r.scratchBits.toNat r.wordsIndex.toNat n
      h.scratch_lt (by omega) (by omega) hn rfl
    refine ⟨_, _, ?_, hv, ht⟩
    rw [takeScratch, fetchIfShort, if_neg hshort]
    simp only [Run.bind_ok, Run.pure_ok]
    congr 3 <;> omega

/-- When there is not, the fetch is out of bounds. -/
theorem takeScratch_fault (r : BitStreamReader) (h : r.Windowed) (n : Nat) (hn : n ≤ 32)
    (hlen : (r.ahead e).length < n) : ∃ i, r.takeScratch e n = .error (.wordIndex i) := by
  have h0 := h.wordsIndex_nonneg
  have h1 := h.bits_nonneg
  rw [ahead, List.length_append, Bits.length_ofNat, length_memoryBits, List.length_drop] at hlen
  have hnone : r.words[r.wordsIndex.toNat]? = none := List.getElem?_eq_none (by omega)
  refine ⟨r.wordsIndex, ?_⟩
  rw [takeScratch, fetchIfShort, if_pos (by omega), doFetchWordUnchecked, loadWord, if_pos h0, hnone]
  rfl

/-- A numeral is its low bits and, above them, the rest. -/
theorem toNat_take_add (m n : Nat) (bs : List Bool) (h : m ≤ bs.length) :
    Bits.toNat (bs.take (m + n)) =
      Bits.toNat (bs.take m) + 2 ^ m * Bits.toNat ((bs.drop m).take n) := by
  rw [List.take_add, Bits.toNat_append, List.length_take, Nat.min_eq_left h]

theorem toNat_take_lt (n : Nat) (bs : List Bool) : Bits.toNat (bs.take n) < 2 ^ n :=
  (Bits.toNat_lt _).trans_le (Nat.pow_le_pow_right (by omega) (List.length_take_le n bs))

/-- Two takes make one field of up to 64 bits. -/
theorem takeHalves_spec (r : BitStreamReader) (h : r.Windowed) (n : Nat) (hn : n ≤ 64)
    (hlen : n ≤ (r.ahead e).length) :
    ∃ r' v, r.takeHalves e n = .ok (r', v) ∧ v.toNat = Bits.toNat ((r.ahead e).take n) ∧
      Takes e r r' n := by
  obtain ⟨r₁, low, hr₁, hlow, ht₁⟩ := takeScratch_spec (e := e) r h (min n 32) (by omega) (by omega)
  simp only [takeHalves, hr₁, Run.bind_ok]
  by_cases hhigh : 0 < n - min n 32
  · have hmin : min n 32 = 32 := by omega
    obtain ⟨r₂, high, hr₂, hv, ht₂⟩ := takeScratch_spec (e := e) r₁ ht₁.windowed (n - min n 32)
      (by omega) (by rw [ht₁.ahead, List.length_drop]; omega)
    have hor := toNat_or_shift low high (min n 32) (n - min n 32) (by omega)
      (by rw [hlow]; exact toNat_take_lt _ _) (by rw [hv]; exact toNat_take_lt _ _)
    have hadd := toNat_take_add (min n 32) (n - min n 32) (r.ahead e) (by omega)
    have ht := ht₁.trans ht₂
    rw [Nat.add_sub_cancel' (by omega)] at ht hadd
    refine ⟨r₂, _, by rw [if_pos hhigh, hr₂]; rfl, ?_, ht⟩
    rw [hor, hlow, hv, ht₁.ahead, hadd]
  · rw [if_neg hhigh]
    have hmin : min n 32 = n := by omega
    rw [hmin] at hlow ht₁
    exact ⟨r₁, low, rfl, hlow, ht₁⟩

theorem takeHalves_fault (r : BitStreamReader) (h : r.Windowed) (n : Nat) (hn : n ≤ 64)
    (hlen : (r.ahead e).length < n) : ∃ i, r.takeHalves e n = .error (.wordIndex i) := by
  by_cases hlow : (r.ahead e).length < min n 32
  · obtain ⟨i, hi⟩ := takeScratch_fault (e := e) r h (min n 32) (by omega) hlow
    exact ⟨i, by rw [takeHalves, hi]; rfl⟩
  · obtain ⟨r₁, low, hr₁, -, ht₁⟩ := takeScratch_spec (e := e) r h (min n 32) (by omega) (by omega)
    obtain ⟨i, hi⟩ := takeScratch_fault (e := e) r₁ ht₁.windowed (n - min n 32) (by omega)
      (by rw [ht₁.ahead, List.length_drop]; omega)
    refine ⟨i, ?_⟩
    simp only [takeHalves, hr₁, Run.bind_ok]
    rw [if_pos (by omega), hi]
    rfl

/-- The raw field either template takes, and when there is none to take. -/
theorem takeValue_spec (r : BitStreamReader) (h : r.Windowed) (t : IntType) (n : Nat)
    (hn : n ≤ t.bits) (hlen : n ≤ (r.ahead e).length) :
    ∃ r' v, r.takeValue e t n = .ok (r', v) ∧ v.toNat = Bits.toNat ((r.ahead e).take n) ∧
      Takes e r r' n := by
  have h64 := t.bits_le
  rw [takeValue]
  by_cases hbig : t.isBig = true
  · rw [if_pos hbig]
    exact takeHalves_spec r h n (by omega) hlen
  · rw [if_neg hbig]
    simp only [IntType.isBig, decide_eq_true_eq] at hbig
    exact takeScratch_spec r h n (by omega) hlen

theorem takeValue_fault (r : BitStreamReader) (h : r.Windowed) (t : IntType) (n : Nat)
    (hn : n ≤ t.bits) (hlen : (r.ahead e).length < n) :
    ∃ i, r.takeValue e t n = .error (.wordIndex i) := by
  have h64 := t.bits_le
  rw [takeValue]
  by_cases hbig : t.isBig = true
  · rw [if_pos hbig]
    exact takeHalves_fault r h n (by omega) hlen
  · rw [if_neg hbig]
    simp only [IntType.isBig, decide_eq_true_eq] at hbig
    exact takeScratch_fault r h n (by omega) hlen

/-- A take that succeeds found its bits ahead. -/
theorem takeValue_of_ok {r r' : BitStreamReader} (h : r.Windowed) {t : IntType} {n : Nat}
    (hn : n ≤ t.bits) {v : ScratchType} (hr : r.takeValue e t n = .ok (r', v)) :
    n ≤ (r.ahead e).length ∧ v.toNat = Bits.toNat ((r.ahead e).take n) ∧ Takes e r r' n := by
  by_cases hlen : n ≤ (r.ahead e).length
  · obtain ⟨r₁, v₁, hr₁, hv, ht⟩ := takeValue_spec (e := e) r h t n hn hlen
    obtain ⟨rfl, rfl⟩ := Run.ok_unique_pair hr₁ hr
    exact ⟨hlen, hv, ht⟩
  · obtain ⟨i, hi⟩ := takeValue_fault (e := e) r h t n hn (by omega)
    rw [hi] at hr
    cases hr

/-- The value either template restores from the raw field. -/
theorem restore_take (t : IntType) (n : Nat) (hn : n ≤ t.bits) (bs : List Bool) (v : ScratchType)
    (hv : v.toNat = Bits.toNat (bs.take n)) (min : t.Value) :
    t.restore (v.setWidth t.bits) min = t.cast (min.val + (Bits.toNat (bs.take n) : Nat)) := by
  have hlt := (toNat_take_lt n bs).trans_le (Nat.pow_le_pow_right (by omega) hn)
  rw [t.restore_eq, BitVec.toNat_setWidth, hv, Nat.mod_eq_of_lt hlt]

end Nalchi.BitStreamReader
