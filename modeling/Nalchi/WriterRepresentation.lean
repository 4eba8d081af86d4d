import Nalchi.WriterFailure

/-! The writer's representation: the words, the scratch and the used bits in every
state of every history, and the room the scratch has inside every write. -/
namespace Nalchi
open BitStreamWriter

namespace BitStreamWriter
variable {e : Endian}

/-- What a `do_write` pushes to the scratch, each value with its number of bits: one
push, or one for each half. -/
def pushes (f : Field) : List (ScratchType × Nat) :=
  let value : ScratchType := (f.t.offset f.data f.min).setWidth 64
  let bits := f.t.rangeBits f.min f.max
  let lowBits := min bits 32
  if f.t.isBig then
    ((value <<< 32) >>> 32, lowBits) ::
      if 0 < bits - lowBits then [(value >>> 32, bits - lowBits)] else []
  else [(value, bits)]

/-- One push, as a step. -/
def push (e : Endian) (p : ScratchType × Nat) (w : BitStreamWriter) : Except Fault BitStreamWriter :=
  w.pushScratch e p.1 p.2

/-- The shift of a push is defined and shifts no bit out. -/
def PushFits (p : ScratchType × Nat) (w : BitStreamWriter) : Prop :=
  0 ≤ w.scratchIndex ∧ w.scratchIndex < 64 ∧
    (p.1 <<< w.scratchIndex.toNat) >>> w.scratchIndex.toNat = p.1

/-- A `do_write` past its checks: its pushes, then the bits counted. -/
theorem write_eq_pushes (f : Field) (w : BitStreamWriter) :
    f.write e false w = Run.run (push e) (pushes f) w >>= fun w' => .ok { w' with
      logicalUsedBits := w'.logicalUsedBits + BitVec.ofNat 32 (f.t.rangeBits f.min f.max) } := by
  have hpush : w.pushValue e f.t ((f.t.offset f.data f.min).setWidth 64)
      (f.t.rangeBits f.min f.max) = Run.run (push e) (pushes f) w := by
    rw [pushValue, pushes]
    by_cases hbig : f.t.isBig = true
    · rw [if_pos hbig, if_pos hbig, pushHalves, Run.run]
      by_cases hhigh : 0 < f.t.rangeBits f.min f.max - min (f.t.rangeBits f.min f.max) 32
      · simp only [if_pos hhigh]
        exact congrArg (_ >>= ·) (funext fun w₁ => by rw [Run.run_singleton]; rfl)
      · simp only [if_neg hhigh]
        rfl
    · rw [if_neg hbig, if_neg hbig, Run.run_singleton]
      rfl
  rw [← hpush]
  simp only [Field.write, doWrite, Bool.false_eq_true, false_and, if_false]
  rfl

theorem pushFits_of_lt (w : BitStreamWriter) (h : w.Aligned) (v : ScratchType) (n : Nat)
    (hn : n ≤ 32) (hv : v.toNat < 2 ^ n) : PushFits (v, n) w := by
  have h0 := h.index_nonneg
  have h1 := h.index_lt
  refine ⟨h0, by omega, ?_⟩
  apply BitVec.eq_of_toNat_eq
  dsimp only
  generalize hi : w.scratchIndex.toNat = i
  have hlt : v.toNat * 2 ^ i < 2 ^ 64 :=
    calc v.toNat * 2 ^ i < 2 ^ n * 2 ^ i := Nat.mul_lt_mul_of_pos_right hv (Nat.two_pow_pos i)
      _ = 2 ^ (n + i) := (pow_add 2 n i).symm
      _ ≤ 2 ^ 64 := Nat.pow_le_pow_right (by omega) (by omega)
  rw [BitVec.toNat_ushiftRight, BitVec.toNat_shiftLeft, Nat.shiftLeft_eq,
    Nat.shiftRight_eq_div_pow, Nat.mod_eq_of_lt hlt, Nat.mul_div_cancel _ (Nat.two_pow_pos i)]

/-- Pushes of at most a word each fit one after the other, by induction on them. -/
theorem along_pushFits (ps : List (ScratchType × Nat)) (w : BitStreamWriter) (h : w.Aligned)
    (hp : ∀ p ∈ ps, p.2 ≤ 32 ∧ p.1.toNat < 2 ^ p.2)
    (hroom : w.position + (ps.map Prod.snd).sum ≤ 32 * w.words.length) :
    Run.Along (push e) PushFits ps w := by
  induction ps generalizing w with
  | nil => trivial
  | cons p ps ih =>
    obtain ⟨hn, hv⟩ := hp p (by simp)
    rw [List.map_cons, List.sum_cons, Nat.cast_add] at hroom
    refine ⟨pushFits_of_lt w h p.1 p.2 hn hv, fun w₁ hw₁ => ?_⟩
    obtain ⟨w₁', hw₁', -, hx⟩ := pushScratch_spec (e := e) w h p.1 p.2 hn hv (by omega)
    obtain rfl := Run.ok_unique hw₁' hw₁
    exact ih w₁' hx.aligned (fun q hq => hp q (by simp [hq]))
      (by rw [hx.position, hx.length, Bits.length_ofNat]; omega)

/-- The final flush leaves an empty scratch and every word it took. -/
structure Emptied (w : BitStreamWriter) : Prop where
  scratch : w.scratch = 0
  scratchIndex : w.scratchIndex = 0
  wordsIndex : w.wordsIndex = wordsFor w.logicalUsedBits.toNat

/-- The representation, before a final flush and behind one. -/
structure Represented (w : BitStreamWriter) : Prop where
  sound : w.Sound
  used_le : w.logicalUsedBits.toNat ≤ w.logicalTotalBits.toNat
  emptied : w.finalFlushed = true → w.Emptied

theorem Represented.of_packed {w : BitStreamWriter} (hs : w.Sound) (hfl : w.finalFlushed = false) :
    w.Represented :=
  ⟨hs, (hs.packed hfl).used_le, fun hno => absurd (hfl.symm.trans hno) (by simp)⟩

theorem Represented.setFail {w : BitStreamWriter} (h : w.Represented) :
    Represented { w with fail := true } :=
  ⟨⟨h.sound.initFail, h.sound.capacity, h.sound.total_mod, fun hfl => (h.sound.packed hfl).setFail⟩,
    h.used_le, fun hfl => ⟨(h.emptied hfl).1, (h.emptied hfl).2, (h.emptied hfl).3⟩⟩

theorem flushFinal_represented (w : BitStreamWriter) (hs : w.Sound) (hf : w.fail = false)
    (hfl : w.finalFlushed = false) : ∃ w', w.flushFinal e = .ok w' ∧ w'.Represented := by
  have hp := hs.packed hfl
  obtain ⟨h0, h1, h2, h3, h4⟩ := hp.toAligned
  have hcap := hp.capacity
  have hused := hp.used_eq
  have hle := hp.used_le
  have hpos : w.position = 32 * w.wordsIndex + w.scratchIndex := rfl
  rw [flushFinal, if_neg (by simp [hf]), if_neg (by simp [hfl])]
  by_cases hidx : 0 < w.scratchIndex
  · rw [if_pos hidx, doFlushWordUnchecked_eq w h0 (by omega), Run.bind_ok]
    refine ⟨_, rfl, ⟨hs.initFail, ?_, hs.total_mod, fun hno => absurd hno (by simp)⟩, hle,
      fun _ => ⟨?_, ?_, ?_⟩⟩
    · dsimp only
      rw [List.length_set]
      exact hcap
    · apply BitVec.eq_of_toNat_eq
      have hlt : w.scratch.toNat < 2 ^ 32 :=
        h4.trans_le (Nat.pow_le_pow_right (by omega) (by omega))
      dsimp only
      rw [BitVec.toNat_ushiftRight, Nat.shiftRight_eq_div_pow, Nat.div_eq_of_lt hlt]
      rfl
    · dsimp only
      omega
    · dsimp only
      rw [wordsFor]
      omega
  · have hz : w.scratchIndex = 0 := by omega
    rw [if_neg hidx, Run.bind_ok]
    refine ⟨_, rfl, ⟨hs.initFail, hcap, hs.total_mod, fun hno => absurd hno (by simp)⟩, hle,
      fun _ => ⟨?_, hz, ?_⟩⟩
    · rw [hz] at h4
      apply BitVec.eq_of_toNat_eq
      exact Nat.lt_one_iff.mp h4
    · dsimp only
      rw [wordsFor]
      omega

/-- What every operation keeps. -/
theorem exec_represented (op : WriterOp) (w : BitStreamWriter) (h : w.Represented)
    (hs : op.CheckSound w) : ∃ w', op.exec e w = .ok w' ∧ w'.Represented := by
  cases op with
  | write call =>
    by_cases ha : call.Accepted w
    · obtain ⟨w₁, hw₁, hsound⟩ := (WriterOp.write call).exec_sound (e := e) w h.sound hs
      obtain ⟨w₂, hw₂, ha₂⟩ := call.exec_of_accepted (e := e) w (h.sound.packed ha.2.1) ha
      obtain rfl : w₁ = w₂ := Run.ok_unique hw₁ hw₂
      exact ⟨w₁, hw₁, Represented.of_packed hsound (ha₂.toExtends.finalFlushed.trans ha.2.1)⟩
    · exact ⟨_, call.exec_of_rejected w h.sound ha hs, h.setFail⟩
  | flushFinal =>
    by_cases hclosed : w.fail = true ∨ w.finalFlushed = true
    · exact ⟨w, flushFinal_of_closed w hclosed, h⟩
    · exact flushFinal_represented w h.sound (by simpa using fun hf => hclosed (.inl hf))
        (by simpa using fun hfl => hclosed (.inr hfl))
  | setFail => exact ⟨_, rfl, h.setFail⟩
  | restart =>
    have hp := restart_packed w h.sound.capacity h.sound.total_mod
    exact ⟨_, rfl, Represented.of_packed ⟨h.sound.initFail, h.sound.capacity, h.sound.total_mod,
      fun _ => hp⟩ rfl⟩

theorem runOps_represented {w₀ : BitStreamWriter} {span : WordSpan} {L : SizeType}
    (hb : (w₀.resetWith span L).fail = false) (hL : L.toNat ≤ gnsMaxMsgRecvSize)
    (ops : List WriterOp) (hops : ∀ op ∈ ops, op.WithinLimits) :
    ∃ w, runOps e ops (w₀.resetWith span L) = .ok w ∧ w.Represented ∧
      w.logicalTotalBits.toNat ≤ 8 * gnsMaxMsgRecvSize := by
  refine Run.run_ok (P := fun op _ => op.WithinLimits) ops (fun op w hI hop => ?_)
    ⟨Represented.of_packed (resetWith_sound w₀ span L hb) rfl, total_le_limit hL⟩
    (Run.along_of_forall ops (fun op hop _ => hops op hop) _)
  have hs := op.checkSound_of_withinLimits w hI.1.sound hI.2 hop
  obtain ⟨w', hw', hr⟩ := exec_represented (e := e) op w hI.1 hs
  exact ⟨w', hw', hr, by rw [(op.exec_keeps hw').total]; exact hI.2⟩

/-- The used bits are within the total wherever a history leads, bound or not. -/
theorem used_le_of_runOps {w₀ w : BitStreamWriter} {span : WordSpan} {L : SizeType}
    (hL : L.toNat ≤ gnsMaxMsgRecvSize) {ops : List WriterOp} (hops : ∀ op ∈ ops, op.WithinLimits)
    (hw : runOps e ops (w₀.resetWith span L) = .ok w) :
    w.usedBits.toNat ≤ w.totalBits.toNat := by
  by_cases hb : (w₀.resetWith span L).fail = true
  · have hused : w.usedBits = 0 := (unbound_of_runOps hb hw).2
    rw [hused]
    exact Nat.zero_le _
  · obtain ⟨w', hw', hr, -⟩ := runOps_represented (e := e) (by simpa using hb) hL ops hops
    obtain rfl := Run.ok_unique hw hw'
    exact hr.used_le

end BitStreamWriter

/-- Past its checks the field is written by its pushes, and each finds room in the scratch. -/
structure Field.Lossless (e : Endian) (f : Field) (w : BitStreamWriter) : Prop where
  runs : f.write e false w = Run.run (push e) (pushes f) w >>= fun w' => .ok { w' with
    logicalUsedBits := w'.logicalUsedBits + BitVec.ofNat 32 (f.t.rangeBits f.min f.max) }
  fits : Run.Along (push e) PushFits (pushes f) w

section
variable {e : Endian}

/-- The pushes of a field are of at most a word each, and together as wide as it. -/
theorem pushes_spec (f : Field) (h : f.InRange) :
    (∀ p ∈ pushes f, p.2 ≤ 32 ∧ p.1.toNat < 2 ^ p.2) ∧
      ((pushes f).map Prod.snd).sum = f.t.rangeBits f.min f.max := by
  have hbits := f.t.rangeBits_le f.min f.max
  have h64 := f.t.bits_le
  have hoff := f.t.offset_lt f.data f.min f.max h.2.1 h.2.2
  rw [← f.t.toNat_widen] at hoff
  rw [pushes]
  generalize ((f.t.offset f.data f.min).setWidth 64 : ScratchType) = v at hoff
  generalize f.t.rangeBits f.min f.max = n at hoff hbits
  have hlow := toNat_low_half_lt v hoff
  by_cases hbig : f.t.isBig = true
  · rw [if_pos hbig]
    by_cases hhigh : 0 < n - min n 32
    · have hmin : min n 32 = 32 := by omega
      have hhi : (v >>> 32).toNat < 2 ^ (n - min n 32) :=
        toNat_high_half_lt v (by rwa [hmin, Nat.add_sub_cancel' (by omega)])
      rw [if_pos hhigh]
      refine ⟨fun p hp => ?_, ?_⟩
      · rw [List.mem_cons, List.mem_singleton] at hp
        obtain rfl | rfl := hp
        · exact ⟨by omega, hlow⟩
        · exact ⟨by dsimp only; omega, hhi⟩
      · simp only [List.map_cons, List.map_nil, List.sum_cons, List.sum_nil]
        omega
    · rw [if_neg hhigh]
      refine ⟨fun p hp => ?_, ?_⟩
      · rw [List.mem_singleton] at hp
        rw [hp]
        exact ⟨by omega, hlow⟩
      · simp only [List.map_cons, List.map_nil, List.sum_cons, List.sum_nil]
        omega
  · rw [if_neg hbig]
    simp only [IntType.isBig, decide_eq_true_eq] at hbig
    refine ⟨fun p hp => ?_, ?_⟩
    · rw [List.mem_singleton] at hp
      rw [hp]
      exact ⟨by dsimp only; omega, hoff⟩
    · simp only [List.map_cons, List.map_nil, List.sum_cons, List.sum_nil, Nat.add_zero]

theorem Field.lossless (f : Field) (w : BitStreamWriter) (h : w.Packed) (hr : f.InRange)
    (hfit : w.logicalUsedBits.toNat + f.t.rangeBits f.min f.max ≤ w.logicalTotalBits.toNat) :
    f.Lossless e w := by
  obtain ⟨hp, hsum⟩ := pushes_spec f hr
  have hused := h.used_eq
  have hcap := h.capacity
  exact ⟨write_eq_pushes f w, along_pushFits (pushes f) w h.toAligned hp (by rw [hsum]; omega)⟩

/-- Over every history: the used bits within the total, the indices and the scratch
in step with them before a final flush, nothing left in the scratch behind one, and
no write that overruns the scratch. -/
theorem writer_representation (e : Endian) (w₀ : BitStreamWriter) (span : WordSpan) (L : SizeType)
    (hb : (w₀.resetWith span L).fail = false) (hL : L.toNat ≤ gnsMaxMsgRecvSize)
    (ops : List WriterOp) (hops : ∀ op ∈ ops, op.WithinLimits) :
    ∃ w, runOps e ops (w₀.resetWith span L) = .ok w ∧
      w.usedBits.toNat ≤ w.totalBits.toNat ∧
      w.unusedBits.toNat = w.totalBits.toNat - w.usedBits.toNat ∧
      w.usedBytes.toNat ≤ w.totalBytes.toNat ∧
      w.unusedBytes.toNat = w.totalBytes.toNat - w.usedBytes.toNat ∧
      (w.finalFlushed = false → 0 ≤ w.scratchIndex ∧ w.scratchIndex < 32 ∧
        w.scratch.toNat < 2 ^ w.scratchIndex.toNat ∧
        (w.usedBits.toNat : Int) = 32 * w.wordsIndex + w.scratchIndex) ∧
      (w.finalFlushed = true → w.scratch = 0 ∧ w.scratchIndex = 0 ∧
        w.wordsIndex = ((w.usedBits.toNat + 31) / 32 : Nat)) ∧
      ∀ call : WriteCall, call.WithinLimits →
        call.exec e w = .ok { w with fail := true } ∨
        (call.exec e w = Run.run (Field.write e false) call.fields w ∧
          Run.Along (Field.write e false) (Field.Lossless e) call.fields w) := by
  have hlimit : 8 * gnsMaxMsgRecvSize = 2 ^ 23 := by decide
  obtain ⟨w, hw, hr, ht⟩ := runOps_represented (e := e) hb hL ops hops
  have hle := hr.used_le
  have hmod := hr.sound.total_mod
  have hbytes : w.usedBytes.toNat = (w.usedBits.toNat + 7) / 8 :=
    toNat_ceil_bytes w.logicalUsedBits (by omega)
  have htotal : w.totalBytes.toNat = w.totalBits.toNat / 8 := BitVec.toNat_udiv
  have hub : w.usedBits.toNat = w.logicalUsedBits.toNat := rfl
  have htb : w.totalBits.toNat = w.logicalTotalBits.toNat := rfl
  have hbl : w.usedBytes.toNat ≤ w.totalBytes.toNat := by omega
  refine ⟨w, hw, hle, BitVec.toNat_sub_of_le hle, hbl, BitVec.toNat_sub_of_le hbl, fun hfl => ?_,
    fun hfl => ?_, fun call hc => ?_⟩
  · have hp := hr.sound.packed hfl
    exact ⟨hp.index_nonneg, hp.index_lt, hp.scratch_lt, hp.used_eq⟩
  · have he := hr.emptied hfl
    exact ⟨he.scratch, he.scratchIndex, he.wordsIndex⟩
  · by_cases ha : call.Accepted w
    · have hp := hr.sound.packed ha.2.1
      have henc := call.encode_fields (by have hfit := ha.2.2.2; omega)
      refine .inr ⟨call.exec_eq_fields w hp ha, along_fields
        (fun f v hv hrange _ _ hfit => f.lossless v hv hrange hfit) call.fields w hp ha.1 ha.2.1
        (call.inRange_fields ha.2.2.1) ?_⟩
      rw [henc, length_encode]
      exact ha.2.2.2
    · exact .inl (call.exec_of_rejected w hr.sound ha
        (call.checkSound_of_withinLimits w hr.sound ht hc))

/-- A field across the end of a word, a flush and a write behind it. -/
theorem writer_representation_flushed :
    ∃ w, runOps .big [.write (.int .uint64 ⟨2 ^ 39, by decide⟩ ⟨0, by decide⟩ ⟨2 ^ 40, by decide⟩),
        .flushFinal, .write (.float 0)] ((default : BitStreamWriter).resetWith ⟨false, [0, 0]⟩ 6) =
          .ok w ∧ w.usedBits = 41 ∧ w.fail = true ∧ w.scratch = 0 ∧ w.scratchIndex = 0 ∧
      w.wordsIndex = 2 := by
  obtain ⟨w, hw, -, -, -, -, -, hflushed, -⟩ := writer_representation .big default ⟨false, [0, 0]⟩ 6
    (by decide) (by decide)
    [.write (.int .uint64 ⟨2 ^ 39, by decide⟩ ⟨0, by decide⟩ ⟨2 ^ 40, by decide⟩), .flushFinal,
      .write (.float 0)] (by decide)
  have hrun : runOps .big
      [.write (.int .uint64 ⟨2 ^ 39, by decide⟩ ⟨0, by decide⟩ ⟨2 ^ 40, by decide⟩), .flushFinal,
        .write (.float 0)] ((default : BitStreamWriter).resetWith ⟨false, [0, 0]⟩ 6) =
    .ok (BitStreamWriter.mk 0 [0, 0x80000000] 0 2 48 41 false true true) := by decide
  obtain rfl := Run.ok_unique hw hrun
  exact ⟨_, hw, rfl, rfl, hflushed rfl⟩

end
end Nalchi
