import Nalchi.Binding
import Nalchi.WriterRuns

/-! A whole message: the writer refines appending bits to a list, down to the
bytes it leaves in memory. -/
namespace Nalchi
open BitStreamWriter

/-- The sizes the network library allows for, and lengths far beyond them. -/
def WriteCall.WithinLimits : WriteCall → Prop
  | .block _ size => size.toNat ≤ gnsMaxMsgRecvSize
  | .string _ str => str.length < 2 ^ 56
  | _ => True

instance WriteCall.decidableWithinLimits : DecidablePred WriteCall.WithinLimits
  | .block _ size => Nat.decLe size.toNat gnsMaxMsgRecvSize
  | .string _ str => Nat.decLt str.length (2 ^ 56)
  | .int _ _ _ _ | .float _ | .double _ => .isTrue trivial

variable {e : Endian}

/-- Without a wrap there is nothing the check could be wrong about. -/
theorem WriteCall.checkSound_of_lt (call : WriteCall) (w : BitStreamWriter)
    (h : w.logicalUsedBits.toNat + call.cost < 2 ^ call.sumBits) : call.CheckSound w := by
  intro _ _ _ hle
  rwa [Nat.mod_eq_of_lt h] at hle

theorem WriteCall.cost_lt (call : WriteCall) (hv : call.Valid) (h : call.WithinLimits) :
    call.cost < 2 ^ (call.sumBits - 1) := by
  have hlimit : 8 * gnsMaxMsgRecvSize = 2 ^ 23 := by decide
  cases call with
  | int t data min max =>
    have hb := t.rangeBits_le min max
    have h64 := t.bits_le
    rw [t.rangeBits_eq min max hv.1.le] at hb
    simp only [WriteCall.cost, WriteCall.sumBits]
    omega
  | float data =>
    simp only [WriteCall.cost, WriteCall.sumBits]
    omega
  | double data =>
    simp only [WriteCall.cost, WriteCall.sumBits]
    omega
  | block data size =>
    simp only [WriteCall.WithinLimits] at h
    simp only [WriteCall.cost, WriteCall.sumBits]
    omega
  | string c str =>
    have hs := c.intType_spec.2.2.2
    have hlen : str.length * c.size ≤ str.length * 4 := Nat.mul_le_mul_left _ hs
    have hk : lengthWidth (lengthKind str.length) ≤ 64 := by
      unfold lengthKind
      split_ifs <;> decide
    simp only [WriteCall.WithinLimits] at h
    simp only [WriteCall.cost, WriteCall.sumBits]
    omega

theorem WriteCall.checkSound_of_withinLimits (call : WriteCall) (w : BitStreamWriter)
    (hw : w.Sound) (ht : w.logicalTotalBits.toNat ≤ 8 * gnsMaxMsgRecvSize)
    (h : call.WithinLimits) : call.CheckSound w := by
  intro hf hfl hv
  have hu := (hw.packed hfl).used_le
  have hlimit : 8 * gnsMaxMsgRecvSize = 2 ^ 23 := by decide
  have hcost := call.cost_lt hv h
  refine call.checkSound_of_lt w ?_ hf hfl hv
  cases call <;> simp only [WriteCall.sumBits] at hcost ⊢ <;> omega

/-- Within the limits every check of a run is sound. -/
theorem along_checkSound (calls : List WriteCall) (hc : ∀ call ∈ calls, call.WithinLimits)
    (w : BitStreamWriter) (hw : w.Sound)
    (ht : w.logicalTotalBits.toNat ≤ 8 * gnsMaxMsgRecvSize) :
    Run.Along (WriteCall.exec e) WriteCall.CheckSound calls w := by
  refine Run.along_of_invariant
    (I := fun w => w.Sound ∧ w.logicalTotalBits.toNat ≤ 8 * gnsMaxMsgRecvSize) calls
    (fun call hcall s hs => call.checkSound_of_withinLimits s hs.1 hs.2 (hc call hcall))
    (fun call hcall s s' hs hexec => ?_) ⟨hw, ht⟩
  obtain ⟨s'', hs'', hsound⟩ := (WriterOp.write call).exec_sound (e := e) s hs.1
    (call.checkSound_of_withinLimits s hs.1 hs.2 (hc call hcall))
  obtain rfl : s'' = s' := Run.ok_unique hs'' hexec
  exact ⟨hsound, by rw [(exec_write_keeps call hexec).total]; exact hs.2⟩

/-- A flush behind an extension of an empty stream. -/
theorem BitStreamWriter.Flushed.of_appended {w w₁ w₂ : BitStreamWriter} {bs : List Bool}
    (h : Appended e w w₁ bs) (hw : w.written e = []) (hd : Flushed e w₁ w₂ (w₁.written e)) :
    Flushed e w w₂ bs := by
  have hx := h.toExtends
  have hbs : w₁.written e = bs := by rw [hx.written, hw, List.nil_append]
  rw [hbs] at hd
  have hlater : w₁.words.drop (wordsFor bs.length) = w.words.drop (wordsFor bs.length) := by
    have hlen := length_written (e := e) w₁ hx.aligned
    have h0 := hx.aligned.wordsIndex_nonneg
    have h2 := hx.aligned.index_nonneg
    have hpos : w₁.position = 32 * w₁.wordsIndex + w₁.scratchIndex := rfl
    rw [hbs] at hlen
    obtain ⟨k, hk⟩ : ∃ k, wordsFor bs.length = w₁.wordsIndex.toNat + k :=
      ⟨wordsFor bs.length - w₁.wordsIndex.toNat, by unfold wordsFor; omega⟩
    rw [hk, ← List.drop_drop, hx.later, List.drop_drop]
  exact ⟨hd.bits, hd.later.trans hlater, hd.wordsIndex, hd.used, hd.length.trans hx.length,
    hd.total.trans hx.total, hd.initFail.trans hx.initFail, hd.fail, hd.finalFlushed⟩

/-- The words flushed are within the span and hold the bits counted. -/
theorem BitStreamWriter.Flushed.wordsFor_le {w w' : BitStreamWriter} {bs : List Bool}
    (h : Flushed e w w' bs) : wordsFor bs.length ≤ w'.words.length := by
  have hl := congrArg List.length h.bits
  simp only [length_memoryBits, List.length_take, List.length_append, padding,
    List.length_replicate] at hl
  unfold wordsFor at *
  omega

theorem BitStreamWriter.Flushed.bytes {w w' : BitStreamWriter} {bs : List Bool}
    (h : Flushed e w w' bs) : memoryBytes e (w'.words.take (wordsFor bs.length)) =
      packBytes (4 * wordsFor bs.length) (bs ++ padding bs.length) := by
  rw [memoryBytes_eq, List.length_take, Nat.min_eq_left h.wordsFor_le, h.bits]

/-- What a run of writes and a final flush leave, if they leave the stream un-failed. -/
theorem writeAll_flushFinal (calls : List WriteCall) (hc : ∀ call ∈ calls, call.WithinLimits)
    (w : BitStreamWriter) (hw : w.Sound) (hf : w.fail = false) (hfl : w.finalFlushed = false)
    (hempty : w.written e = []) (ht : w.logicalTotalBits.toNat ≤ 8 * gnsMaxMsgRecvSize) :
    ∃ w₁, writeAll e calls w = .ok w₁ ∧ (w₁.fail = false →
      AllAccepted calls w ∧
      ∃ w₂, w₁.flushFinal e = .ok w₂ ∧ Flushed e w w₂ (encodeAll calls)) := by
  have hp := hw.packed hfl
  by_cases ha : AllAccepted calls w
  · obtain ⟨w₁, hw₁, ha₁⟩ := writeAll_of_accepted (e := e) calls w hp hf hfl ha
    have hx := ha₁.toExtends
    obtain ⟨w₂, hw₂, hd⟩ := flushFinal_spec (e := e) w₁ ha₁.packed (hx.fail.trans hf)
      (hx.finalFlushed.trans hfl)
    exact ⟨w₁, hw₁, fun _ => ⟨ha, w₂, hw₂, Flushed.of_appended ha₁ hempty hd⟩⟩
  · obtain ⟨w₁, hw₁, hf₁⟩ := writeAll_of_not_accepted (e := e) calls w hp hf hfl ha
      (along_checkSound calls hc w hw ht)
    exact ⟨w₁, hw₁, fun hno => absurd (hf₁.symm.trans hno) (by simp)⟩

/-- Calls that a freshly bound writer has room for are written and flushed. -/
theorem writeAll_fresh (calls : List WriteCall) (w : BitStreamWriter) (span : WordSpan)
    (L : SizeType) (hb : (w.resetWith span L).fail = false)
    (ha : AllAccepted calls (w.resetWith span L)) :
    ∃ w₁ w₂, writeAll e calls (w.resetWith span L) = .ok w₁ ∧ w₁.fail = false ∧
      w₁.flushFinal e = .ok w₂ ∧ Flushed e (w.resetWith span L) w₂ (encodeAll calls) := by
  have hp := (BitStreamWriter.resetWith_sound w span L hb).packed rfl
  obtain ⟨w₁, hw₁, ha₁⟩ := writeAll_of_accepted (e := e) calls _ hp hb rfl ha
  have hx := ha₁.toExtends
  have hf₁ := hx.fail.trans hb
  obtain ⟨w₂, hw₂, hd⟩ := flushFinal_spec (e := e) w₁ ha₁.packed hf₁ hx.finalFlushed
  exact ⟨w₁, w₂, hw₁, hf₁, hw₂, Flushed.of_appended ha₁ (written_restart _) hd⟩

/-- A stream restarted after any history is as good as one just bound. -/
theorem restart_sound {w₀ w : BitStreamWriter} {span : WordSpan} {L : SizeType}
    (hb : (w₀.resetWith span L).fail = false) {ops : List WriterOp}
    (hops : runOps e ops (w₀.resetWith span L) = .ok w) :
    w.restart.Sound ∧ w.restart.fail = false ∧
      w.restart.logicalTotalBits = 8 * L := by
  have hs := resetWith_sound w₀ span L hb
  have hk := runOps_keeps ops hops
  have hcap : w.logicalTotalBits.toNat ≤ 32 * w.words.length := by
    rw [hk.total, hk.length]
    exact hs.capacity
  have hmod : w.logicalTotalBits.toNat % 8 = 0 := by
    rw [hk.total]
    exact hs.total_mod
  have hi : w.initFail = false := hk.initFail.trans hs.initFail
  exact ⟨⟨hi, hcap, hmod, fun _ => restart_packed w hcap hmod⟩, hi, hk.total⟩

theorem total_le_limit {L : SizeType} (hL : L.toNat ≤ gnsMaxMsgRecvSize) :
    (8 * L).toNat ≤ 8 * gnsMaxMsgRecvSize := by
  rw [toNat_eight_mul]
  exact (Nat.mod_le _ _).trans (Nat.mul_le_mul_left 8 hL)

/-- The writer refines "append bits to a list": after any history of the stream, the
writes since its last restart and nothing else are in the words flushed. -/
theorem writer_refines_append (e : Endian) (w₀ : BitStreamWriter) (span : WordSpan) (L : SizeType)
    (hb : (w₀.resetWith span L).fail = false) (hL : L.toNat ≤ gnsMaxMsgRecvSize)
    (ops : List WriterOp) (w : BitStreamWriter)
    (hops : runOps e ops (w₀.resetWith span L) = .ok w) (calls : List WriteCall)
    (hc : ∀ call ∈ calls, call.WithinLimits) :
    ∃ w₁, writeAll e calls w.restart = .ok w₁ ∧ (w₁.fail = false →
      ∃ w₂, w₁.flushFinal e = .ok w₂ ∧ w₂.fail = false ∧
        w₂.usedBits.toNat = (encodeAll calls).length ∧
        memoryBits e (w₂.words.take (wordsFor w₂.usedBits.toNat)) =
          encodeAll calls ++ padding w₂.usedBits.toNat ∧
        w₂.words.length = w.words.length ∧
        w₂.words.drop (wordsFor w₂.usedBits.toNat) = w.words.drop (wordsFor w₂.usedBits.toNat) ∧
        (memoryBytes e w₂.words).take (4 * wordsFor w₂.usedBits.toNat) =
          packBytes (4 * wordsFor w₂.usedBits.toNat)
            (encodeAll calls ++ padding w₂.usedBits.toNat)) := by
  obtain ⟨hs, hf, ht⟩ := restart_sound hb hops
  obtain ⟨w₁, hw₁, h⟩ := writeAll_flushFinal (e := e) calls hc w.restart hs hf rfl
    (written_restart w) (by rw [ht]; exact total_le_limit hL)
  refine ⟨w₁, hw₁, fun hf₁ => ?_⟩
  obtain ⟨-, w₂, hw₂, hd⟩ := h hf₁
  have hu : w₂.usedBits.toNat = (encodeAll calls).length := hd.used
  refine ⟨w₂, hw₂, hd.fail, hu, ?_⟩
  rw [hu, ← memoryBytes_take]
  exact ⟨hd.bits, hd.length, hd.later, hd.bytes⟩

/-- After a run that failed unflushed, over a buffer with other contents. -/
theorem writer_refines_append_after_failed_run :
    ∃ w₁ w₂, writeAll .big [.int .uint8 ⟨9, by decide⟩ ⟨5, by decide⟩ ⟨20, by decide⟩,
        .string .char16 [⟨0x263a, by decide⟩]]
        (BitStreamWriter.mk 7 [0xdeadbeef, 0x12345678] 3 0 40 3 false true false).restart =
          .ok w₁ ∧ w₁.flushFinal .big = .ok w₂ ∧ w₂.fail = false ∧
      (memoryBytes .big w₂.words).take 4 = [0x44, 0x80, 0x8e, 0x09] ∧
      w₂.words.drop 1 = [0x12345678] := by
  obtain ⟨w₁, hw₁, h⟩ := writer_refines_append .big default ⟨false, [0xdeadbeef, 0x12345678]⟩ 5
    (by decide) (by decide)
    [.write (.int .uint8 ⟨7, by decide⟩ ⟨0, by decide⟩ ⟨7, by decide⟩),
      .write (.block (fun _ => ⟨0, by decide⟩) 5)]
    (BitStreamWriter.mk 7 [0xdeadbeef, 0x12345678] 3 0 40 3 false true false) (by decide)
    [.int .uint8 ⟨9, by decide⟩ ⟨5, by decide⟩ ⟨20, by decide⟩,
      .string .char16 [⟨0x263a, by decide⟩]] (by decide)
  have hcalls : writeAll .big [.int .uint8 ⟨9, by decide⟩ ⟨5, by decide⟩ ⟨20, by decide⟩,
      .string .char16 [⟨0x263a, by decide⟩]]
      (BitStreamWriter.mk 7 [0xdeadbeef, 0x12345678] 3 0 40 3 false true false).restart =
    .ok (BitStreamWriter.mk 0x98e8044 [0xdeadbeef, 0x12345678] 30 0 40 30 false false false) := by
    decide
  obtain rfl := Run.ok_unique hw₁ hcalls
  obtain ⟨w₂, hw₂, hf₂, hu, -, -, hlater, hbytes⟩ := h rfl
  rw [hu] at hbytes hlater
  exact ⟨_, w₂, hw₁, hw₂, hf₂, hbytes.trans (by decide), hlater.trans (by decide)⟩

end Nalchi
