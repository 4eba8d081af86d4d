import Nalchi.ReaderBinding
import Nalchi.ReaderRefinement

/-! Whole runs of the reader: what holds of a bound reader whatever was read, and
that none of it fetches a word outside the span. -/
namespace Nalchi
namespace BitStreamReader
variable {e : Endian}

/-- A bound reader. Once it has failed its scratch may be ahead of the used bits. -/
structure Sound (e : Endian) (r : BitStreamReader) : Prop where
  initFail : r.initFail = false
  windowed : r.Windowed
  used_le : r.logicalUsedBits.toNat ≤ r.logicalTotalBits.toNat
  capacity : r.logicalTotalBits.toNat ≤ 32 * r.words.length
  total_mod : r.logicalTotalBits.toNat % 8 = 0
  synced : r.fail = false → r.Synced e

theorem restart_synced (r : BitStreamReader)
    (hcap : r.logicalTotalBits.toNat ≤ 32 * r.words.length)
    (hmod : r.logicalTotalBits.toNat % 8 = 0) : r.restart.Synced e :=
  ⟨Windowed.restart r, by simp [ahead, restart], Nat.zero_le _, hcap, hmod⟩

theorem restart_sound (r : BitStreamReader) (hi : r.initFail = false)
    (hcap : r.logicalTotalBits.toNat ≤ 32 * r.words.length)
    (hmod : r.logicalTotalBits.toNat % 8 = 0) : r.restart.Sound e :=
  ⟨hi, Windowed.restart r, Nat.zero_le _, hcap, hmod, fun _ => restart_synced r hcap hmod⟩

/-- Binding to a span without a failure gives such a reader. -/
theorem resetWith_sound (r : BitStreamReader) (span : WordSpan) (L : SizeType)
    (h : (r.resetWith span L).fail = false) : (r.resetWith span L).Sound e := by
  have hi : (r.resetWith span L).initFail = false := h
  have hsize : ¬ span.sizeBytes < L.toNat := by
    simp only [resetWith, restart, Bool.or_eq_false_iff] at hi
    simpa using hi.2
  have ht : (r.resetWith span L).logicalTotalBits.toNat = 8 * L.toNat % 2 ^ 32 :=
    toNat_eight_mul L
  have hcap : (r.resetWith span L).logicalTotalBits.toNat ≤ 32 * span.words.length := by
    rw [WordSpan.sizeBytes] at hsize
    omega
  exact restart_sound (r.resetWith span L) hi hcap (by omega)

theorem Advanced.sound {r r' : BitStreamReader} {rest : List Bool} (h : r.Sound e)
    (ha : Advanced e r r' rest) : r'.Sound e :=
  ⟨ha.initFail.trans h.initFail, ha.synced.toWindowed, ha.synced.used_le, ha.synced.capacity,
    ha.synced.total_mod, fun _ => ha.synced⟩

theorem Stopped.sound {r r' : BitStreamReader} {n : Nat} (h : r.Sound e) (hs : Stopped r r' n) :
    r'.Sound e :=
  ⟨hs.initFail.trans h.initFail, hs.windowed, hs.used_le, by rw [hs.total, hs.words]; exact h.capacity,
    by rw [hs.total]; exact h.total_mod, fun hf => absurd (hs.fail.symm.trans hf) (by simp)⟩

theorem Sound.setFail {r : BitStreamReader} (h : r.Sound e) :
    Sound e { r with fail := true } :=
  ⟨h.initFail, ⟨h.2.1, h.2.2, h.2.3, h.2.4⟩, h.used_le, h.capacity, h.total_mod,
    fun hf => absurd hf (by simp)⟩

/-- A peek leaves the reader as it was, unless it sets the fail flag. -/
theorem peekStringLength_refines (r : BitStreamReader) (h : r.Synced e) (hf : r.fail = false)
    (hs : r.LengthSound e) :
    r.peekStringLength e = match decodeLength (r.logicalRest e) with
      | .ok (raw, _) => .ok (r, castSsize raw)
      | .error _ => .ok ({ r with fail := true }, -1) := by
  have href := readStringLength_refines r h hf hs
  cases hdec : decodeLength (r.logicalRest e) with
  | ok p =>
    rw [hdec] at href
    obtain ⟨r', hr', ha⟩ := href
    rw [peekStringLength, hr', Run.bind_ok]
    simp only [ha.words, ha.total, ha.initFail, ha.fail, Run.pure_ok]
  | error n =>
    rw [hdec] at href
    obtain ⟨r', hr', hstop⟩ := href
    rw [peekStringLength, hr', Run.bind_ok]
    simp only [hstop.words, hstop.total, hstop.initFail, hstop.fail, Run.pure_ok]

/-- A read of a bound reader, in one piece. -/
theorem Sound.exec {r : BitStreamReader} (h : r.Sound e) (call : ReadCall)
    (hs : call.CheckSound e r) : ∃ r' after, call.exec e r = .ok (r', after) ∧ r'.Sound e ∧
      r'.logicalTotalBits = r.logicalTotalBits := by
  by_cases hf : r.fail = true
  · exact ⟨r, call, call.exec_of_fail r hf, h, rfl⟩
  have hf : r.fail = false := by simpa using hf
  have href := call.exec_refines r (h.synced hf) hf hs
  cases hdec : call.decode (r.logicalRest e) with
  | ok p =>
    rw [hdec] at href
    obtain ⟨r', hr', ha⟩ := href
    exact ⟨r', p.1, hr', ha.sound h, ha.total⟩
  | error n =>
    rw [hdec] at href
    obtain ⟨r', hr', hstop⟩ := href
    exact ⟨r', call, hr', hstop.sound h, hstop.total⟩

end BitStreamReader

open BitStreamReader

/-- An operation whose capacity check, if it makes one, is sound. -/
def ReaderOp.CheckSound (e : Endian) (op : ReaderOp) (r : BitStreamReader) : Prop :=
  match op with
  | .read call => call.CheckSound e r
  | .peekStringLength => r.fail = false → r.LengthSound e
  | _ => True

instance ReaderOp.decidableCheckSound (e : Endian) (op : ReaderOp) (r : BitStreamReader) :
    Decidable (op.CheckSound e r) := by
  cases op <;> unfold ReaderOp.CheckSound <;> infer_instance

section
variable {e : Endian}

theorem ReaderOp.exec_sound (op : ReaderOp) (r : BitStreamReader) (h : r.Sound e)
    (hs : op.CheckSound e r) : ∃ r', op.exec e r = .ok r' ∧ r'.Sound e := by
  cases op with
  | read call =>
    obtain ⟨r', after, hr', hsound, -⟩ := h.exec call hs
    exact ⟨r', by rw [ReaderOp.exec, hr']; rfl, hsound⟩
  | peekStringLength =>
    rw [ReaderOp.exec]
    by_cases hf : r.fail = true
    · exact ⟨r, by rw [peekStringLength_of_fail r hf]; rfl, h⟩
    have hf : r.fail = false := by simpa using hf
    rw [peekStringLength_refines r (h.synced hf) hf (hs hf)]
    cases decodeLength (r.logicalRest e) with
    | ok p => exact ⟨r, rfl, h⟩
    | error n => exact ⟨_, rfl, h.setFail⟩
  | setFail => exact ⟨_, rfl, h.setFail⟩
  | restart => exact ⟨_, rfl, BitStreamReader.restart_sound r h.initFail h.capacity h.total_mod⟩

/-- No fetch leaves the span, and no shift leaves the scratch, in any run in which
no capacity check is passed by a sum that wrapped round. -/
theorem BitStreamReader.fetches_in_span (e : Endian) (r : BitStreamReader) (span : WordSpan)
    (L : SizeType) (h : (r.resetWith span L).fail = false) (ops : List ReaderOp)
    (hs : Run.Along (ReaderOp.exec e) (ReaderOp.CheckSound e) ops (r.resetWith span L)) :
    ∃ r', runOps e ops (r.resetWith span L) = .ok r' := by
  obtain ⟨r', hr', -⟩ := Run.run_ok ops (fun op r => op.exec_sound r)
    (BitStreamReader.resetWith_sound (e := e) r span L h) hs
  exact ⟨r', hr'⟩

/-- A string, a peek past the end and a block after a restart. -/
theorem BitStreamReader.fetches_in_span_strings :
    ∃ r', runOps .big [.read (.string .char8 [] 9), .peekStringLength, .restart,
        .read (.block (fun _ => ⟨0, by decide⟩) 4)]
      ((default : BitStreamReader).resetWith ⟨false, [0x04050000]⟩ 4) = .ok r' :=
  BitStreamReader.fetches_in_span .big default ⟨false, [0x04050000]⟩ 4 (by decide) _ (by decide)

/-- A block of `2 ^ 29` bytes is `2 ^ 32` bits, which the check takes for none. -/
theorem BitStreamReader.readBlock_leaves_span :
    ((default : BitStreamReader).resetWith ⟨false, [0]⟩ 4).fail = false ∧
      runOps .little [.read (.block (fun _ => ⟨0, by decide⟩) 0x20000000)]
        ((default : BitStreamReader).resetWith ⟨false, [0]⟩ 4) = .error (.wordIndex 1) := by
  decide

end
end Nalchi
