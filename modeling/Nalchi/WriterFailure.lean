import Nalchi.Serializing

/-! What a failing write leaves behind, and what a final flush puts an end to: the
writer's two ways of being closed, over whole histories. -/
namespace Nalchi
open BitStreamWriter

def WriterOp.WithinLimits : WriterOp → Prop
  | .write call => call.WithinLimits
  | _ => True

instance WriterOp.decidableWithinLimits : DecidablePred WriterOp.WithinLimits
  | .write call => WriteCall.decidableWithinLimits call
  | .flushFinal | .setFail | .restart => .isTrue trivial

/-- Writes and final flushes, all a closed stream is asked to ignore. -/
def WriterOp.Writes : WriterOp → Prop
  | .write _ | .flushFinal => True
  | _ => False

instance WriterOp.decidableWrites : DecidablePred WriterOp.Writes
  | .write _ | .flushFinal => .isTrue trivial
  | .setFail | .restart => .isFalse id

variable {e : Endian}

theorem BitStreamWriter.setFail_eq (w : BitStreamWriter) (hf : w.fail = true) :
    { w with fail := true } = w := by
  rw [← hf]

theorem BitStreamWriter.flushFinal_of_closed (w : BitStreamWriter)
    (h : w.fail = true ∨ w.finalFlushed = true) : w.flushFinal e = .ok w := by
  rw [flushFinal]
  split_ifs with h1 h2
  · rfl
  · rfl
  · exact absurd h (by tauto)
  · exact absurd h (by tauto)

/-- A stream that could not be bound stays failed and empty. -/
theorem BitStreamWriter.unbound_of_runOps {w₀ w : BitStreamWriter} {span : WordSpan} {L : SizeType}
    (hb : (w₀.resetWith span L).fail = true) {ops : List WriterOp}
    (hw : runOps e ops (w₀.resetWith span L) = .ok w) : w.fail = true ∧ w.logicalUsedBits = 0 := by
  refine (Run.run_invariant
    (I := fun w => w.initFail = true ∧ w.fail = true ∧ w.logicalUsedBits = 0) ops
    (fun op _ s s' hs hstep => ?_) ⟨hb, hb, rfl⟩ hw).2
  cases op with
  | write call =>
    rw [WriterOp.exec, call.exec_of_closed s (.inl hs.2.1)] at hstep
    rw [← Except.ok.inj hstep]
    exact ⟨hs.1, rfl, hs.2.2⟩
  | flushFinal =>
    rw [WriterOp.exec, flushFinal_of_closed s (.inl hs.2.1)] at hstep
    rwa [← Except.ok.inj hstep]
  | setFail => rw [← Except.ok.inj hstep]; exact ⟨hs.1, rfl, hs.2.2⟩
  | restart => rw [← Except.ok.inj hstep]; exact ⟨hs.1, hs.1, rfl⟩

/-- Within the limits a step of a sound writer finds its check sound. -/
theorem WriterOp.checkSound_of_withinLimits (op : WriterOp) (w : BitStreamWriter) (h : w.Sound)
    (ht : w.logicalTotalBits.toNat ≤ 8 * gnsMaxMsgRecvSize) (ho : op.WithinLimits) :
    op.CheckSound w := by
  cases op with
  | write call => exact call.checkSound_of_withinLimits w h ht ho
  | flushFinal => trivial
  | setFail => trivial
  | restart => trivial

theorem WriterOp.exec_keeps (op : WriterOp) : Run.Keeps SameBinding (op.exec e) := by
  intro w w' h
  exact runOps_keeps [op] (by rw [runOps, Run.run, h]; rfl)

/-- A state reached within the limits, with nothing failed. -/
theorem BitStreamWriter.sound_of_runOps {w₀ w : BitStreamWriter} {span : WordSpan} {L : SizeType}
    (hL : L.toNat ≤ gnsMaxMsgRecvSize) {ops : List WriterOp} (hops : ∀ op ∈ ops, op.WithinLimits)
    (hw : runOps e ops (w₀.resetWith span L) = .ok w) (hf : w.fail = false) :
    w.Sound ∧ w.logicalTotalBits.toNat ≤ 8 * gnsMaxMsgRecvSize := by
  have hb : (w₀.resetWith span L).fail = false := by
    by_contra hno
    exact absurd (hf.symm.trans ((unbound_of_runOps (by simpa using hno) hw).1)) (by simp)
  refine Run.run_invariant
    (I := fun w => w.Sound ∧ w.logicalTotalBits.toNat ≤ 8 * gnsMaxMsgRecvSize) ops
    (fun op hop s s' hs hstep => ?_) ⟨resetWith_sound w₀ span L hb, total_le_limit hL⟩ hw
  obtain ⟨s'', hs'', hsound⟩ := op.exec_sound (e := e) s hs.1
    (op.checkSound_of_withinLimits s hs.1 hs.2 (hops op hop))
  obtain rfl := Run.ok_unique hs'' hstep
  exact ⟨hsound, by rw [(op.exec_keeps hstep).total]; exact hs.2⟩

/-- Operations within the limits go through, wherever they lead. -/
theorem BitStreamWriter.runOps_withinLimits {w₀ : BitStreamWriter} {span : WordSpan} {L : SizeType}
    (hb : (w₀.resetWith span L).fail = false) (hL : L.toNat ≤ gnsMaxMsgRecvSize)
    (ops : List WriterOp) (hops : ∀ op ∈ ops, op.WithinLimits) :
    ∃ w, runOps e ops (w₀.resetWith span L) = .ok w ∧ w.Sound ∧
      w.logicalTotalBits.toNat ≤ 8 * gnsMaxMsgRecvSize := by
  refine Run.run_ok (P := fun op _ => op.WithinLimits)
    (I := fun w : BitStreamWriter => w.Sound ∧ w.logicalTotalBits.toNat ≤ 8 * gnsMaxMsgRecvSize) ops
    (fun op w hs hop => ?_) ⟨resetWith_sound w₀ span L hb, total_le_limit hL⟩
    (Run.along_of_forall ops (fun op hop _ => hops op hop) _)
  obtain ⟨w', hw', hsound⟩ := op.exec_sound (e := e) w hs.1
    (op.checkSound_of_withinLimits w hs.1 hs.2 hop)
  exact ⟨w', hw', hsound, by rw [(op.exec_keeps hw').total]; exact hs.2⟩

/-- One call of a sound writer: all of it, or the fail flag alone. -/
theorem WriteCall.exec_atomic (call : WriteCall) (w : BitStreamWriter) (h : w.Sound)
    (hs : call.CheckSound w) :
    ∃ w', call.exec e w = .ok w' ∧ (w'.fail = true → w' = { w with fail := true }) := by
  by_cases ha : call.Accepted w
  · obtain ⟨w', hw', ha'⟩ := call.exec_of_accepted (e := e) w (h.packed ha.2.1) ha
    have hf : w'.fail = false := ha'.toExtends.fail.trans ha.1
    exact ⟨w', hw', fun hno => absurd (hno.symm.trans hf) (by simp)⟩
  · exact ⟨_, call.exec_of_rejected w h ha hs, fun _ => rfl⟩

/-- Wherever a history within the limits leads, a call goes through. -/
theorem WriteCall.exec_of_reachable (call : WriteCall) {w₀ w : BitStreamWriter} {span : WordSpan}
    {L : SizeType} (hL : L.toNat ≤ gnsMaxMsgRecvSize) {ops : List WriterOp}
    (hops : ∀ op ∈ ops, op.WithinLimits) (hw : runOps e ops (w₀.resetWith span L) = .ok w)
    (hc : call.WithinLimits) :
    ∃ w', call.exec e w = .ok w' ∧ (w'.fail = true → w' = { w with fail := true }) := by
  by_cases hf : w.fail = true
  · exact ⟨_, call.exec_of_closed w (.inl hf), fun _ => rfl⟩
  obtain ⟨hsound, ht⟩ := sound_of_runOps hL hops hw (by simpa using hf)
  exact call.exec_atomic w hsound (call.checkSound_of_withinLimits w hsound ht hc)

theorem BitStreamWriter.writes_of_fail (ops : List WriterOp) (hops : ∀ op ∈ ops, op.Writes)
    (w : BitStreamWriter) (hf : w.fail = true) : runOps e ops w = .ok w := by
  induction ops with
  | nil => rfl
  | cons op ops ih =>
    have hop : op.exec e w = .ok w := by
      cases op with
      | write call => rw [WriterOp.exec, call.exec_of_closed w (.inl hf), setFail_eq w hf]
      | flushFinal => exact flushFinal_of_closed w (.inl hf)
      | setFail => exact False.elim (hops .setFail (by simp))
      | restart => exact False.elim (hops .restart (by simp))
    rw [runOps, Run.run, hop, Run.bind_ok]
    exact ih fun op hop => hops op (by simp [hop])

/-- Behind a final flush nothing but the fail flag can change any more. -/
theorem BitStreamWriter.writes_of_flushed (ops : List WriterOp) (hops : ∀ op ∈ ops, op.Writes)
    (w : BitStreamWriter) (h : w.finalFlushed = true) :
    ∃ w', runOps e ops w = .ok w' ∧ w' = { w with fail := w'.fail } := by
  induction ops generalizing w with
  | nil => exact ⟨w, rfl, rfl⟩
  | cons op ops ih =>
    have hstep : ∃ w₁, op.exec e w = .ok w₁ ∧ w₁ = { w with fail := w₁.fail } := by
      cases op with
      | write call => exact ⟨_, call.exec_of_closed w (.inr h), rfl⟩
      | flushFinal => exact ⟨w, flushFinal_of_closed w (.inr h), rfl⟩
      | setFail => exact False.elim (hops .setFail (by simp))
      | restart => exact False.elim (hops .restart (by simp))
    obtain ⟨w₁, hw₁, heq₁⟩ := hstep
    have hfl : w₁.finalFlushed = true := by rw [heq₁]; exact h
    obtain ⟨w', hw', heq'⟩ := ih (fun op hop => hops op (by simp [hop])) w₁ hfl
    refine ⟨w', by rw [runOps, Run.run, hw₁, Run.bind_ok]; exact hw', ?_⟩
    rw [heq', heq₁]

/-- A final flush that leaves the stream un-failed has closed it. -/
theorem BitStreamWriter.finalFlushed_of_flushFinal {w w' : BitStreamWriter}
    (h : w.flushFinal e = .ok w') (hf : w'.fail = false) : w'.finalFlushed = true := by
  rw [flushFinal] at h
  split_ifs at h with h1 h2
  · rw [← Except.ok.inj h] at hf
    exact absurd (h1.symm.trans hf) (by simp)
  · rwa [← Except.ok.inj h]
  · obtain ⟨w₁, -, h⟩ := Run.bind_eq_ok.mp h
    rw [← Except.ok.inj h]
  · rw [← Except.ok.inj h]

/-- In every state a stream can reach, a failing write changes the fail flag alone, a
failed stream ignores writes and flushes, and so does a flushed one, apart from failing. -/
theorem writer_failure_atomic (e : Endian) (w₀ : BitStreamWriter) (span : WordSpan) (L : SizeType)
    (hL : L.toNat ≤ gnsMaxMsgRecvSize) (ops : List WriterOp)
    (hops : ∀ op ∈ ops, op.WithinLimits) (w : BitStreamWriter)
    (hw : runOps e ops (w₀.resetWith span L) = .ok w) :
    (∀ call : WriteCall, call.WithinLimits → ∃ w', call.exec e w = .ok w' ∧
      (w'.fail = true → w' = { w with fail := true })) ∧
    (w.fail = true → ∀ later, (∀ op ∈ later, op.Writes) → runOps e later w = .ok w) ∧
    (∀ w₁, w.flushFinal e = .ok w₁ → w₁.fail = false →
      ∀ later, (∀ op ∈ later, op.Writes) → ∃ w₂, runOps e later w₁ = .ok w₂ ∧
        w₂.words = w₁.words ∧ w₂.usedBits = w₁.usedBits ∧ w₂.flushFinal e = .ok w₂ ∧
        ∀ call : WriteCall, call.exec e w₂ = .ok { w₁ with fail := true }) := by
  refine ⟨fun call hc => call.exec_of_reachable hL hops hw hc,
    fun hf later hl => writes_of_fail later hl w hf, fun w₁ hw₁ hf₁ later hl => ?_⟩
  have hfl := finalFlushed_of_flushFinal hw₁ hf₁
  obtain ⟨w₂, hw₂, heq⟩ := writes_of_flushed (e := e) later hl w₁ hfl
  have hfl₂ : w₂.finalFlushed = true := by rw [heq]; exact hfl
  refine ⟨w₂, hw₂, by rw [heq], by rw [heq]; rfl, flushFinal_of_closed w₂ (.inr hfl₂),
    fun call => ?_⟩
  rw [call.exec_of_closed w₂ (.inr hfl₂), heq]

/-- A string that does not fit behind the byte before it, and a flush after it. -/
theorem writer_failure_atomic_short :
    (WriteCall.exec .big (.string .char16 [⟨0x263a, by decide⟩])
        (BitStreamWriter.mk 7 [0] 8 0 32 8 false false false) =
      .ok (BitStreamWriter.mk 7 [0] 8 0 32 8 false true false)) ∧
    ∃ w₂, runOps .big [.write (.float 0), .flushFinal]
        (BitStreamWriter.mk 0 [0x07000000] 0 1 32 8 false false true) = .ok w₂ ∧
      w₂.words = [0x07000000] := by
  obtain ⟨hatomic, -, hfinal⟩ := writer_failure_atomic .big default ⟨false, [0]⟩ 4 (by decide)
    [.write (.int .uint8 ⟨7, by decide⟩ ⟨0, by decide⟩ ⟨255, by decide⟩)] (by decide)
    (BitStreamWriter.mk 7 [0] 8 0 32 8 false false false) (by decide)
  constructor
  · obtain ⟨w', hw', hunchanged⟩ := hatomic (.string .char16 [⟨0x263a, by decide⟩]) (by decide)
    have hf : (WriteCall.exec .big (.string .char16 [⟨0x263a, by decide⟩])
        (BitStreamWriter.mk 7 [0] 8 0 32 8 false false false)).map BitStreamWriter.fail =
      .ok true := by decide
    rw [hw'] at hf ⊢
    rw [hunchanged (Except.ok.inj hf)]
  · obtain ⟨w₂, hw₂, hwords, -⟩ := hfinal (BitStreamWriter.mk 0 [0x07000000] 0 1 32 8 false false true)
      (by decide) rfl [.write (.float 0), .flushFinal] (by decide)
    exact ⟨w₂, hw₂, hwords⟩

end Nalchi
