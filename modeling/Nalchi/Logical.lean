import Nalchi.CursorRefinement
import Nalchi.WriterFailure

/-! The streams without words, scratch and endianness: what the calls of a program come to,
on a list of bits. Writer and reader do that and nothing else, over any history. -/
namespace Nalchi
open BitStreamWriter BitStreamReader

/-- A message being written: its bits so far, how many there may be, and whether it has failed
or been flushed. -/
structure Draft where
  bits : List Bool
  room : Nat
  fail : Bool
  flushed : Bool

namespace Draft

def write (call : WriteCall) (d : Draft) : Draft :=
  if d.fail then d
  else if ¬ d.flushed ∧ call.Valid ∧ d.bits.length + call.cost ≤ d.room then
    { d with bits := d.bits ++ call.encode }
  else { d with fail := true }

def step (op : WriterOp) (d : Draft) : Draft :=
  match op with
  | .write call => d.write call
  | .flushFinal => if d.fail then d else { d with flushed := true }
  | .setFail => { d with fail := true }
  | .restart => { d with bits := [], fail := false, flushed := false }

def run (ops : List WriterOp) (d : Draft) : Draft := ops.foldl (fun d op => d.step op) d

end Draft

/-- A message being read: its bits, how many of them were read, and whether that has failed. -/
structure Reading where
  bits : List Bool
  used : Nat
  fail : Bool

namespace Reading

def rest (q : Reading) : List Bool := q.bits.drop q.used

/-- With what the read leaves in its destination. -/
def read (call : ReadCall) (q : Reading) : Reading × ReadCall :=
  if q.fail then (q, call)
  else match call.decode q.rest with
    | .ok (done, rest) => ({ q with used := q.bits.length - rest.length }, done)
    | .error n => ({ q with used := q.used + n, fail := true }, call)

def peek (q : Reading) : Reading × Int :=
  if q.fail then (q, -1)
  else match decodeLength q.rest with
    | .ok (raw, _) => (q, castSsize raw)
    | .error _ => ({ q with fail := true }, -1)

def step (op : ReaderOp) (q : Reading) : Reading :=
  match op with
  | .read call => (q.read call).1
  | .peekStringLength => q.peek.1
  | .setFail => { q with fail := true }
  | .restart => { q with used := 0, fail := false }

def run (ops : List ReaderOp) (q : Reading) : Reading := ops.foldl (fun q op => q.step op) q

end Reading

/-- The writer holds this draft. Behind a final flush the draft is in memory, filled up to the
end of its last word. -/
structure BitStreamWriter.Holds (e : Endian) (w : BitStreamWriter) (d : Draft) : Prop where
  sound : w.Sound
  limit : w.logicalTotalBits.toNat ≤ 8 * gnsMaxMsgRecvSize
  fail : w.fail = d.fail
  flushed : w.finalFlushed = d.flushed
  used : w.usedBits.toNat = d.bits.length
  room : w.totalBits.toNat = d.room
  written : d.flushed = false → w.written e = d.bits
  memory : d.flushed = true →
    memoryBits e (w.words.take (wordsFor d.bits.length)) = d.bits ++ padding d.bits.length

structure BitStreamReader.Holds (e : Endian) (r : BitStreamReader) (q : Reading) : Prop where
  sound : r.Sound e
  limit : r.logicalTotalBits.toNat ≤ 8 * gnsMaxMsgRecvSize
  bits : (memoryBits e r.words).take r.logicalTotalBits.toNat = q.bits
  used : r.usedBits.toNat = q.used
  fail : r.fail = q.fail

section
variable {e : Endian}

namespace BitStreamWriter

variable {w : BitStreamWriter} {d : Draft}

theorem Holds.setFail (h : w.Holds e d) :
    Holds e { w with fail := true } { d with fail := true } :=
  ⟨⟨h.sound.initFail, h.sound.capacity, h.sound.total_mod, fun hfl => (h.sound.packed hfl).setFail⟩,
    h.limit, rfl, h.flushed, h.used, h.room, h.written, h.memory⟩

theorem Holds.accepted_iff (h : w.Holds e d) (hf : d.fail = false) (call : WriteCall) :
    call.Accepted w ↔ ¬ d.flushed ∧ call.Valid ∧ d.bits.length + call.cost ≤ d.room := by
  have hused : w.logicalUsedBits.toNat = _ := h.used
  have hroom : w.logicalTotalBits.toNat = _ := h.room
  rw [WriteCall.Accepted, h.fail, h.flushed, hused, hroom]
  simp [hf]

theorem Holds.write (h : w.Holds e d) (call : WriteCall) (hc : call.WithinLimits) :
    ∃ w', call.exec e w = .ok w' ∧ w'.Holds e (d.write call) := by
  have hs := call.checkSound_of_withinLimits w h.sound h.limit hc
  by_cases hf : d.fail = true
  · have hwf := h.fail.trans hf
    refine ⟨w, by rw [call.exec_of_closed w (.inl hwf), setFail_eq w hwf], ?_⟩
    rwa [Draft.write, if_pos hf]
  have hf : d.fail = false := by simpa using hf
  rw [Draft.write, if_neg (by simp [hf])]
  by_cases ha : call.Accepted w
  · rw [if_pos ((h.accepted_iff hf call).mp ha)]
    have hp := h.sound.packed ha.2.1
    obtain ⟨w', hw', ha'⟩ := call.exec_of_accepted (e := e) w hp ha
    have hx := ha'.toExtends
    have hfl : d.flushed = false := h.flushed.symm.trans ha.2.1
    have hused : w'.logicalUsedBits.toNat = w.logicalUsedBits.toNat + _ := ha'.used hp
    have hbits : w.logicalUsedBits.toNat = _ := h.used
    refine ⟨w', hw', ⟨hx.initFail.trans h.sound.initFail, ha'.packed.capacity, ha'.packed.total_mod,
      fun _ => ha'.packed⟩, by rw [hx.total]; exact h.limit, hx.fail.trans h.fail,
      hx.finalFlushed.trans h.flushed, ?_, ?_, fun _ => ?_, fun hno => ?_⟩
    · change w'.logicalUsedBits.toNat = _
      rw [hused, hbits, List.length_append]
    · change w'.logicalTotalBits.toNat = _
      rw [hx.total]
      exact h.room
    · rw [hx.written, h.written hfl]
    · exact absurd (hfl.symm.trans hno) (by simp)
  · rw [if_neg fun hno => ha ((h.accepted_iff hf call).mpr hno)]
    exact ⟨_, call.exec_of_rejected w h.sound ha hs, h.setFail⟩

theorem Holds.flushFinal (h : w.Holds e d) :
    ∃ w', w.flushFinal e = .ok w' ∧ w'.Holds e (d.step .flushFinal) := by
  by_cases hf : d.fail = true
  · refine ⟨w, flushFinal_of_closed w (.inl (h.fail.trans hf)), ?_⟩
    rwa [Draft.step, if_pos hf]
  have hf : d.fail = false := by simpa using hf
  rw [Draft.step, if_neg (by simp [hf])]
  by_cases hfl : d.flushed = true
  · refine ⟨w, flushFinal_of_closed w (.inr (h.flushed.trans hfl)), ?_⟩
    have heq : { d with flushed := true } = d := by rw [← hfl]
    rwa [heq]
  have hfl : d.flushed = false := by simpa using hfl
  have hwf := h.flushed.trans hfl
  have hp := h.sound.packed hwf
  obtain ⟨w', hw', hd⟩ := flushFinal_spec (e := e) w hp (h.fail.trans hf) hwf
  rw [h.written hfl] at hd
  exact ⟨w', hw', ⟨hd.initFail.trans h.sound.initFail,
    by rw [hd.total, hd.length]; exact h.sound.capacity, by rw [hd.total]; exact h.sound.total_mod,
    fun hno => absurd (hd.finalFlushed.symm.trans hno) (by simp)⟩, by rw [hd.total]; exact h.limit,
    hd.fail.trans hf.symm, hd.finalFlushed, hd.used,
    (congrArg BitVec.toNat hd.total).trans h.room, fun hno => absurd hno (by simp), fun _ => hd.bits⟩

theorem Holds.step (h : w.Holds e d) (op : WriterOp) (hop : op.WithinLimits) :
    ∃ w', op.exec e w = .ok w' ∧ w'.Holds e (d.step op) := by
  cases op with
  | write call => exact h.write call hop
  | flushFinal => exact h.flushFinal
  | setFail => exact ⟨_, rfl, h.setFail⟩
  | restart =>
    exact ⟨_, rfl, ⟨h.sound.initFail, h.sound.capacity, h.sound.total_mod,
      fun _ => restart_packed w h.sound.capacity h.sound.total_mod⟩, h.limit, h.sound.initFail, rfl,
      rfl, h.room, fun _ => written_restart w, fun hno => absurd hno (by simp [Draft.step])⟩

end BitStreamWriter

namespace BitStreamReader

variable {r : BitStreamReader} {q : Reading}

theorem Holds.rest (h : r.Holds e q) : r.logicalRest e = q.rest := by
  have hused : r.logicalUsedBits.toNat = _ := h.used
  rw [logicalRest, h.bits, hused]
  rfl

theorem Holds.length (h : r.Holds e q) : q.bits.length = r.logicalTotalBits.toNat := by
  rw [← h.bits, List.length_take, length_memoryBits, Nat.min_eq_left h.sound.capacity]

theorem Holds.setFail (h : r.Holds e q) : Holds e { r with fail := true } { q with fail := true } :=
  ⟨h.sound.setFail, h.limit, h.bits, h.used, rfl⟩

theorem Holds.read (h : r.Holds e q) (call : ReadCall) (hc : call.WithinLimits) :
    ∃ r', call.exec e r = .ok (r', (q.read call).2) ∧ r'.Holds e (q.read call).1 := by
  rw [Reading.read]
  by_cases hf : q.fail = true
  · rw [if_pos hf]
    exact ⟨r, call.exec_of_fail r (h.fail.trans hf), h⟩
  have hf : q.fail = false := by simpa using hf
  rw [if_neg (by simp [hf])]
  have hrf := h.fail.trans hf
  have href := call.exec_refines r (h.sound.synced hrf) hrf
    (call.checkSound_of_withinLimits r h.sound h.limit hc)
  rw [h.rest] at href
  cases hdec : call.decode q.rest with
  | ok p =>
    rw [hdec] at href
    obtain ⟨r', hr', ha⟩ := href
    have hused := ha.used
    have hlen := h.length
    refine ⟨r', hr', ha.sound h.sound, by rw [ha.total]; exact h.limit, ?_, ?_, ha.fail.trans h.fail⟩
    · rw [ha.words, ha.total]
      exact h.bits
    · change r'.logicalUsedBits.toNat = q.bits.length - p.2.length
      omega
  | error n =>
    rw [hdec] at href
    obtain ⟨r', hr', hstop⟩ := href
    refine ⟨r', hr', hstop.sound h.sound, by rw [hstop.total]; exact h.limit, ?_, ?_, hstop.fail⟩
    · rw [hstop.words, hstop.total]
      exact h.bits
    · exact hstop.used.trans (congrArg (· + n) h.used)

theorem Holds.peek (h : r.Holds e q) :
    ∃ r', r.peekStringLength e = .ok (r', q.peek.2) ∧ r'.Holds e q.peek.1 := by
  rw [Reading.peek]
  by_cases hf : q.fail = true
  · rw [if_pos hf]
    exact ⟨r, peekStringLength_of_fail r (h.fail.trans hf), h⟩
  have hf : q.fail = false := by simpa using hf
  rw [if_neg (by simp [hf])]
  have hrf := h.fail.trans hf
  have hpeek := peekStringLength_refines r (h.sound.synced hrf) hrf
    (lengthSound_of_limit r h.sound h.limit)
  rw [h.rest] at hpeek
  cases hdec : decodeLength q.rest with
  | ok p =>
    obtain ⟨raw, rest⟩ := p
    simp only [hdec] at hpeek
    dsimp only
    exact ⟨r, hpeek, h⟩
  | error n =>
    simp only [hdec] at hpeek
    exact ⟨_, hpeek, h.setFail⟩

theorem Holds.step (h : r.Holds e q) (op : ReaderOp) (hop : op.WithinLimits) :
    ∃ r', op.exec e r = .ok r' ∧ r'.Holds e (q.step op) := by
  cases op with
  | read call =>
    obtain ⟨r', hr', hq⟩ := h.read call hop
    exact ⟨r', by rw [ReaderOp.exec, hr']; rfl, hq⟩
  | peekStringLength =>
    obtain ⟨r', hr', hq⟩ := h.peek
    exact ⟨r', by rw [ReaderOp.exec, hr']; rfl, hq⟩
  | setFail => exact ⟨_, rfl, h.setFail⟩
  | restart =>
    exact ⟨_, rfl, restart_sound r h.sound.initFail h.sound.capacity h.sound.total_mod, h.limit,
      h.bits, rfl, h.sound.initFail⟩

end BitStreamReader

/-- After any history within the limits a writer holds the draft that the calls come to. -/
theorem writer_holds (w₀ : BitStreamWriter) (span : WordSpan) (L : SizeType)
    (hb : (w₀.resetWith span L).fail = false) (hL : L.toNat ≤ gnsMaxMsgRecvSize)
    (ops : List WriterOp) (hops : ∀ op ∈ ops, op.WithinLimits) :
    ∃ w, runOps e ops (w₀.resetWith span L) = .ok w ∧
      w.Holds e (Draft.run ops ⟨[], 8 * L.toNat, false, false⟩) := by
  have hlimit : 8 * gnsMaxMsgRecvSize = 2 ^ 23 := by decide
  have h8 := toNat_eight_mul L
  rw [Nat.mod_eq_of_lt (by omega)] at h8
  exact Run.run_simulates Draft.step (fun op w d hop h => h.step op hop) ops hops
    ⟨resetWith_sound w₀ span L hb, total_le_limit hL, hb, rfl, rfl, h8, fun _ => written_restart _,
      fun hno => absurd hno (by simp)⟩

theorem reader_holds (r₀ : BitStreamReader) (span : WordSpan) (L : SizeType)
    (hb : (r₀.resetWith span L).fail = false) (hL : L.toNat ≤ gnsMaxMsgRecvSize)
    (ops : List ReaderOp) (hops : ∀ op ∈ ops, op.WithinLimits) :
    ∃ r, runOps e ops (r₀.resetWith span L) = .ok r ∧ r.Holds e
      (Reading.run ops ⟨(memoryBits e span.words).take (8 * L.toNat), 0, false⟩) := by
  have ht := total_resetWith r₀ span hL
  refine Run.run_simulates Reading.step (fun op r q hop h => h.step op hop) ops hops
    ⟨resetWith_sound r₀ span L hb, by rw [ht]; omega, ?_, rfl, hb⟩
  rw [ht]
  rfl

end

/-- Both streams are what their calls come to. Whatever a program does with a writer, accepted
or not, its flags and its bits are those of the draft; and once that is flushed, whatever a
program on the other host does with a reader of the words, each call gives what it gives on the
bits of the draft, and the reader is as far and has failed as it has there. -/
theorem channel_refines (e₁ e₂ : Endian) (w₀ : BitStreamWriter) (span : WordSpan) (L : SizeType)
    (hb : (w₀.resetWith span L).fail = false) (hL : L.toNat ≤ gnsMaxMsgRecvSize)
    (ops : List WriterOp) (hops : ∀ op ∈ ops, op.WithinLimits) (d : Draft)
    (hd : d = Draft.run ops ⟨[], 8 * L.toNat, false, false⟩) :
    ∃ w, runOps e₁ ops (w₀.resetWith span L) = .ok w ∧ w.fail = d.fail ∧
      w.finalFlushed = d.flushed ∧ w.usedBits.toNat = d.bits.length ∧
      (d.flushed = true → ∀ (r₀ : BitStreamReader) (span' : WordSpan) (L' : SizeType),
        memoryBytes e₂ span'.words = memoryBytes e₁ (w.words.take (wordsFor w.usedBits.toNat)) →
        (r₀.resetWith span' L').fail = false → L'.toNat ≤ gnsMaxMsgRecvSize →
        ∀ ops' : List ReaderOp, (∀ op ∈ ops', op.WithinLimits) → ∀ q : Reading,
          q = Reading.run ops' ⟨(d.bits ++ padding d.bits.length).take (8 * L'.toNat), 0, false⟩ →
          ∃ r, runOps e₂ ops' (r₀.resetWith span' L') = .ok r ∧ r.fail = q.fail ∧
            r.usedBits.toNat = q.used ∧
            (∀ call : ReadCall, call.WithinLimits →
              ∃ r', call.exec e₂ r = .ok (r', (q.read call).2)) ∧
            ∃ r', r.peekStringLength e₂ = .ok (r', q.peek.2)) := by
  subst hd
  obtain ⟨w, hw, h⟩ := writer_holds (e := e₁) w₀ span L hb hL ops hops
  refine ⟨w, hw, h.fail, h.flushed, h.used,
    fun hfl r₀ span' L' hbytes hb' hL' ops' hops' q hq => ?_⟩
  obtain ⟨r, hr, hread⟩ := reader_holds (e := e₂) r₀ span' L' hb' hL' ops' hops'
  have hbits : memoryBits e₂ span'.words = _ := (congrArg byteBits hbytes).trans
    ((congrArg (fun n => memoryBits e₁ (w.words.take (wordsFor n))) h.used).trans (h.memory hfl))
  rw [hbits, ← hq] at hread
  refine ⟨r, hr, hread.fail, hread.used, fun call hc => ?_, ?_⟩
  · obtain ⟨r', hr', -⟩ := hread.read call hc
    exact ⟨r', hr'⟩
  · obtain ⟨r', hr', -⟩ := hread.peek
    exact ⟨r', hr'⟩

/-- Both have failed and started again before. -/
theorem channel_refines_restarted :
    ∃ r r', runOps .big [.read (.double 0), .restart,
        .read (.int .bool ⟨0, by decide⟩ ⟨0, by decide⟩ ⟨1, by decide⟩)]
        ((default : BitStreamReader).resetWith ⟨false, [0x09080200]⟩ 4) = .ok r ∧
      (ReadCall.string .char8 [] 9).exec .big r =
        .ok (r', .string .char8 [⟨65, by decide⟩] 9) := by
  obtain ⟨w, hw, -, -, -, h⟩ := channel_refines .little .big default ⟨false, [0]⟩ 4 (by decide)
    (by decide) [.write (.double 0), .restart,
      .write (.int .bool ⟨1, by decide⟩ ⟨0, by decide⟩ ⟨1, by decide⟩),
      .write (.string .char8 [⟨65, by decide⟩]), .flushFinal] (by decide) _ rfl
  have hrun : runOps .little [.write (.double 0), .restart,
      .write (.int .bool ⟨1, by decide⟩ ⟨0, by decide⟩ ⟨1, by decide⟩),
      .write (.string .char8 [⟨65, by decide⟩]), .flushFinal]
      ((default : BitStreamWriter).resetWith ⟨false, [0]⟩ 4) =
    .ok (BitStreamWriter.mk 0 [0x20809] 0 1 32 19 false false true) := by decide
  obtain rfl := Run.ok_unique hw hrun
  obtain ⟨r, hr, -, -, hread, -⟩ := h rfl default ⟨false, [0x09080200]⟩ 4 (by decide) (by decide)
    (by decide) [.read (.double 0), .restart,
      .read (.int .bool ⟨0, by decide⟩ ⟨0, by decide⟩ ⟨1, by decide⟩)] (by decide) _ rfl
  obtain ⟨r', hr'⟩ := hread (.string .char8 [] 9) trivial
  exact ⟨r, r', hr, hr'⟩

/-- Only what was written is sent. Two programs whose accepted bits are the same leave the same
bytes in the words their messages consist of: nothing there is left over from what lay in the
buffers before, from writes that were refused, from messages that were given up, or from the
host. -/
theorem only_draft_sent (e e' : Endian) (w₀ w₀' : BitStreamWriter) (span span' : WordSpan)
    (L L' : SizeType) (hb : (w₀.resetWith span L).fail = false)
    (hb' : (w₀'.resetWith span' L').fail = false) (hL : L.toNat ≤ gnsMaxMsgRecvSize)
    (hL' : L'.toNat ≤ gnsMaxMsgRecvSize) (ops ops' : List WriterOp)
    (hops : ∀ op ∈ ops, op.WithinLimits) (hops' : ∀ op ∈ ops', op.WithinLimits)
    (hsame : (Draft.run ops' ⟨[], 8 * L'.toNat, false, false⟩).bits =
      (Draft.run ops ⟨[], 8 * L.toNat, false, false⟩).bits) :
    ∃ w w', runOps e ops (w₀.resetWith span L) = .ok w ∧
      runOps e' ops' (w₀'.resetWith span' L') = .ok w' ∧ w'.usedBits = w.usedBits ∧
      (w.finalFlushed = true → w'.finalFlushed = true →
        memoryBytes e' (w'.words.take (wordsFor w'.usedBits.toNat)) =
          memoryBytes e (w.words.take (wordsFor w.usedBits.toNat))) := by
  obtain ⟨w, hw, h⟩ := writer_holds (e := e) w₀ span L hb hL ops hops
  obtain ⟨w', hw', h'⟩ := writer_holds (e := e') w₀' span' L' hb' hL' ops' hops'
  have hused := h'.used
  have hmemory := h'.memory
  rw [hsame] at hused hmemory
  refine ⟨w, w', hw, hw', BitVec.eq_of_toNat_eq (hused.trans h.used.symm), fun hfl hfl' => ?_⟩
  have hbits := h.memory (h.flushed.symm.trans hfl)
  have hbits' := hmemory (h'.flushed.symm.trans hfl')
  rw [hused, h.used]
  exact memoryBytes_eq_of_bits (hbits'.trans hbits.symm)

/-- Junk in one buffer. In the other, which is shorter, a message that was given up before and a
write that was refused behind. -/
theorem only_draft_sent_restarted :
    ∃ w w', runOps .little [.write (.int .bool ⟨1, by decide⟩ ⟨0, by decide⟩ ⟨1, by decide⟩),
        .flushFinal] ((default : BitStreamWriter).resetWith ⟨false, [0xdeadbeef, 0xdeadbeef]⟩ 8) =
        .ok w ∧
      runOps .big [.write (.double 0x3ff0000000000000), .restart,
        .write (.int .bool ⟨1, by decide⟩ ⟨0, by decide⟩ ⟨1, by decide⟩), .flushFinal,
        .write (.float 0)] ((default : BitStreamWriter).resetWith ⟨false, [0]⟩ 4) = .ok w' ∧
      w.fail = false ∧ w'.fail = true ∧
      memoryBytes .big (w'.words.take 1) = memoryBytes .little (w.words.take 1) := by
  obtain ⟨w, w', hw, hw', -, hbytes⟩ := only_draft_sent .little .big default default
    ⟨false, [0xdeadbeef, 0xdeadbeef]⟩ ⟨false, [0]⟩ 8 4 (by decide) (by decide) (by decide)
    (by decide) [.write (.int .bool ⟨1, by decide⟩ ⟨0, by decide⟩ ⟨1, by decide⟩), .flushFinal]
    [.write (.double 0x3ff0000000000000), .restart,
      .write (.int .bool ⟨1, by decide⟩ ⟨0, by decide⟩ ⟨1, by decide⟩), .flushFinal,
      .write (.float 0)] (by decide) (by decide) rfl
  have hrun : runOps .little
      [.write (.int .bool ⟨1, by decide⟩ ⟨0, by decide⟩ ⟨1, by decide⟩), .flushFinal]
      ((default : BitStreamWriter).resetWith ⟨false, [0xdeadbeef, 0xdeadbeef]⟩ 8) =
    .ok (BitStreamWriter.mk 0 [1, 0xdeadbeef] 0 1 64 1 false false true) := by decide
  have hrun' : runOps .big [.write (.double 0x3ff0000000000000), .restart,
      .write (.int .bool ⟨1, by decide⟩ ⟨0, by decide⟩ ⟨1, by decide⟩), .flushFinal,
      .write (.float 0)] ((default : BitStreamWriter).resetWith ⟨false, [0]⟩ 4) =
    .ok (BitStreamWriter.mk 0 [0x1000000] 0 1 32 1 false true true) := by decide
  obtain rfl := Run.ok_unique hw hrun
  obtain rfl := Run.ok_unique hw' hrun'
  exact ⟨_, _, hw, hw', rfl, rfl, hbytes rfl rfl⟩

/-- Nothing behind the logical end shows. Two readers whose messages agree up to their common
logical length, on whatever hosts and whatever lies in the words behind, cannot be told apart:
after any history each read leaves the same in its destination, and each peek returns the
same. -/
theorem nothing_beyond_shows (e e' : Endian) (r₀ r₀' : BitStreamReader) (span span' : WordSpan)
    (L : SizeType) (hb : (r₀.resetWith span L).fail = false)
    (hb' : (r₀'.resetWith span' L).fail = false) (hL : L.toNat ≤ gnsMaxMsgRecvSize)
    (hsame : (memoryBytes e span.words).take L.toNat = (memoryBytes e' span'.words).take L.toNat)
    (ops : List ReaderOp) (hops : ∀ op ∈ ops, op.WithinLimits) :
    ∃ r r', runOps e ops (r₀.resetWith span L) = .ok r ∧
      runOps e' ops (r₀'.resetWith span' L) = .ok r' ∧ r'.fail = r.fail ∧
      r'.usedBits = r.usedBits ∧
      (∀ call : ReadCall, call.WithinLimits → ∃ s s' done, call.exec e r = .ok (s, done) ∧
        call.exec e' r' = .ok (s', done)) ∧
      ∃ s s' n, r.peekStringLength e = .ok (s, n) ∧ r'.peekStringLength e' = .ok (s', n) := by
  obtain ⟨r, hr, h⟩ := reader_holds (e := e) r₀ span L hb hL ops hops
  obtain ⟨r', hr', h'⟩ := reader_holds (e := e') r₀' span' L hb' hL ops hops
  have hbits : (memoryBits e span.words).take (8 * L.toNat) =
      (memoryBits e' span'.words).take (8 * L.toNat) := by
    rw [memoryBits, memoryBits, ← byteBits_take, ← byteBits_take, hsame]
  rw [← hbits] at h'
  refine ⟨r, r', hr, hr', h'.fail.trans h.fail.symm,
    BitVec.eq_of_toNat_eq (h'.used.trans h.used.symm), fun call hc => ?_, ?_⟩
  · obtain ⟨s, hs, -⟩ := h.read call hc
    obtain ⟨s', hs', -⟩ := h'.read call hc
    exact ⟨s, s', _, hs, hs'⟩
  · obtain ⟨s, hs, -⟩ := h.peek
    obtain ⟨s', hs', -⟩ := h'.peek
    exact ⟨s, s', _, hs, hs'⟩

/-- The fourth byte is 0xaa on one host and 0xbb on the other. -/
theorem nothing_beyond_shows_junk :
    ∃ r r', runOps .little [.read (.int .bool ⟨0, by decide⟩ ⟨0, by decide⟩ ⟨1, by decide⟩)]
        ((default : BitStreamReader).resetWith ⟨false, [0xaa020809]⟩ 3) = .ok r ∧
      runOps .big [.read (.int .bool ⟨0, by decide⟩ ⟨0, by decide⟩ ⟨1, by decide⟩)]
        ((default : BitStreamReader).resetWith ⟨false, [0x090802bb]⟩ 3) = .ok r' ∧
      ∃ s s' done, (ReadCall.string .char8 [] 9).exec .little r = .ok (s, done) ∧
        (ReadCall.string .char8 [] 9).exec .big r' = .ok (s', done) := by
  obtain ⟨r, r', hr, hr', -, -, h, -⟩ := nothing_beyond_shows .little .big default default
    ⟨false, [0xaa020809]⟩ ⟨false, [0x090802bb]⟩ 3 (by decide) (by decide) (by decide) (by decide)
    [.read (.int .bool ⟨0, by decide⟩ ⟨0, by decide⟩ ⟨1, by decide⟩)] (by decide)
  exact ⟨r, r', hr, hr', h _ trivial⟩

end Nalchi
