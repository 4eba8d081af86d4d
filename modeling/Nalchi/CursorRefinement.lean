import Nalchi.FailingReads

/-! Whole runs of reads: the reader refines a cursor that starts at the first bit
of the buffer, and nothing behind the logical end has a part in it. -/
namespace Nalchi
open BitStreamReader

variable {e : Endian}

theorem BitStreamReader.readAll_cons {call done : ReadCall} {calls dones : List ReadCall}
    {r r₁ r' : BitStreamReader} (h : call.exec e r = .ok (r₁, done))
    (h' : r₁.readAll e calls = .ok (r', dones)) :
    r.readAll e (call :: calls) = .ok (r', done :: dones) := by
  rw [readAll, h]
  simp only [Run.bind_ok]
  rw [h']
  rfl

theorem BitStreamReader.readAll_of_fail (calls : List ReadCall) (r : BitStreamReader)
    (hf : r.fail = true) : r.readAll e calls = .ok (r, calls) := by
  induction calls with
  | nil => rfl
  | cons call calls ih => exact readAll_cons (call.exec_of_fail r hf) ih

/-- Reads in sequence refine the decoder of the sequence. -/
theorem readAll_refines (calls : List ReadCall) (hc : ∀ call ∈ calls, call.WithinLimits)
    (r : BitStreamReader) (h : r.Sound e) (hf : r.fail = false)
    (ht : r.logicalTotalBits.toNat ≤ 8 * gnsMaxMsgRecvSize) :
    match decodeAll calls (r.logicalRest e) with
    | .ok (dones, rest) => ∃ r', r.readAll e calls = .ok (r', dones) ∧ Advanced e r r' rest
    | .error _ => ∃ r' dones, r.readAll e calls = .ok (r', dones) ∧ r'.fail = true := by
  induction calls generalizing r with
  | nil => exact ⟨r, rfl, Advanced.refl (h.synced hf)⟩
  | cons call calls ih =>
    have href := call.exec_refines r (h.synced hf) hf
      (call.checkSound_of_withinLimits r h ht (hc call (by simp)))
    rw [decodeAll]
    cases hdec : call.decode (r.logicalRest e) with
    | error n =>
      rw [hdec] at href
      obtain ⟨r', hr', hstop⟩ := href
      exact ⟨r', call :: calls, readAll_cons hr' (readAll_of_fail calls r' hstop.fail), hstop.fail⟩
    | ok p =>
      rw [hdec] at href
      obtain ⟨r₁, hr₁, ha⟩ := href
      have hrec := ih (fun c hc' => hc c (by simp [hc'])) r₁ (ha.sound h) (ha.fail.trans hf)
        (by rw [ha.total]; exact ht)
      rw [ha.rest] at hrec
      simp only [Run.bind_ok]
      cases hrest : decodeAll calls p.2 with
      | error n =>
        rw [hrest] at hrec
        obtain ⟨r', dones, hr', hf'⟩ := hrec
        exact ⟨r', p.1 :: dones, readAll_cons hr₁ hr', hf'⟩
      | ok q =>
        rw [hrest] at hrec
        obtain ⟨r', hr', ha'⟩ := hrec
        exact ⟨r', readAll_cons hr₁ hr', ha.trans ha'⟩

/-- The same, told from what the reads did. -/
theorem readAll_outcome (calls : List ReadCall) (hc : ∀ call ∈ calls, call.WithinLimits)
    (r : BitStreamReader) (h : r.Sound e) (hf : r.fail = false)
    (ht : r.logicalTotalBits.toNat ≤ 8 * gnsMaxMsgRecvSize) {r' : BitStreamReader}
    {dones : List ReadCall} (hr' : r.readAll e calls = .ok (r', dones)) :
    (r'.fail = true ∧ ∃ n, decodeAll calls (r.logicalRest e) = .error n) ∨
      (decodeAll calls (r.logicalRest e) = .ok (dones, r'.logicalRest e) ∧
        Advanced e r r' (r'.logicalRest e)) := by
  have href := readAll_refines calls hc r h hf ht
  cases hdec : decodeAll calls (r.logicalRest e) with
  | error n =>
    rw [hdec] at href
    obtain ⟨r₁, dones₁, hr₁, hf₁⟩ := href
    obtain ⟨rfl, -⟩ := Run.ok_unique_pair hr₁ hr'
    exact .inl ⟨hf₁, n, rfl⟩
  | ok q =>
    rw [hdec] at href
    obtain ⟨r₁, hr₁, ha⟩ := href
    obtain ⟨rfl, rfl⟩ := Run.ok_unique_pair hr₁ hr'
    have hrest := ha.rest
    rw [← hrest] at ha
    exact .inr ⟨congrArg Except.ok (Prod.ext rfl hrest.symm), ha⟩

/-- Two readers at one place of two buffers that agree up to the logical end. -/
structure SameCursor (e : Endian) (r : BitStreamReader) (e' : Endian) (r' : BitStreamReader) :
    Prop where
  sound : r.Sound e
  sound' : r'.Sound e'
  total : r'.logicalTotalBits = r.logicalTotalBits
  used : r'.logicalUsedBits = r.logicalUsedBits
  fail : r'.fail = r.fail
  rest : r.fail = false → r'.logicalRest e' = r.logicalRest e

/-- A read takes them to one place and delivers the same to both. -/
theorem SameCursor.exec {e e' : Endian} {r r' : BitStreamReader} (h : SameCursor e r e' r')
    (ht : r.logicalTotalBits.toNat ≤ 8 * gnsMaxMsgRecvSize) (call : ReadCall)
    (hc : call.WithinLimits) :
    ∃ s s' after, call.exec e r = .ok (s, after) ∧ call.exec e' r' = .ok (s', after) ∧
      SameCursor e s e' s' ∧ s.logicalTotalBits = r.logicalTotalBits := by
  by_cases hf : r.fail = true
  · exact ⟨r, r', call, call.exec_of_fail r hf, call.exec_of_fail r' (h.fail.trans hf), h, rfl⟩
  have hf : r.fail = false := by simpa using hf
  have hf' : r'.fail = false := h.fail.trans hf
  have href := call.exec_refines r (h.sound.synced hf) hf
    (call.checkSound_of_withinLimits r h.sound ht hc)
  have href' := call.exec_refines r' (h.sound'.synced hf') hf'
    (call.checkSound_of_withinLimits r' h.sound' (by rw [h.total]; exact ht) hc)
  rw [h.rest hf] at href'
  cases hdec : call.decode (r.logicalRest e) with
  | ok p =>
    rw [hdec] at href href'
    obtain ⟨s, hs, ha⟩ := href
    obtain ⟨s', hs', ha'⟩ := href'
    have hu := ha.used
    have hu' := ha'.used
    rw [h.total] at hu'
    exact ⟨s, s', p.1, hs, hs', ⟨ha.sound h.sound, ha'.sound h.sound',
      by rw [ha.total, ha'.total, h.total], BitVec.eq_of_toNat_eq (by omega),
      by rw [ha.fail, ha'.fail, h.fail], fun _ => ha'.rest.trans ha.rest.symm⟩, ha.total⟩
  | error n =>
    rw [hdec] at href href'
    obtain ⟨s, hs, hstop⟩ := href
    obtain ⟨s', hs', hstop'⟩ := href'
    have hu := hstop.used
    have hu' := hstop'.used
    rw [h.used] at hu'
    exact ⟨s, s', call, hs, hs', ⟨hstop.sound h.sound, hstop'.sound h.sound',
      by rw [hstop.total, hstop'.total, h.total], BitVec.eq_of_toNat_eq (by omega),
      by rw [hstop.fail, hstop'.fail], fun hno => absurd (hstop.fail.symm.trans hno) (by simp)⟩,
      hstop.total⟩

theorem SameCursor.readAll {e e' : Endian} (calls : List ReadCall)
    (hc : ∀ call ∈ calls, call.WithinLimits) {r r' : BitStreamReader} (h : SameCursor e r e' r')
    (ht : r.logicalTotalBits.toNat ≤ 8 * gnsMaxMsgRecvSize) :
    ∃ s s' done, r.readAll e calls = .ok (s, done) ∧ r'.readAll e' calls = .ok (s', done) ∧
      SameCursor e s e' s' := by
  induction calls generalizing r r' with
  | nil => exact ⟨r, r', [], rfl, rfl, h⟩
  | cons call calls ih =>
    obtain ⟨t, t', after, hr, hr', hsame, htotal⟩ := h.exec ht call (hc call (by simp))
    obtain ⟨s, s', done, hs, hs', hfinal⟩ := ih (fun c hc' => hc c (by simp [hc'])) hsame
      (by rw [htotal]; exact ht)
    exact ⟨s, s', after :: done, readAll_cons hr hs, readAll_cons hr' hs', hfinal⟩

/-- Freshly bound readers are at the first bit. -/
theorem SameCursor.resetWith {e o : Endian} {r r' : BitStreamReader} {span span' : WordSpan}
    {L : SizeType} (hL : L.toNat ≤ gnsMaxMsgRecvSize) (hb : (r.resetWith span L).fail = false)
    (hb' : (r'.resetWith span' L).fail = false)
    (hsame : (memoryBits o span'.words).take (8 * L.toNat) =
      (memoryBits e span.words).take (8 * L.toNat)) :
    SameCursor e (r.resetWith span L) o (r'.resetWith span' L) where
  sound := resetWith_sound r span L hb
  sound' := resetWith_sound r' span' L hb'
  total := rfl
  used := rfl
  fail := hb'.trans hb.symm
  rest := fun _ => by
    rw [logicalRest, logicalRest, total_resetWith r span hL, total_resetWith r' span' hL]
    exact congrArg (List.drop 0) hsame

/-- The logical rest of a reader that went on from a fresh one, told by the buffer. -/
theorem logicalRest_eq (r : BitStreamReader) {u : List WordType} {n : Nat} (hw : r.words = u)
    (ht : r.logicalTotalBits.toNat = n) :
    r.logicalRest e = ((memoryBits e u).take n).drop r.usedBits.toNat := by
  rw [logicalRest, hw, ht]
  rfl

theorem logicalRest_resetWith (r : BitStreamReader) (span : WordSpan) {L : SizeType}
    (hL : L.toNat ≤ gnsMaxMsgRecvSize) :
    (r.resetWith span L).logicalRest e = (memoryBits e span.words).take (8 * L.toNat) :=
  logicalRest_eq (r.resetWith span L) rfl (total_resetWith r span hL)

/-- The `b` bits at `p`, as a number. -/
def fieldAt (bits : List Bool) (p b : Nat) : Nat := Bits.toNat ((bits.drop p).take b)

theorem toNat_take_logicalRest (r : BitStreamReader) (h : r.Synced e) (b : Nat)
    (hb : b ≤ (r.logicalRest e).length) :
    Bits.toNat ((r.logicalRest e).take b) = fieldAt (memoryBits e r.words) r.usedBits.toNat b := by
  rw [← (take_ahead r h b hb).2, h.ahead_eq]
  rfl

/-- An integer read at any place: the field there, if it ends before the logical end. -/
theorem readInt_at (r : BitStreamReader) (h : r.Synced e) (hf : r.fail = false) (t : IntType)
    (data min max : t.Value) (hlt : min.val < max.val)
    (hs : r.SumSound (t.rangeBits min max)) :
    let p := r.usedBits.toNat
    let b := bitWidth (max.val - min.val).toNat
    let x := t.cast (min.val + (fieldAt (memoryBits e r.words) p b : Nat))
    ∃ r' y, r.readInt e t data min max = .ok (r', y) ∧
      if r.logicalTotalBits.toNat < p + b ∨ max.val < x.val then
        r'.fail = true ∧ r'.usedBits.toNat = p ∧ y = data
      else r'.fail = false ∧ r'.usedBits.toNat = p + b ∧ y = x := by
  intro p b x
  have href := doRead_refines r h hf t data min max fun _ => hs
  have hl := length_logicalRest r h
  have hle := h.used_le
  have hp : p = r.logicalUsedBits.toNat := rfl
  rw [decodeInt, if_neg (by omega)] at href
  by_cases hlack : r.logicalTotalBits.toNat < p + b
  · have hshort : (r.logicalRest e).length < b := by omega
    rw [Bits.split_of_lt hshort] at href
    obtain ⟨r', hr', hstop⟩ := href
    exact ⟨r', data, hr', by rw [if_pos (.inl hlack)]; exact ⟨hstop.fail, hstop.used, rfl⟩⟩
  · have hb : b ≤ (r.logicalRest e).length := by omega
    rw [Bits.split_of_le hb] at href
    simp only [toNat_take_logicalRest r h _ hb] at href
    by_cases hmax : max.val < x.val
    · rw [if_pos hmax] at href
      obtain ⟨r', hr', hstop⟩ := href
      exact ⟨r', data, hr', by rw [if_pos (.inr hmax)]; exact ⟨hstop.fail, hstop.used, rfl⟩⟩
    · rw [if_neg hmax] at href
      obtain ⟨r', hr', ha⟩ := href
      have hu := ha.used
      rw [List.length_drop] at hu
      have hp' : r'.usedBits.toNat = p + b := by
        change r'.logicalUsedBits.toNat = p + b
        omega
      exact ⟨r', x, hr', by rw [if_neg (by tauto)]; exact ⟨ha.fail.trans hf, hp', rfl⟩⟩

/-- The reader refines a cursor over the bits of the buffer. After any history and a
restart, a sequence of reads that succeeds has taken its fields one behind the
other from the first bit on, the next integer read takes the field at the used
bits, and buffers that agree up to the logical end cannot be told apart. -/
theorem reader_refines_cursor (e : Endian) (r₀ : BitStreamReader) (span : WordSpan) (L : SizeType)
    (hb : (r₀.resetWith span L).fail = false) (hL : L.toNat ≤ gnsMaxMsgRecvSize)
    (ops : List ReaderOp) (r : BitStreamReader)
    (hops : runOps e ops (r₀.resetWith span L) = .ok r) (calls : List ReadCall)
    (hc : ∀ call ∈ calls, call.WithinLimits) :
    ∃ r₁ done, r.restart.readAll e calls = .ok (r₁, done) ∧
      (r₁.fail = true ↔ ∃ n, decodeAll calls ((memoryBits e span.words).take (8 * L.toNat)) =
        .error n) ∧
      (r₁.fail = false →
        let bits := memoryBits e span.words
        let p := r₁.usedBits.toNat
        decodeAll calls (bits.take (8 * L.toNat)) = .ok (done, (bits.take (8 * L.toNat)).drop p) ∧
        ∀ (t : IntType) (data min max : t.Value), min.val < max.val →
          let b := bitWidth (max.val - min.val).toNat
          let x := t.cast (min.val + (fieldAt bits p b : Nat))
          ∃ r₂ y, r₁.readInt e t data min max = .ok (r₂, y) ∧
            if 8 * L.toNat < p + b ∨ max.val < x.val then
              r₂.fail = true ∧ r₂.usedBits.toNat = p ∧ y = data
            else r₂.fail = false ∧ r₂.usedBits.toNat = p + b ∧ y = x) ∧
      (∀ (e' : Endian) (r₀' : BitStreamReader) (span' : WordSpan),
        (r₀'.resetWith span' L).fail = false →
        (memoryBits e' span'.words).take (8 * L.toNat) =
          (memoryBits e span.words).take (8 * L.toNat) →
        ∃ r₁', (r₀'.resetWith span' L).readAll e' calls = .ok (r₁', done) ∧
          r₁'.fail = r₁.fail ∧ r₁'.usedBits = r₁.usedBits) := by
  rw [restart_runOps hops]
  have hsound := resetWith_sound (e := e) r₀ span L hb
  have ht := total_resetWith r₀ span hL
  have hlimit : (r₀.resetWith span L).logicalTotalBits.toNat ≤ 8 * gnsMaxMsgRecvSize := by omega
  obtain ⟨r₁, r₁', done, hr₁, -, hsame⟩ := SameCursor.readAll calls hc
    (SameCursor.resetWith hL hb hb (o := e) rfl) hlimit
  have hout := readAll_outcome calls hc _ hsound hb hlimit hr₁
  rw [logicalRest_resetWith r₀ span hL] at hout
  refine ⟨r₁, done, hr₁, ?_, fun hf => ?_, fun e' r₀' span' hb' hbits => ?_⟩
  · obtain ⟨hf, herr⟩ | ⟨hdec, ha⟩ := hout
    · exact iff_of_true hf herr
    · exact iff_of_false (by simp [ha.fail.trans hb]) (by simp [hdec])
  · obtain ⟨hf₁, -⟩ | ⟨hdec, ha⟩ := hout
    · exact absurd (hf₁.symm.trans hf) (by simp)
    refine ⟨?_, fun t data min max hlt => ?_⟩
    · rw [← logicalRest_eq (e := e) r₁ (u := span.words) ha.words
        ((congrArg BitVec.toNat ha.total).trans ht)]
      exact hdec
    · have hcheck := (ReadCall.int t data min max).checkSound_of_withinLimits r₁ hsame.sound
        (by rw [ha.total]; exact hlimit) trivial hf hlt
      have hat := readInt_at r₁ ha.synced hf t data min max hlt hcheck
      rw [ha.total, ht, ha.words] at hat
      exact hat
  · obtain ⟨s, s', done', hs, hs', hsame'⟩ := SameCursor.readAll calls hc
      (SameCursor.resetWith hL hb hb' hbits) hlimit
    obtain ⟨rfl, rfl⟩ := Run.ok_unique_pair hs hr₁
    exact ⟨s', hs', hsame'.fail, hsame'.used⟩

/-- A flag and a byte, read again after a read that failed half-way, from a buffer
with something else behind its logical end. -/
theorem reader_refines_cursor_after_failed_read :
    ∃ r₁ done, ((default : BitStreamReader).resetWith ⟨false, [0xffff0203]⟩ 2).readAll .little
        [.int .bool ⟨0, by decide⟩ ⟨0, by decide⟩ ⟨1, by decide⟩, .block (fun _ => ⟨0, by decide⟩) 1] =
          .ok (r₁, done) ∧
      ∃ r₁', ((default : BitStreamReader).resetWith ⟨false, [0x0302aaaa]⟩ 2).readAll .big
        [.int .bool ⟨0, by decide⟩ ⟨0, by decide⟩ ⟨1, by decide⟩, .block (fun _ => ⟨0, by decide⟩) 1] =
          .ok (r₁', done) ∧ r₁'.fail = r₁.fail := by
  obtain ⟨r₁, done, hr₁, -, -, hagree⟩ := reader_refines_cursor .little default
    ⟨false, [0xffff0203]⟩ 2 (by decide) (by decide)
    [.read (.int .uint8 ⟨0, by decide⟩ ⟨0, by decide⟩ ⟨2, by decide⟩)] _ rfl
    [.int .bool ⟨0, by decide⟩ ⟨0, by decide⟩ ⟨1, by decide⟩, .block (fun _ => ⟨0, by decide⟩) 1]
    (by decide)
  obtain ⟨r₁', hr₁', hf, -⟩ := hagree .big default ⟨false, [0x0302aaaa]⟩ (by decide) (by decide)
  exact ⟨r₁, done, hr₁, r₁', hr₁', hf⟩

end Nalchi
