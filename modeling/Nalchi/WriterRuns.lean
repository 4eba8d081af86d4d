import Nalchi.Appending

/-! Whole runs of the writer: a sequence of writes, the final flush behind it, and
what holds of a bound writer whatever was done with it. -/
namespace Nalchi
namespace BitStreamWriter
variable {e : Endian}

/-- Words it takes to hold so many bits. -/
def wordsFor (bits : Nat) : Nat := (bits + 31) / 32

/-- What is still missing to the end of the last word. -/
def padding (bits : Nat) : List Bool := List.replicate (32 * wordsFor bits - bits) false

/-- The state a final flush leaves when `bs` was written: whole words, zeros behind
the last bit, and the words after them as they were. -/
structure Flushed (e : Endian) (w w' : BitStreamWriter) (bs : List Bool) : Prop where
  bits : memoryBits e (w'.words.take (wordsFor bs.length)) = bs ++ padding bs.length
  later : w'.words.drop (wordsFor bs.length) = w.words.drop (wordsFor bs.length)
  wordsIndex : w'.wordsIndex = wordsFor bs.length
  used : w'.logicalUsedBits.toNat = bs.length
  length : w'.words.length = w.words.length
  total : w'.logicalTotalBits = w.logicalTotalBits
  initFail : w'.initFail = w.initFail
  fail : w'.fail = false
  finalFlushed : w'.finalFlushed = true

theorem length_written (w : BitStreamWriter) (h : w.Aligned) :
    ((w.written e).length : Int) = w.position := by
  have h0 := h.wordsIndex_nonneg
  have h1 := h.wordsIndex_le
  have h2 := h.index_nonneg
  rw [written, List.length_append, length_memoryBits, Bits.length_ofNat, List.length_take,
    Nat.min_eq_left (by omega), position]
  push_cast
  omega

/-- The final flush stores the last, partial word if there is one. -/
theorem flushFinal_spec (w : BitStreamWriter) (h : w.Packed) (hf : w.fail = false)
    (hfl : w.finalFlushed = false) :
    ∃ w', w.flushFinal e = .ok w' ∧ Flushed e w w' (w.written e) := by
  obtain ⟨h0, h1, h2, h3, h4⟩ := h.toAligned
  have hlen := length_written (e := e) w h.toAligned
  have hused := h.used_eq
  have hcap := h.capacity
  have hle := h.used_le
  have hpos : w.position = 32 * w.wordsIndex + w.scratchIndex := rfl
  simp only [flushFinal, hf, hfl, Bool.false_eq_true, if_false]
  by_cases hs : 0 < w.scratchIndex
  · have hi : wordsFor (w.written e).length = w.wordsIndex.toNat + 1 := by
      rw [wordsFor]
      omega
    have hlt : w.wordsIndex.toNat < w.words.length := by omega
    rw [if_pos hs, doFlushWordUnchecked_eq w h0 (by omega)]
    refine ⟨_, rfl, ?_, ?_, by dsimp only; omega, by dsimp only; omega, by simp, rfl, rfl, hf, rfl⟩
    · -- Above its index the scratch is zero: that is the padding.
      have hpad : Bits.ofNat 32 w.scratch.toNat =
          Bits.ofNat w.scratchIndex.toNat w.scratch.toNat ++ padding (w.written e).length := by
        have hadd := Bits.ofNat_add w.scratchIndex.toNat (32 - w.scratchIndex.toNat) w.scratch.toNat
        rw [Nat.add_sub_cancel' (by omega), Nat.div_eq_of_lt h4, Bits.ofNat_zero] at hadd
        rw [hadd, padding, hi]
        congr 2
        omega
      rw [hi]
      dsimp only
      rw [memoryBits_flush _ _ _ hlt, hpad, ← List.append_assoc]
      rfl
    · dsimp only
      rw [hi, List.drop_set_of_lt (by omega)]
  · have hi : wordsFor (w.written e).length = w.wordsIndex.toNat := by
      rw [wordsFor]
      omega
    have hz : w.scratchIndex.toNat = 0 := by omega
    rw [if_neg hs]
    refine ⟨_, rfl, ?_, rfl, by dsimp only; omega, by dsimp only; omega, rfl, rfl, rfl, hf, rfl⟩
    have hpad : padding (w.written e).length = [] := by
      rw [padding, hi, List.replicate_eq_nil_iff]
      omega
    rw [hpad, hi, List.append_nil, written, hz, Bits.ofNat_zero_width, List.append_nil]

/-- Nothing happens to a stream that has failed. -/
theorem writeAll_of_fail (calls : List WriteCall) (w : BitStreamWriter) (hf : w.fail = true) :
    writeAll e calls w = .ok w := by
  have hw : { w with fail := true } = w := by rw [← hf]
  induction calls with
  | nil => rfl
  | cons call calls ih =>
    rw [writeAll, Run.run, call.exec_of_closed w (.inl hf), hw]
    exact ih

/-- A sequence of writes is accepted as a whole. -/
def AllAccepted (calls : List WriteCall) (w : BitStreamWriter) : Prop :=
  (∀ call ∈ calls, call.Valid) ∧
    w.logicalUsedBits.toNat + (encodeAll calls).length ≤ w.logicalTotalBits.toNat

theorem length_encodeAll_cons (call : WriteCall) (calls : List WriteCall) :
    (encodeAll (call :: calls)).length = call.cost + (encodeAll calls).length := by
  rw [encodeAll, List.flatMap_cons, List.length_append, length_encode]
  rfl

/-- A sequence that fits is packed call by call. -/
theorem writeAll_of_accepted (calls : List WriteCall) (w : BitStreamWriter) (h : w.Packed)
    (hf : w.fail = false) (hfl : w.finalFlushed = false) (ha : AllAccepted calls w) :
    ∃ w', writeAll e calls w = .ok w' ∧ Appended e w w' (encodeAll calls) := by
  induction calls generalizing w with
  | nil => exact ⟨w, rfl, Appended.refl h⟩
  | cons call calls ih =>
    obtain ⟨hv, hfit⟩ := ha
    rw [length_encodeAll_cons] at hfit
    obtain ⟨w₁, hw₁, ha₁⟩ := call.exec_of_accepted (e := e) w h
      ⟨hf, hfl, hv call (by simp), by omega⟩
    have hx := ha₁.toExtends
    have hu := ha₁.used h
    rw [length_encode] at hu
    obtain ⟨w₂, hw₂, ha₂⟩ := ih w₁ ha₁.packed (hx.fail.trans hf) (hx.finalFlushed.trans hfl)
      ⟨fun c hc => hv c (by simp [hc]), by rw [hu, hx.total]; omega⟩
    exact ⟨w₂, by rw [writeAll, Run.run, hw₁, Run.bind_ok]; exact hw₂, ha₁.trans ha₂⟩

/-- A sequence that does not fit leaves the stream failed, all checks being sound. -/
theorem writeAll_of_not_accepted (calls : List WriteCall) (w : BitStreamWriter) (h : w.Packed)
    (hf : w.fail = false) (hfl : w.finalFlushed = false) (ha : ¬ AllAccepted calls w)
    (hs : Run.Along (WriteCall.exec e) WriteCall.CheckSound calls w) :
    ∃ w', writeAll e calls w = .ok w' ∧ w'.fail = true := by
  induction calls generalizing w with
  | nil => exact absurd ⟨by simp, by simpa [encodeAll] using h.used_le⟩ ha
  | cons call calls ih =>
    by_cases hc : call.Accepted w
    · obtain ⟨w₁, hw₁, ha₁⟩ := call.exec_of_accepted (e := e) w h hc
      have hx := ha₁.toExtends
      have hu := ha₁.used h
      rw [length_encode] at hu
      have ha' : ¬ AllAccepted calls w₁ := by
        rintro ⟨hv, hfit⟩
        rw [hu, hx.total] at hfit
        refine ha ⟨by simpa using ⟨hc.2.2.1, hv⟩, ?_⟩
        rw [length_encodeAll_cons]
        omega
      obtain ⟨w₂, hw₂, hf₂⟩ := ih w₁ ha₁.packed (hx.fail.trans hf) (hx.finalFlushed.trans hfl) ha'
        (hs.2 w₁ hw₁)
      exact ⟨w₂, by rw [writeAll, Run.run, hw₁, Run.bind_ok]; exact hw₂, hf₂⟩
    · refine ⟨{ w with fail := true }, ?_, rfl⟩
      rw [writeAll, Run.run, call.exec_of_not_accepted w h hc hs.1, Run.bind_ok]
      exact writeAll_of_fail calls _ rfl

/-- A bound writer, whatever was done with it. Once it is flushed only `restart`
does anything, so nothing about its indices is left to know. -/
structure Sound (w : BitStreamWriter) : Prop where
  initFail : w.initFail = false
  capacity : w.logicalTotalBits.toNat ≤ 32 * w.words.length
  total_mod : w.logicalTotalBits.toNat % 8 = 0
  packed : w.finalFlushed = false → w.Packed

theorem Packed.setFail {w : BitStreamWriter} (h : w.Packed) :
    Packed { w with fail := true } :=
  ⟨⟨h.1.1, h.1.2, h.1.3, h.1.4, h.1.5⟩, h.2, h.3, h.4, h.5⟩

/-- A restart packs from the first bit again, over a scratch that holds none. -/
theorem restart_packed (w : BitStreamWriter)
    (hcap : w.logicalTotalBits.toNat ≤ 32 * w.words.length)
    (hmod : w.logicalTotalBits.toNat % 8 = 0) : w.restart.Packed :=
  ⟨⟨le_refl _, Int.natCast_nonneg _, le_refl _, by simp [restart], by simp [restart]⟩, rfl,
    Nat.zero_le _, hcap, hmod⟩

theorem written_restart (w : BitStreamWriter) : w.restart.written e = [] := by
  simp [written, restart]

/-- Binding to a span without a failure gives such a writer. -/
theorem resetWith_sound (w : BitStreamWriter) (span : WordSpan) (L : SizeType)
    (h : (w.resetWith span L).fail = false) : (w.resetWith span L).Sound := by
  have hi : (w.resetWith span L).initFail = false := h
  have hsize : ¬ span.sizeBytes < L.toNat := by
    simp only [resetWith, restart, Bool.or_eq_false_iff] at hi
    simpa using hi.2
  have ht : (w.resetWith span L).logicalTotalBits.toNat = 8 * L.toNat % 2 ^ 32 :=
    toNat_eight_mul L
  have hcap : (w.resetWith span L).logicalTotalBits.toNat ≤ 32 * span.words.length := by
    rw [WordSpan.sizeBytes] at hsize
    omega
  have hmod : (w.resetWith span L).logicalTotalBits.toNat % 8 = 0 := by omega
  exact ⟨hi, hcap, hmod, fun _ => restart_packed _ hcap hmod⟩

end BitStreamWriter

open BitStreamWriter

/-- An operation whose capacity check, if it makes one, is sound. -/
def WriterOp.CheckSound (op : WriterOp) (w : BitStreamWriter) : Prop :=
  match op with
  | .write call => call.CheckSound w
  | _ => True

instance WriterOp.decidableCheckSound (op : WriterOp) (w : BitStreamWriter) :
    Decidable (op.CheckSound w) := by
  cases op <;> unfold WriterOp.CheckSound <;> infer_instance

section
variable {e : Endian}

/-- A call of a sound writer that is not accepted sets the fail flag, and that is all. -/
theorem WriteCall.exec_of_rejected (call : WriteCall) (w : BitStreamWriter) (h : w.Sound)
    (ha : ¬ call.Accepted w) (hs : call.CheckSound w) :
    call.exec e w = .ok { w with fail := true } := by
  by_cases hfl : w.finalFlushed = true
  · exact call.exec_of_closed w (.inr hfl)
  · exact call.exec_of_not_accepted w (h.packed (by simpa using hfl)) ha hs

theorem WriterOp.exec_sound (op : WriterOp) (w : BitStreamWriter) (h : w.Sound)
    (hs : op.CheckSound w) : ∃ w', op.exec e w = .ok w' ∧ w'.Sound := by
  cases op with
  | write call =>
    by_cases ha : call.Accepted w
    · obtain ⟨w', hw', ha'⟩ := call.exec_of_accepted (e := e) w (h.packed ha.2.1) ha
      have hp := ha'.packed
      exact ⟨w', hw', ha'.toExtends.initFail.trans h.initFail, hp.capacity, hp.total_mod,
        fun _ => hp⟩
    · exact ⟨_, call.exec_of_rejected w h ha hs, h.initFail, h.capacity, h.total_mod,
        fun hfl => (h.packed hfl).setFail⟩
  | flushFinal =>
    by_cases hf : w.fail = true
    · exact ⟨w, by simp [WriterOp.exec, BitStreamWriter.flushFinal, hf], h⟩
    by_cases hfl : w.finalFlushed = true
    · exact ⟨w, by simp [WriterOp.exec, BitStreamWriter.flushFinal, hfl], h⟩
    have hp := h.packed (by simpa using hfl)
    obtain ⟨w', hw', hd⟩ := flushFinal_spec (e := e) w hp (by simpa using hf) (by simpa using hfl)
    exact ⟨w', hw', hd.initFail.trans h.initFail, by rw [hd.total, hd.length]; exact h.capacity,
      by rw [hd.total]; exact h.total_mod, fun hno => absurd (hd.finalFlushed.symm.trans hno) (by simp)⟩
  | setFail => exact ⟨_, rfl, h.initFail, h.capacity, h.total_mod, fun hfl => (h.packed hfl).setFail⟩
  | restart =>
    exact ⟨_, rfl, h.initFail, h.capacity, h.total_mod,
      fun _ => restart_packed w h.capacity h.total_mod⟩

/-- No store leaves the span, and no shift leaves the scratch, in any run in which
no capacity check is passed by a sum that wrapped round. -/
theorem BitStreamWriter.stores_in_span (e : Endian) (w : BitStreamWriter) (span : WordSpan)
    (L : SizeType) (h : (w.resetWith span L).fail = false) (ops : List WriterOp)
    (hs : Run.Along (WriterOp.exec e) WriterOp.CheckSound ops (w.resetWith span L)) :
    ∃ w', runOps e ops (w.resetWith span L) = .ok w' := by
  obtain ⟨w', hw', -⟩ := Run.run_ok ops (fun op w => op.exec_sound w) (resetWith_sound w span L h) hs
  exact ⟨w', hw'⟩

/-- A run that fills the span to its last bit, flushes it and goes on. -/
theorem BitStreamWriter.stores_in_span_filling :
    ∃ w', runOps .big [.write (.float 0x3f800000), .flushFinal, .write (.double 0), .restart]
      ((default : BitStreamWriter).resetWith ⟨false, [0]⟩ 4) = .ok w' :=
  BitStreamWriter.stores_in_span .big default ⟨false, [0]⟩ 4 (by decide) _ (by decide)

/-- A block of `2 ^ 29` bytes is `2 ^ 32` bits, which the check takes for none. -/
theorem BitStreamWriter.writeBlock_leaves_span :
    ((default : BitStreamWriter).resetWith ⟨false, [0]⟩ 4).fail = false ∧
      runOps .little [.write (.block (fun _ => ⟨0, by decide⟩) 0x20000000)]
        ((default : BitStreamWriter).resetWith ⟨false, [0]⟩ 4) = .error (.wordIndex 1) := by
  decide

end
end Nalchi
