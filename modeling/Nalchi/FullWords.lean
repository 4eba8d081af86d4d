import Nalchi.WriterFailure

/-! The words a writer has filled are final, and those it has not come to are as they
were: a program may hand on the front of a message while it writes the rest. -/
namespace Nalchi
open BitStreamWriter

theorem memoryBits_injective (e : Endian) : Function.Injective (memoryBits e) := by
  intro us vs h
  induction us generalizing vs with
  | nil =>
    have hlen := congrArg List.length h
    simp only [length_memoryBits, List.length_nil] at hlen
    exact (List.length_eq_zero_iff.mp (by omega)).symm
  | cons u us ih =>
    cases vs with
    | nil =>
      have hlen := congrArg List.length h
      simp only [length_memoryBits, List.length_nil, List.length_cons] at hlen
      omega
    | cons v vs =>
      rw [memoryBits_cons, memoryBits_cons] at h
      obtain ⟨hword, hrest⟩ := List.append_inj h (by simp)
      have hnat := congrArg Bits.toNat hword
      rw [Bits.toNat_ofNat, Bits.toNat_ofNat, Nat.mod_eq_of_lt (e.swap u).isLt,
        Nat.mod_eq_of_lt (e.swap v).isLt] at hnat
      have hswap := congrArg e.swap (BitVec.eq_of_toNat_eq hnat)
      rw [Endian.swap_swap, Endian.swap_swap] at hswap
      rw [hswap, ih hrest]

variable {e : Endian}

/-- Words that stand at the front of the same bits are the same words. -/
theorem take_eq_of_bits {us vs : List WordType} {k m : Nat} {xs ys : List Bool} (hkm : k ≤ m)
    (hu : k ≤ us.length) (hv : k ≤ vs.length)
    (h : memoryBits e (us.take m) ++ xs = memoryBits e (vs.take k) ++ ys) :
    us.take k = vs.take k := by
  obtain ⟨n, rfl⟩ : ∃ n, m = k + n := ⟨m - k, by omega⟩
  rw [List.take_add, memoryBits_append, List.append_assoc] at h
  refine memoryBits_injective e (List.append_inj_left h ?_)
  rw [length_memoryBits, length_memoryBits, List.length_take, List.length_take, Nat.min_eq_left hu,
    Nat.min_eq_left hv]

namespace BitStreamWriter

/-- From `w` to `w'` the words that were full stayed, and those not come to yet are untouched. -/
structure Grows (w w' : BitStreamWriter) : Prop where
  used : w.usedBits.toNat ≤ w'.usedBits.toNat
  full : w'.words.take (w.usedBits.toNat / 32) = w.words.take (w.usedBits.toNat / 32)
  later : w'.words.drop (wordsFor w'.usedBits.toNat) = w.words.drop (wordsFor w'.usedBits.toNat)

variable {u v w w' : BitStreamWriter}

theorem Grows.refl (w : BitStreamWriter) : Grows w w := ⟨le_refl _, rfl, rfl⟩

theorem Grows.trans (h : Grows u v) (h' : Grows v w) : Grows u w := by
  have hused := h'.used
  refine ⟨h.used.trans hused, ?_, ?_⟩
  · have hle : u.usedBits.toNat / 32 ≤ v.usedBits.toNat / 32 := Nat.div_le_div_right h.used
    have hfull := congrArg (List.take (u.usedBits.toNat / 32)) h'.full
    rw [List.take_take, List.take_take, Nat.min_eq_left hle] at hfull
    exact hfull.trans h.full
  · obtain ⟨k, hk⟩ : ∃ k, wordsFor w.usedBits.toNat = wordsFor v.usedBits.toNat + k :=
      ⟨wordsFor w.usedBits.toNat - wordsFor v.usedBits.toNat, by unfold wordsFor; omega⟩
    rw [h'.later, hk, ← List.drop_drop, h.later, List.drop_drop]

/-- The words of a packing writer that are full are those behind its index. -/
theorem Packed.wordsIndex_eq (h : w.Packed) : w.wordsIndex.toNat = w.usedBits.toNat / 32 := by
  have hused : (w.usedBits.toNat : Int) = w.position := h.used_eq
  have hpos : w.position = 32 * w.wordsIndex + w.scratchIndex := rfl
  have h0 := h.wordsIndex_nonneg
  have h2 := h.index_nonneg
  have h3 := h.index_lt
  omega

theorem Appended.grows {bs : List Bool} (h : Appended e w w' bs) (hp : w.Packed) :
    Grows w w' := by
  have hx := h.toExtends
  have hi := hp.wordsIndex_eq
  have hi' := h.packed.wordsIndex_eq
  have hmono := Int.toNat_le_toNat hx.index_mono
  have hle : w.wordsIndex.toNat ≤ w.words.length := by
    have hle := hp.wordsIndex_le
    omega
  refine ⟨?_, ?_, ?_⟩
  · have hu := h.used hp
    change _ ≤ w'.logicalUsedBits.toNat
    rw [hu]
    exact Nat.le_add_right _ _
  · rw [← hi]
    have hbits := hx.written
    rw [written, written, List.append_assoc] at hbits
    exact take_eq_of_bits hmono (by rw [hx.length]; exact hle) hle hbits
  · obtain ⟨k, hk⟩ : ∃ k, wordsFor w'.usedBits.toNat = w'.wordsIndex.toNat + k :=
      ⟨wordsFor w'.usedBits.toNat - w'.wordsIndex.toNat, by unfold wordsFor; omega⟩
    rw [hk, ← List.drop_drop, hx.later, List.drop_drop]

theorem Flushed.grows (h : Flushed e w w' (w.written e)) (hp : w.Packed) : Grows w w' := by
  have hi := hp.wordsIndex_eq
  have hlen := length_written (e := e) w hp.toAligned
  have hused : (w.usedBits.toNat : Int) = w.position := hp.used_eq
  have hu : w'.usedBits.toNat = (w.written e).length := h.used
  have hle : w.wordsIndex.toNat ≤ w.words.length := by
    have hle := hp.wordsIndex_le
    omega
  refine ⟨by omega, ?_, ?_⟩
  · rw [← hi]
    have hbits := h.bits
    rw [written, List.append_assoc, ← written] at hbits
    have hwords : w.wordsIndex.toNat ≤ wordsFor (w.written e).length := by
      unfold wordsFor
      omega
    rw [← List.append_nil (memoryBits e (w'.words.take _))] at hbits
    exact take_eq_of_bits hwords (by rw [h.length]; exact hle) hle hbits
  · rw [hu]
    exact h.later

end BitStreamWriter

/-- One operation, if it does not start again. -/
theorem WriterOp.exec_grows (op : WriterOp) (hop : op ≠ .restart) {w w' : BitStreamWriter}
    (h : w.Sound) (hs : op.CheckSound w) (hw : op.exec e w = .ok w') : Grows w w' := by
  cases op with
  | write call =>
    by_cases ha : call.Accepted w
    · have hp := h.packed ha.2.1
      obtain ⟨w₁, hw₁, ha₁⟩ := call.exec_of_accepted (e := e) w hp ha
      obtain rfl := Run.ok_unique hw hw₁
      exact ha₁.grows hp
    · obtain rfl := Run.ok_unique hw (call.exec_of_rejected w h ha hs)
      exact ⟨le_refl _, rfl, rfl⟩
  | flushFinal =>
    by_cases hclosed : w.fail = true ∨ w.finalFlushed = true
    · obtain rfl := Run.ok_unique hw (flushFinal_of_closed w hclosed)
      exact Grows.refl _
    · obtain ⟨hf, hfl⟩ := not_or.mp hclosed
      have hp := h.packed (by simpa using hfl)
      obtain ⟨w₁, hw₁, hd⟩ := flushFinal_spec (e := e) w hp (by simpa using hf) (by simpa using hfl)
      obtain rfl := Run.ok_unique hw hw₁
      exact hd.grows hp
  | setFail =>
    obtain rfl := Except.ok.inj hw
    exact ⟨le_refl _, rfl, rfl⟩
  | restart => exact absurd rfl hop

/-- Full words are final. Wherever a history within the limits has led a writer, whatever is
written next, accepted or not, flushed or not: until a restart the words its bits fill never
change again, and no word beyond its bits has been touched since. -/
theorem full_words_final (e : Endian) (w₀ : BitStreamWriter) (span : WordSpan) (L : SizeType)
    (hb : (w₀.resetWith span L).fail = false) (hL : L.toNat ≤ gnsMaxMsgRecvSize)
    (ops : List WriterOp) (hops : ∀ op ∈ ops, op.WithinLimits) (more : List WriterOp)
    (hmore : ∀ op ∈ more, op.WithinLimits ∧ op ≠ .restart) :
    ∃ w w', runOps e ops (w₀.resetWith span L) = .ok w ∧ runOps e more w = .ok w' ∧
      w.usedBits.toNat ≤ w'.usedBits.toNat ∧
      w'.words.take (w.usedBits.toNat / 32) = w.words.take (w.usedBits.toNat / 32) ∧
      w'.words.drop (wordsFor w'.usedBits.toNat) =
        w.words.drop (wordsFor w'.usedBits.toNat) := by
  obtain ⟨w, hw, hsound, ht⟩ := runOps_withinLimits (e := e) hb hL ops hops
  have hrun : ∃ w', runOps e more w = .ok w' ∧ w'.Sound ∧
      w'.logicalTotalBits.toNat ≤ 8 * gnsMaxMsgRecvSize ∧ Grows w w' := by
    refine Run.run_ok (P := fun op _ => op.WithinLimits ∧ op ≠ .restart)
      (I := fun v : BitStreamWriter => v.Sound ∧ v.logicalTotalBits.toNat ≤ 8 * gnsMaxMsgRecvSize ∧
        Grows w v)
      more (fun op v hs hop => ?_) ⟨hsound, ht, Grows.refl w⟩
      (Run.along_of_forall more (fun op hop _ => hmore op hop) w)
    have hcheck := op.checkSound_of_withinLimits v hs.1 hs.2.1 hop.1
    obtain ⟨v', hv', hsound'⟩ := op.exec_sound (e := e) v hs.1 hcheck
    exact ⟨v', hv', hsound', by rw [(op.exec_keeps hv').total]; exact hs.2.1,
      hs.2.2.trans (op.exec_grows hop.2 hs.1 hcheck hv')⟩
  obtain ⟨w', hw', -, -, hgrows⟩ := hrun
  exact ⟨w, w', hw, hw', hgrows.used, hgrows.full, hgrows.later⟩

/-- A float fills a word; the flag behind it is flushed, the double is not accepted. -/
theorem full_words_final_float :
    ∃ w', runOps .little [.write (.int .bool ⟨1, by decide⟩ ⟨0, by decide⟩ ⟨1, by decide⟩),
        .flushFinal, .write (.double 0)]
        ⟨0, [0x3f800000, 0, 0xdeadbeef], 0, 1, 96, 32, false, false, false⟩ = .ok w' ∧
      w'.words.take 1 = [0x3f800000] ∧
      w'.words.drop (wordsFor w'.usedBits.toNat) =
        [0x3f800000, 0, 0xdeadbeef].drop (wordsFor w'.usedBits.toNat) := by
  obtain ⟨w, w', hw, hw', -, hfull, hlater⟩ := full_words_final .little default
    ⟨false, [0, 0, 0xdeadbeef]⟩ 12 (by decide) (by decide) [.write (.float 0x3f800000)] (by decide)
    [.write (.int .bool ⟨1, by decide⟩ ⟨0, by decide⟩ ⟨1, by decide⟩), .flushFinal,
      .write (.double 0)] (by
      intro op hop
      simp only [List.mem_cons, List.not_mem_nil, or_false] at hop
      obtain rfl | rfl | rfl := hop <;> exact ⟨trivial, by simp⟩)
  have hstart : runOps .little [.write (.float 0x3f800000)]
      ((default : BitStreamWriter).resetWith ⟨false, [0, 0, 0xdeadbeef]⟩ 12) =
    .ok ⟨0, [0x3f800000, 0, 0xdeadbeef], 0, 1, 96, 32, false, false, false⟩ := by decide
  obtain rfl := Run.ok_unique hw hstart
  exact ⟨w', hw', hfull, hlater⟩

end Nalchi
