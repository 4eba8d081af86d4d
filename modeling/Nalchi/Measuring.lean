import Nalchi.Measurer
import Nalchi.Serializing
import Mathlib.Order.Bounds.Defs

/-! The measurer predicts the writer: two computations of one cost. -/
namespace Nalchi
open BitStreamWriter

theorem length_encodeAll (calls : List WriteCall) :
    (encodeAll calls).length = (calls.map WriteCall.cost).sum := by
  induction calls with
  | nil => rfl
  | cons call calls ih => rw [length_encodeAll_cons, ih, List.map_cons, List.sum_cons]

namespace BitStreamMeasurer

theorem toNat_add (m : BitStreamMeasurer) (bits : SizeType) :
    (m.add bits).usedBits.toNat = (m.usedBits.toNat + bits.toNat) % 2 ^ 32 :=
  BitVec.toNat_add m.usedBits bits

/-- The string branch adds up the prefix, the length and the characters. -/
theorem toNat_writeString (c : CharType) (len : Nat) (m : BitStreamMeasurer) :
    (m.writeString c len).usedBits.toNat =
      (m.usedBits.toNat + (2 + lengthWidth (lengthKind len) + 8 * (len * c.size))) % 2 ^ 32 := by
  have h2 : strLenPrefixPrefixBits.toNat = 2 := rfl
  have hmid : ∃ k : SizeType, k.toNat = lengthWidth (lengthKind len) ∧
      m.writeString c len = ((m.add strLenPrefixPrefixBits).add k).add
        (BitVec.ofNat 32 (8 * len * c.size % 2 ^ 64)) := by
    simp only [writeString, IntType.highest, Width.bits]
    by_cases h8 : len < 2 ^ 8
    · have hk : lengthKind len = 0 := if_pos h8
      exact ⟨8 * 1, by rw [hk]; rfl, congrArg (add · _) (if_pos (by omega))⟩
    by_cases h16 : len < 2 ^ 16
    · have hk : lengthKind len = 1 := by rw [lengthKind, if_neg h8, if_pos h16]
      exact ⟨8 * 2, by rw [hk]; rfl,
        congrArg (add · _) ((if_neg (by omega)).trans (if_pos (by omega)))⟩
    by_cases h32 : len < 2 ^ 32
    · have hk : lengthKind len = 2 := by rw [lengthKind, if_neg h8, if_neg h16, if_pos h32]
      exact ⟨8 * 4, by rw [hk]; rfl, congrArg (add · _)
        (((if_neg (by omega)).trans (if_neg (by omega))).trans (if_pos (by omega)))⟩
    · have hk : lengthKind len = 3 := by rw [lengthKind, if_neg h8, if_neg h16, if_neg h32]
      exact ⟨8 * 8, by rw [hk]; rfl, congrArg (add · _)
        (((if_neg (by omega)).trans (if_neg (by omega))).trans (if_neg (by omega)))⟩
  obtain ⟨k, hk, heq⟩ := hmid
  have hmul : 8 * len * c.size = 8 * (len * c.size) := Nat.mul_assoc 8 len c.size
  rw [heq, toNat_add, toNat_add, toNat_add, hk, h2, hmul, BitVec.toNat_ofNat]
  omega

end BitStreamMeasurer

/-- One fake write adds the cost of the call, modulo the width of `size_type`. -/
theorem WriteCall.toNat_measure (call : WriteCall) (m : BitStreamMeasurer) (hv : call.Valid) :
    (call.measure m).usedBits.toNat = (m.usedBits.toNat + call.cost) % 2 ^ 32 := by
  cases call with
  | int t data min max =>
    have hr := t.rangeBits_eq min max hv.1.le
    simp only [WriteCall.measure, WriteCall.cost, BitStreamMeasurer.writeInt]
    rw [BitStreamMeasurer.toNat_add, BitVec.toNat_ofNat, hr, Nat.add_mod_mod]
  | float data => exact m.toNat_add (8 * 4)
  | double data => exact m.toNat_add (8 * 8)
  | block data size =>
    simp only [WriteCall.measure, WriteCall.cost, BitStreamMeasurer.writeBlock]
    rw [BitStreamMeasurer.toNat_add, toNat_eight_mul, Nat.add_mod_mod]
  | string c str => exact m.toNat_writeString c str.length

theorem BitStreamMeasurer.toNat_measureAll (calls : List WriteCall) (m : BitStreamMeasurer)
    (hv : ∀ call ∈ calls, call.Valid) : (measureAll calls m).usedBits.toNat =
      (m.usedBits.toNat + (encodeAll calls).length) % 2 ^ 32 := by
  induction calls generalizing m with
  | nil => exact (Nat.mod_eq_of_lt m.usedBits.isLt).symm
  | cons call calls ih =>
    rw [measureAll, List.foldl_cons]
    have hrest := ih (call.measure m) fun c hc => hv c (by simp [hc])
    rw [measureAll] at hrest
    rw [hrest, call.toNat_measure m (hv call (by simp)), length_encodeAll_cons,
      Nat.mod_add_mod, Nat.add_assoc]

section
variable {e : Endian}

/-- Calls whose bits can be counted in `size_type` have sound checks to the end. -/
theorem along_checkSound_of_lt (calls : List WriteCall) (w : BitStreamWriter) (h : w.Packed)
    (hlen : w.fail = false → w.logicalUsedBits.toNat + (encodeAll calls).length < 2 ^ 32) :
    Run.Along (WriteCall.exec e) WriteCall.CheckSound calls w := by
  induction calls generalizing w with
  | nil => trivial
  | cons call calls ih =>
    rw [length_encodeAll_cons] at hlen
    have hs : call.CheckSound w := by
      intro hf hfl hv
      have h32 : 2 ^ 32 ≤ 2 ^ call.sumBits :=
        Nat.pow_le_pow_right (by omega) (by cases call <;> simp [WriteCall.sumBits])
      have hlt := hlen hf
      exact call.checkSound_of_lt w (by omega) hf hfl hv
    refine ⟨hs, fun w' hw' => ?_⟩
    by_cases ha : call.Accepted w
    · obtain ⟨w₁, hw₁, ha₁⟩ := call.exec_of_accepted (e := e) w h ha
      obtain rfl := Run.ok_unique hw₁ hw'
      have hu := ha₁.used h
      rw [length_encode] at hu
      have hlt := hlen ha.1
      exact ih w₁ ha₁.packed fun _ => by omega
    · rw [call.exec_of_not_accepted w h ha hs] at hw'
      obtain rfl := Except.ok.inj hw'
      exact ih _ h.setFail fun hno => absurd hno (by simp)

/-- What a run of countable writes comes to. -/
theorem writeAll_outcome (calls : List WriteCall) (w : BitStreamWriter) (h : w.Packed)
    (hf : w.fail = false) (hfl : w.finalFlushed = false)
    (hlen : w.logicalUsedBits.toNat + (encodeAll calls).length < 2 ^ 32) :
    ∃ w₁, writeAll e calls w = .ok w₁ ∧ (w₁.fail = false ↔ AllAccepted calls w) ∧
      (w₁.fail = false →
        w₁.logicalUsedBits.toNat = w.logicalUsedBits.toNat + (encodeAll calls).length) := by
  by_cases ha : AllAccepted calls w
  · obtain ⟨w₁, hw₁, ha₁⟩ := writeAll_of_accepted (e := e) calls w h hf hfl ha
    exact ⟨w₁, hw₁, iff_of_true (ha₁.toExtends.fail.trans hf) ha, fun _ => ha₁.used h⟩
  · obtain ⟨w₁, hw₁, hf₁⟩ := writeAll_of_not_accepted (e := e) calls w h hf hfl ha
      (along_checkSound_of_lt calls w h fun _ => hlen)
    have hno : w₁.fail ≠ false := by simp [hf₁]
    exact ⟨w₁, hw₁, iff_of_false hno ha, fun h => absurd h hno⟩

/-- A fresh writer over a span that can take its logical length. -/
theorem resetWith_of_large (w : BitStreamWriter) (span : WordSpan) (L : SizeType)
    (hnull : span.isNull = false) (hne : span.words ≠ []) (hL : L.toNat ≤ 4 * span.words.length) :
    (w.resetWith span L).fail = false := by
  have hpos := List.length_pos_iff.mpr hne
  have hsize : ¬ span.sizeBytes < L.toNat := by
    rw [WordSpan.sizeBytes]
    omega
  simp only [resetWith, restart, hnull, hsize, decide_false, Bool.or_false, Bool.false_or]
  simp
  exact hne

/-- The measurer's bits are the bits of the encoding, when they can be counted. -/
theorem toNat_measureAll_restart (calls : List WriteCall) (m : BitStreamMeasurer)
    (hv : ∀ call ∈ calls, call.Valid) (hlen : (encodeAll calls).length < 2 ^ 32) :
    (BitStreamMeasurer.measureAll calls m.restart).usedBits.toNat = (encodeAll calls).length := by
  have h0 : m.restart.usedBits.toNat = 0 := rfl
  rw [BitStreamMeasurer.toNat_measureAll calls _ hv, h0, Nat.zero_add, Nat.mod_eq_of_lt hlen]

/-- A fresh writer accepts a sequence exactly when its encoding fits, and then its
used bits are the encoding's. -/
theorem fresh_writeAll (calls : List WriteCall) (hv : ∀ call ∈ calls, call.Valid)
    (hlen : (encodeAll calls).length < 2 ^ 32) (w : BitStreamWriter) (span : WordSpan)
    (L : SizeType) (hL : L.toNat ≤ 2 ^ 29 - 1) (hnull : span.isNull = false)
    (hne : span.words ≠ []) (hbuf : (L.toNat + 3) / 4 ≤ span.words.length) :
    ∃ w₁, writeAll e calls (w.resetWith span L) = .ok w₁ ∧
      (w₁.fail = false ↔ (encodeAll calls).length ≤ 8 * L.toNat) ∧
      (w₁.fail = false → w₁.logicalUsedBits.toNat = (encodeAll calls).length) := by
  have hb := resetWith_of_large w span L hnull hne (by omega)
  have hp := (resetWith_sound w span L hb).packed rfl
  have h0 : (w.resetWith span L).logicalUsedBits.toNat = 0 := rfl
  have ht : (w.resetWith span L).logicalTotalBits.toNat = 8 * L.toNat := by
    have h8 := toNat_eight_mul L
    rw [Nat.mod_eq_of_lt (by omega)] at h8
    exact h8
  obtain ⟨w₁, hw₁, hiff, hu⟩ := writeAll_outcome (e := e) calls _ hp hb rfl (by omega)
  refine ⟨w₁, hw₁, hiff.trans ?_, fun hf => by rw [hu hf, h0, Nat.zero_add]⟩
  rw [AllAccepted, h0, ht, Nat.zero_add]
  exact and_iff_right hv

end

/-- The measurer predicts the writer: it fits exactly when the measured bits do, the
counts agree after every accepted step, and the measured bytes are the least
logical length that will do. -/
theorem measurer_predicts_writer (calls : List WriteCall) (hv : ∀ call ∈ calls, call.Valid)
    (hcost : (calls.map WriteCall.cost).sum ≤ 2 ^ 32 - 8) (m : BitStreamMeasurer) :
    (∀ (e : Endian) (w : BitStreamWriter) (span : WordSpan) (L : SizeType),
      L.toNat ≤ 2 ^ 29 - 1 → span.isNull = false → span.words ≠ [] →
      (L.toNat + 3) / 4 ≤ span.words.length →
      (∃ w₁, writeAll e calls (w.resetWith span L) = .ok w₁ ∧ (w₁.fail = false ↔
        (BitStreamMeasurer.measureAll calls m.restart).usedBits.toNat ≤ 8 * L.toNat)) ∧
      ∀ before after, calls = before ++ after →
        ∃ w₁, writeAll e before (w.resetWith span L) = .ok w₁ ∧ (w₁.fail = false →
          w₁.usedBits = (BitStreamMeasurer.measureAll before m.restart).usedBits ∧
          w₁.usedBytes = (BitStreamMeasurer.measureAll before m.restart).usedBytes)) ∧
    (∀ (e : Endian) (w : BitStreamWriter) (span : WordSpan),
      span.isNull = false → span.words ≠ [] →
      ((BitStreamMeasurer.measureAll calls m.restart).usedBytes.toNat + 3) / 4 ≤
        span.words.length →
      IsLeast {n | ∃ L : SizeType, L.toNat = n ∧
          ∃ w₁, writeAll e calls (w.resetWith span L) = .ok w₁ ∧ w₁.fail = false}
        (BitStreamMeasurer.measureAll calls m.restart).usedBytes.toNat) := by
  rw [← length_encodeAll] at hcost
  have hbits := toNat_measureAll_restart calls m hv (by omega)
  have hbytes : (BitStreamMeasurer.measureAll calls m.restart).usedBytes.toNat =
      ((encodeAll calls).length + 7) / 8 := by
    rw [← hbits]
    exact toNat_ceil_bytes _ (by rw [hbits]; exact hcost)
  have hfits (e : Endian) (w : BitStreamWriter) (span : WordSpan) (L : SizeType)
      (hL : L.toNat ≤ 2 ^ 29 - 1) (hnull : span.isNull = false) (hne : span.words ≠ [])
      (hbuf : (L.toNat + 3) / 4 ≤ span.words.length) :=
    fresh_writeAll (e := e) calls hv (by omega) w span L hL hnull hne hbuf
  refine ⟨fun e w span L hL hnull hne hbuf => ⟨?_, fun before after hsplit => ?_⟩,
    fun e w span hnull hne hbuf => ⟨?_, ?_⟩⟩
  · obtain ⟨w₁, hw₁, hiff, -⟩ := hfits e w span L hL hnull hne hbuf
    exact ⟨w₁, hw₁, by rw [hbits]; exact hiff⟩
  · have hv' : ∀ call ∈ before, call.Valid := fun c hc => hv c (by simp [hsplit, hc])
    have hlen : (encodeAll before).length < 2 ^ 32 := by
      rw [hsplit, encodeAll, List.flatMap_append, List.length_append] at hcost
      rw [encodeAll]
      omega
    obtain ⟨w₁, hw₁, -, hu⟩ := fresh_writeAll (e := e) before hv' hlen w span L hL hnull hne hbuf
    refine ⟨w₁, hw₁, fun hf => ?_⟩
    have heq : w₁.usedBits = (BitStreamMeasurer.measureAll before m.restart).usedBits := by
      apply BitVec.eq_of_toNat_eq
      rw [toNat_measureAll_restart before m hv' hlen]
      exact hu hf
    exact ⟨heq, by rw [usedBytes, heq]; rfl⟩
  · obtain ⟨w₁, hw₁, hiff, -⟩ := hfits e w span _ (by omega) hnull hne hbuf
    exact ⟨_, rfl, w₁, hw₁, hiff.mpr (by omega)⟩
  · rintro n ⟨L, rfl, w₁, hw₁, hf⟩
    by_contra hlt
    obtain ⟨w₂, hw₂, hiff, -⟩ := hfits e w span L (by omega) hnull hne (by omega)
    obtain rfl := Run.ok_unique hw₂ hw₁
    have hle := hiff.mp hf
    omega

/-- A flag, a byte and a string take four bytes and not three. -/
theorem measurer_predicts_writer_small :
    IsLeast {n | ∃ L : SizeType, L.toNat = n ∧
      ∃ w₁, writeAll .little [.int .bool ⟨1, by decide⟩ ⟨0, by decide⟩ ⟨1, by decide⟩,
        .block (fun _ => ⟨7, by decide⟩) 1, .string .char8 [⟨65, by decide⟩]]
        ((default : BitStreamWriter).resetWith ⟨false, [0]⟩ L) = .ok w₁ ∧ w₁.fail = false} 4 := by
  have hm : (BitStreamMeasurer.measureAll [.int .bool ⟨1, by decide⟩ ⟨0, by decide⟩ ⟨1, by decide⟩,
      .block (fun _ => ⟨7, by decide⟩) 1, .string .char8 [⟨65, by decide⟩]]
      (BitStreamMeasurer.restart {})).usedBytes.toNat = 4 := by decide
  rw [← hm]
  exact (measurer_predicts_writer _ (by decide) (by decide) {}).2 .little default ⟨false, [0]⟩ rfl
    (by decide) (by decide)

end Nalchi
