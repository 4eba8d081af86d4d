import Nalchi.CursorRefinement

/-! The round trip of the whole format: what a writer flushed, a reader on either
kind of host reads back. -/
namespace Nalchi
open BitStreamWriter

variable {e : Endian}

theorem cost_le_length {call : WriteCall} {calls : List WriteCall} (h : call ∈ calls) :
    call.cost ≤ (encodeAll calls).length := by
  induction calls with
  | nil => exact absurd h (by simp)
  | cons c calls ih =>
    rw [length_encodeAll_cons]
    obtain rfl | h' := List.mem_cons.mp h
    · exact Nat.le_add_right _ _
    · exact (ih h').trans (Nat.le_add_left _ _)

/-- The read that answers a write within the limits is within them. -/
theorem Delivers.withinLimits {write : WriteCall} {before after : ReadCall}
    (h : Delivers write before after) (hw : write.WithinLimits) : before.WithinLimits := by
  cases h with
  | block data dest size => exact hw
  | int => trivial
  | float => trivial
  | double => trivial
  | string => trivial
  | cstring => trivial

/-- What a reader finds at the front of words a writer flushed. -/
theorem BitStreamWriter.Flushed.front {w w' : BitStreamWriter} {bs : List Bool}
    (h : Flushed e w w' bs) {m : Nat} (hm : wordsFor bs.length ≤ m) :
    ∃ rest, memoryBits e (w'.words.take m) = bs ++ rest := by
  obtain ⟨k, rfl⟩ : ∃ k, m = wordsFor bs.length + k := ⟨m - wordsFor bs.length, by omega⟩
  refine ⟨padding bs.length ++ memoryBits e ((w'.words.drop (wordsFor bs.length)).take k), ?_⟩
  rw [List.take_add, memoryBits_append, h.bits, List.append_assoc]

/-- A bound reader whose buffer begins with an encoding reads it back. -/
theorem readAll_encodeAll (plan : List (WriteCall × ReadCall × ReadCall))
    (hp : ∀ p ∈ plan, p.1.WithinLimits ∧ p.1.Valid ∧ Delivers p.1 p.2.1 p.2.2)
    (r₀ : BitStreamReader) (span : WordSpan) (L : SizeType)
    (hb : (r₀.resetWith span L).fail = false) (hL : L.toNat ≤ gnsMaxMsgRecvSize)
    (hlen : (encodeAll (plan.map fun p => p.1)).length ≤ 8 * L.toNat) {rest : List Bool}
    (hbits : memoryBits e span.words = encodeAll (plan.map fun p => p.1) ++ rest) :
    ∃ r, (r₀.resetWith span L).readAll e (plan.map fun p => p.2.1) =
        .ok (r, plan.map fun p => p.2.2) ∧ r.fail = false ∧
      r.usedBits.toNat = (encodeAll (plan.map fun p => p.1)).length := by
  have hsound := BitStreamReader.resetWith_sound (e := e) r₀ span L hb
  have ht := BitStreamReader.total_resetWith r₀ span hL
  have hlimit : 8 * gnsMaxMsgRecvSize = 2 ^ 23 := by decide
  have hdec := decodeAll_encodeAll plan (fun p hmem => ⟨(hp p hmem).2.2, (hp p hmem).2.1, by
    have hc := cost_le_length (List.mem_map_of_mem (f := fun p => p.1) hmem)
    omega⟩) (rest.take (8 * L.toNat - (encodeAll (plan.map fun p => p.1)).length))
  have hreads : ∀ call ∈ plan.map fun p => p.2.1, call.WithinLimits := by
    intro call hcall
    obtain ⟨p, hmem, rfl⟩ := List.mem_map.mp hcall
    exact (hp p hmem).2.2.withinLimits (hp p hmem).1
  have href := readAll_refines _ hreads _ hsound hb (by omega)
  rw [logicalRest_resetWith r₀ span hL, hbits, List.take_append,
    List.take_of_length_le hlen, hdec] at href
  obtain ⟨r, hr, ha⟩ := href
  have hu := ha.used
  have hcap := hsound.capacity
  have hbuf := congrArg List.length hbits
  rw [length_memoryBits, List.length_append] at hbuf
  rw [List.length_take, ht] at hu
  rw [ht] at hcap
  change 8 * L.toNat ≤ 32 * span.words.length at hcap
  refine ⟨r, hr, ha.fail.trans hb, ?_⟩
  change r.logicalUsedBits.toNat = _
  omega

/-- Round trip. Whatever is written within the limits and flushed un-failed, a
reader over the words flushed, or more of them, reads back in the same order:
no read fails and each delivers what was written. -/
theorem round_trip (e₁ e₂ : Endian) (w₀ : BitStreamWriter) (span : WordSpan) (L : SizeType)
    (hb : (w₀.resetWith span L).fail = false) (hL : L.toNat ≤ gnsMaxMsgRecvSize)
    (plan : List (WriteCall × ReadCall × ReadCall))
    (hp : ∀ p ∈ plan, p.1.WithinLimits ∧ Delivers p.1 p.2.1 p.2.2) :
    ∃ w₁, writeAll e₁ (plan.map fun p => p.1) (w₀.resetWith span L) = .ok w₁ ∧
      (w₁.fail = false → ∃ w₂, w₁.flushFinal e₁ = .ok w₂ ∧
        ∀ (m : Nat) (r₀ : BitStreamReader) (span' : WordSpan) (L' : SizeType),
          wordsFor w₂.usedBits.toNat ≤ m →
          memoryBytes e₂ span'.words = memoryBytes e₁ (w₂.words.take m) →
          (r₀.resetWith span' L').fail = false → L'.toNat ≤ gnsMaxMsgRecvSize →
          w₂.usedBytes.toNat ≤ L'.toNat →
          ∃ r, (r₀.resetWith span' L').readAll e₂ (plan.map fun p => p.2.1) =
              .ok (r, plan.map fun p => p.2.2) ∧ r.fail = false ∧ r.usedBits = w₂.usedBits) := by
  have hsound := BitStreamWriter.resetWith_sound w₀ span L hb
  have hcalls : ∀ call ∈ plan.map fun p => p.1, call.WithinLimits := by
    intro call hcall
    obtain ⟨p, hmem, rfl⟩ := List.mem_map.mp hcall
    exact (hp p hmem).1
  obtain ⟨w₁, hw₁, h⟩ := writeAll_flushFinal (e := e₁) _ hcalls _ hsound hb rfl
    (written_restart _) (total_le_limit hL)
  refine ⟨w₁, hw₁, fun hf => ?_⟩
  obtain ⟨⟨hv, hfit⟩, w₂, hw₂, hd⟩ := h hf
  refine ⟨w₂, hw₂, fun m r₀ span' L' hm hbytes hb' hL' hused => ?_⟩
  have hu : w₂.usedBits.toNat = (encodeAll (plan.map fun p => p.1)).length := hd.used
  have hlimit := total_le_limit hL
  have hlen : (encodeAll (plan.map fun p => p.1)).length ≤ 8 * L'.toNat := by
    have h23 : 8 * gnsMaxMsgRecvSize = 2 ^ 23 := by decide
    have hceil := toNat_ceil_bytes w₂.usedBits (by
      rw [hu]
      change _ + _ ≤ (8 * L).toNat at hfit
      omega)
    change w₂.usedBytes.toNat = _ at hceil
    omega
  rw [hu] at hm
  obtain ⟨rest, hfront⟩ := hd.front hm
  have hbits : memoryBits e₂ span'.words = encodeAll (plan.map fun p => p.1) ++ rest := by
    rw [memoryBits, hbytes, ← hfront]
    rfl
  obtain ⟨r, hr, hf', hru⟩ := readAll_encodeAll plan (fun p hmem => ⟨(hp p hmem).1,
    hv _ (List.mem_map_of_mem hmem), (hp p hmem).2⟩) r₀ span' L' hb' hL' hlen hbits
  exact ⟨r, hr, hf', BitVec.eq_of_toNat_eq (hru.trans hu.symm)⟩

/-- A flag and the string "A", from a little endian host to a big endian one. -/
theorem round_trip_small :
    ∃ r, ((default : BitStreamReader).resetWith ⟨false, [0x09080200]⟩ 3).readAll .big
        [.int .bool ⟨0, by decide⟩ ⟨0, by decide⟩ ⟨1, by decide⟩, .string .char8 [] 9] =
          .ok (r, [.int .bool ⟨1, by decide⟩ ⟨0, by decide⟩ ⟨1, by decide⟩,
            .string .char8 [⟨65, by decide⟩] 9]) ∧ r.fail = false ∧ r.usedBits = 19 := by
  obtain ⟨w₁, hw₁, h⟩ := round_trip .little .big default ⟨false, [0]⟩ 4 (by decide) (by decide)
    [(.int .bool ⟨1, by decide⟩ ⟨0, by decide⟩ ⟨1, by decide⟩,
        .int .bool ⟨0, by decide⟩ ⟨0, by decide⟩ ⟨1, by decide⟩,
        .int .bool ⟨1, by decide⟩ ⟨0, by decide⟩ ⟨1, by decide⟩),
      (.string .char8 [⟨65, by decide⟩], .string .char8 [] 9, .string .char8 [⟨65, by decide⟩] 9)]
    (by
      intro p hp
      simp only [List.mem_cons, List.not_mem_nil, or_false] at hp
      obtain rfl | rfl := hp
      · exact ⟨trivial, .int _ _ _ _ _⟩
      · exact ⟨by decide, .string _ _ _ _ (by decide)⟩)
  have hcalls : writeAll .little [.int .bool ⟨1, by decide⟩ ⟨0, by decide⟩ ⟨1, by decide⟩,
      .string .char8 [⟨65, by decide⟩]] ((default : BitStreamWriter).resetWith ⟨false, [0]⟩ 4) =
    .ok (BitStreamWriter.mk 0x20809 [0] 19 0 32 19 false false false) := by decide
  obtain rfl := Run.ok_unique hw₁ hcalls
  obtain ⟨w₂, hw₂, h⟩ := h rfl
  have hflush : (BitStreamWriter.mk 0x20809 [0] 19 0 32 19 false false false).flushFinal .little =
    .ok (BitStreamWriter.mk 0 [0x20809] 0 1 32 19 false false true) := by decide
  obtain rfl := Run.ok_unique hw₂ hflush
  exact h 1 default ⟨false, [0x09080200]⟩ 3 (by decide) (by decide) (by decide) (by decide)
    (by decide)

end Nalchi
