import Nalchi.Measuring
import Nalchi.PayloadDelivery

/-! The whole way of a message, as the library means it to go: measured, allocated to
measure, written, flushed, sent to many and read by each. -/
namespace Nalchi
open BitStreamWriter SharedPayload SocketExtensions

/-- What is measured to fit into a payload fits into it. -/
theorem fits_of_allocate {calls : List WriteCall} (hv : ∀ call ∈ calls, call.Valid)
    (hcost : (encodeAll calls).length ≤ 2 ^ 32 - 8) (m : BitStreamMeasurer)
    {malloc : AllocSize → Option RawSpace} {p : SharedPayload}
    (ha : allocate malloc (BitStreamMeasurer.measureAll calls m.restart).usedBytes = some p)
    (w₀ : BitStreamWriter) :
    p.wordCeiledSize.toNat = 4 * wordsFor (encodeAll calls).length ∧
      (w₀.resetWith (p.setUsedBitStream true).span
        (BitStreamMeasurer.measureAll calls m.restart).usedBytes).fail = false ∧
      AllAccepted calls (w₀.resetWith (p.setUsedBitStream true).span
        (BitStreamMeasurer.measureAll calls m.restart).usedBytes) := by
  have hbits := toNat_measureAll_restart calls m hv (by omega)
  have hbytes := toNat_ceil_bytes (BitStreamMeasurer.measureAll calls m.restart).usedBits
    (by rw [hbits]; exact hcost)
  change (BitStreamMeasurer.measureAll calls m.restart).usedBytes.toNat = _ at hbytes
  obtain ⟨hsize, hptr, -, -⟩ := allocate_spec ha
  have hle : p.size.toNat ≤ gnsMaxMsgSendSize := p.size_le
  have hpos : 0 < p.size.toNat := p.size_pos
  have hceil : p.wordCeiledSize.toNat = _ := toNat_ceilToWord hle
  have h23 : 8 * gnsMaxMsgSendSize = 2 ^ 22 := by decide
  rw [hsize, hbytes, hbits] at hceil hle hpos
  have hwords : 4 * (p.setUsedBitStream true).span.words.length = p.wordCeiledSize.toNat := by
    rw [words_span]
    exact p.words_length
  refine ⟨by rw [hceil, wordsFor]; omega, ?_, hv, ?_⟩
  · refine resetWith_of_large w₀ _ _ (beq_false_of_ne hptr) ?_ (by omega)
    rw [← List.length_pos_iff]
    omega
  · have h8 := toNat_eight_mul (BitStreamMeasurer.measureAll calls m.restart).usedBytes
    change 0 + _ ≤ (8 * (BitStreamMeasurer.measureAll calls m.restart).usedBytes).toNat
    omega

/-- A message that was measured first. If its measured bytes can be allocated, nothing can go
wrong any more: every write is accepted, the message is the whole payload, made of the encoded
calls and zeros whatever `std::malloc` left there, each connection gets it once, and whoever
receives it reads what was written. -/
theorem measured_pipeline (e₁ : Endian) (plan : List (WriteCall × ReadCall × ReadCall))
    (hp : ∀ q ∈ plan, q.1.WithinLimits ∧ q.1.Valid ∧ Delivers q.1 q.2.1 q.2.2)
    (hcost : (plan.map fun q => q.1.cost).sum ≤ 2 ^ 32 - 8) (m₀ m : BitStreamMeasurer)
    (hm : m = BitStreamMeasurer.measureAll (plan.map fun q => q.1) m₀.restart)
    (malloc : AllocSize → Option RawSpace) (p : SharedPayload)
    (ha : allocate malloc m.usedBytes = some p) (w₀ w : BitStreamWriter) (p' : SharedPayload)
    (hbind : w₀.resetWithPayload p m.usedBytes = (w, p')) :
    ∃ w₁ w₂, writeAll e₁ (plan.map fun q => q.1) w = .ok w₁ ∧ w₁.fail = false ∧
      w₁.flushFinal e₁ = .ok w₂ ∧ w₂.usedBits = m.usedBits ∧
      ∃ hlen : w₂.words.length = p'.words.length,
      ∀ (allocateMessage : Nat → SteamNetworkingMessage) (args : SendArgs)
        (connections : List HSteamNetConnection) (sent : Sent),
        args.logicalBytesLength = IntType.int32.cast w₂.usedBytes.toNat →
        connections.length < 2 ^ 31 →
        sent = multicast allocateMessage args connections (p'.withWords w₂.words hlen) →
        sent.messages.map (·.conn) = connections ∧
        ∀ msg ∈ sent.messages, ∃ q, sent.payload = some q ∧ msg.pData = q.ptr ∧
          msg.cbSize.val = 4 * q.words.length ∧
          memoryBits e₁ q.words = encodeAll (plan.map fun q => q.1) ++ padding m.usedBits.toNat ∧
          ∀ (e₂ : Endian) (r₀ : BitStreamReader) (span : WordSpan), Received e₁ e₂ q msg span →
            (r₀.resetWith span (BitVec.ofInt 32 msg.cbSize.val)).fail = false ∧
            ∃ r, (r₀.resetWith span (BitVec.ofInt 32 msg.cbSize.val)).readAll e₂
                  (plan.map fun q => q.2.1) = .ok (r, plan.map fun q => q.2.2) ∧
              r.fail = false ∧ r.usedBits = m.usedBits := by
  subst hm
  obtain ⟨rfl, rfl⟩ := Prod.mk.inj hbind
  have hv : ∀ call ∈ plan.map fun q => q.1, call.Valid := by
    intro call hcall
    obtain ⟨q, hmem, rfl⟩ := List.mem_map.mp hcall
    exact (hp q hmem).2.1
  have hlength : (encodeAll (plan.map fun q => q.1)).length = (plan.map fun q => q.1.cost).sum := by
    rw [length_encodeAll, List.map_map]
    rfl
  have hbits := toNat_measureAll_restart _ m₀ hv (by omega)
  obtain ⟨hceil, hb, hfit⟩ := fits_of_allocate hv (by omega) m₀ ha w₀
  obtain ⟨w₁, w₂, hw₁, hf₁, hw₂, hd⟩ := writeAll_fresh (e := e₁) _ w₀ _ _ hb hfit
  have hu : w₂.usedBits.toNat = _ := hd.used
  have hlen : w₂.words.length = p.words.length :=
    hd.length.trans (congrArg List.length (words_span (p.setUsedBitStream true)))
  have hwords : 4 * p.words.length = p.wordCeiledSize.toNat := p.words_length
  have hlimit := p.wordCeiledSize_le
  have h20 : gnsMaxMsgSendSize = 2 ^ 19 := by decide
  have hsmall : w₂.usedBits.toNat ≤ 2 ^ 30 := by
    rw [hu]
    unfold wordsFor at hceil
    omega
  refine ⟨w₁, w₂, hw₁, hf₁, hw₂, BitVec.eq_of_toNat_eq (hu.trans hbits.symm), hlen,
    fun allocateMessage args connections sent hargs hn hs => ⟨?_, fun msg hmem => ?_⟩⟩
  · rw [hs]
    exact multicast_conns allocateMessage args connections _ hn
  have hsent : sent = unicast allocateMessage args 0 ((p.setUsedBitStream true).withWords
      w₂.words hlen) ∨ _ := .inr hs
  obtain ⟨hc, refCount, hq⟩ := mem_sent allocateMessage args hsent hmem
  have hcb : msg.cbSize.val = 4 * wordsFor w₂.usedBits.toNat := by
    rw [hc.cbSize, hargs]
    exact sendSize_usedBytes _ (usedBitStream_setUsedBitStream p) w₂ hsmall
  have hwhole : w₂.words.length = wordsFor (encodeAll (plan.map fun q => q.1)).length := by omega
  refine ⟨_, hq, hc.pData, ?_, ?_, fun e₂ r₀ span hr => ?_⟩
  · change _ = 4 * (w₂.words.length : Int)
    rw [hcb, hu, hwhole]
  · have hall := hd.bits
    rw [← hwhole, List.take_length] at hall
    rw [hbits]
    exact hall
  · have hpos : 0 < w₂.usedBits.toNat := by
      have hsize : 0 < p.size.toNat := p.size_pos
      have hle : p.size.toNat ≤ gnsMaxMsgSendSize := p.size_le
      have hround : p.wordCeiledSize.toNat = _ := toNat_ceilToWord hle
      rw [hu]
      unfold wordsFor at hceil
      omega
    obtain ⟨hbound, r, hread, hf, hru⟩ := received_readAll hd hp rfl
      (messageFits_of_flushed hd rfl hcb) hpos hr r₀
    exact ⟨hbound, r, hread, hf, hru.trans (BitVec.eq_of_toNat_eq (hu.trans hbits.symm))⟩

/-- Three bytes are measured, and two connections get a word of which no bit is left over
from what `std::malloc` found. -/
theorem measured_pipeline_two :
    ∃ msgs : List SteamNetworkingMessage, msgs.map (·.conn) = [7, 9] ∧ ∀ msg ∈ msgs,
      msg.cbSize.val = 4 ∧
      ∃ r, ((default : BitStreamReader).resetWith ⟨false, [0x09080200]⟩
          (BitVec.ofInt 32 msg.cbSize.val)).readAll .big
        [.int .bool ⟨0, by decide⟩ ⟨0, by decide⟩ ⟨1, by decide⟩, .string .char8 [] 9] =
          .ok (r, [.int .bool ⟨1, by decide⟩ ⟨0, by decide⟩ ⟨1, by decide⟩,
            .string .char8 [⟨65, by decide⟩] 9]) ∧ r.fail = false := by
  obtain ⟨w₁, w₂, hw₁, -, hw₂, -, hlen, h⟩ := measured_pipeline .little
    [(.int .bool ⟨1, by decide⟩ ⟨0, by decide⟩ ⟨1, by decide⟩,
        .int .bool ⟨0, by decide⟩ ⟨0, by decide⟩ ⟨1, by decide⟩,
        .int .bool ⟨1, by decide⟩ ⟨0, by decide⟩ ⟨1, by decide⟩),
      (.string .char8 [⟨65, by decide⟩], .string .char8 [] 9, .string .char8 [⟨65, by decide⟩] 9)]
    (by
      intro q hq
      simp only [List.mem_cons, List.not_mem_nil, or_false] at hq
      obtain rfl | rfl := hq
      · exact ⟨trivial, by decide, .int _ _ _ _ _⟩
      · exact ⟨by decide, trivial, .string _ _ _ _ (by decide)⟩)
    (by decide) {} ⟨19⟩ (by decide) (fun _ => some ⟨0x1000, fun _ => 0xdeadbeef⟩)
    ⟨0x1008, 0, 3, [0xdeadbeef], by decide, by decide, by decide⟩ (by decide) default
    (BitStreamWriter.mk 0 [0xdeadbeef] 0 0 24 0 false false false)
    ⟨0x1008, 0, 0x80000003, [0xdeadbeef], by decide, by decide, by decide⟩ (by decide)
  have hcalls : writeAll .little [.int .bool ⟨1, by decide⟩ ⟨0, by decide⟩ ⟨1, by decide⟩,
      .string .char8 [⟨65, by decide⟩]]
      (BitStreamWriter.mk 0 [0xdeadbeef] 0 0 24 0 false false false) =
    .ok (BitStreamWriter.mk 0x20809 [0xdeadbeef] 19 0 24 19 false false false) := by decide
  obtain rfl := Run.ok_unique hw₁ hcalls
  have hflush : (BitStreamWriter.mk 0x20809 [0xdeadbeef] 19 0 24 19 false false
      false).flushFinal .little =
    .ok (BitStreamWriter.mk 0 [0x20809] 0 1 24 19 false false true) := by decide
  obtain rfl := Run.ok_unique hw₂ hflush
  obtain ⟨hconns, h⟩ := h (fun _ => ⟨0, ⟨0, by decide⟩, 0, ⟨0, by decide⟩, 0, 0, none⟩)
    ⟨⟨3, by decide⟩, ⟨8, by decide⟩, 0, 0⟩ [7, 9] _ (by decide) (by decide) rfl
  refine ⟨_, hconns, fun msg hmem => ?_⟩
  obtain ⟨q, hq, -, hcb, -, hread⟩ := h msg hmem
  obtain rfl := Option.some.inj hq
  obtain ⟨-, r, hr, hf, -⟩ := hread .big default ⟨false, [0x09080200]⟩ ⟨rfl, by
    rw [hcb]
    rfl⟩
  exact ⟨hcb, r, hr, hf⟩

end Nalchi
