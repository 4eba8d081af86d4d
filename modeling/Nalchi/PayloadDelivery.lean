import Nalchi.RoundTrip
import Nalchi.SocketExtensions

/-! A stream in a shared payload, from its allocation to the reader of the message. -/
namespace Nalchi
open BitStreamWriter SharedPayload SocketExtensions

/-- Rounding bits to bytes and then to words is rounding them to words. -/
theorem sendSize_usedBytes (p : SharedPayload) (hp : p.usedBitStream) (w : BitStreamWriter)
    (h : w.usedBits.toNat ≤ 2 ^ 30) :
    (p.sendSize (IntType.int32.cast w.usedBytes.toNat)).val = 4 * wordsFor w.usedBits.toNat := by
  have hu := toNat_ceil_bytes w.usedBits (by omega)
  change w.usedBytes.toNat = _ at hu
  have hc := toNat_ceilToMultipleOf 2 w.usedBytes.toNat (by omega) (by omega)
  change (ceilToMultipleOf 4 w.usedBytes.toNat).toNat = _ at hc
  have hlen : (IntType.int32.cast w.usedBytes.toNat).val = w.usedBytes.toNat :=
    int32_cast_val (by omega)
  rw [sendSize, if_pos hp, hlen, hc, int32_cast_val (by omega), hu, wordsFor]
  push_cast
  omega

/-- An accepted binding asks for no more bytes than the payload has. -/
theorem resetWithPayload_length (w : BitStreamWriter) (p : SharedPayload) (L : SizeType)
    (h : (w.resetWithPayload p L).1.fail = false) : L.toNat ≤ p.wordCeiledSize.toNat := by
  have hb : (decide ((p.setUsedBitStream true).span.sizeBytes < L.toNat)) = false := by
    simp only [BitStreamWriter.resetWithPayload, BitStreamWriter.resetWith,
      BitStreamWriter.restart, Bool.or_eq_false_iff] at h
    exact h.2
  rw [sizeBytes_span, wordCeiledSize_setUsedBitStream] at hb
  exact Nat.le_of_not_lt (of_decide_eq_false hb)

/-- The first words of a buffer, as they arrive on any host. -/
theorem delivered_bits {e₁ e₂ : Endian} {us vs : List WordType} {n : Nat}
    (h : memoryBytes e₂ vs = (memoryBytes e₁ us).take (4 * n)) :
    memoryBits e₂ vs = memoryBits e₁ (us.take n) := by
  rw [memoryBits, h, ← memoryBytes_take]
  rfl

/-- The message is made of whole words, those flushed, and they are the payload's. -/
structure MessageFits (p : SharedPayload) (w : BitStreamWriter) (msg : SteamNetworkingMessage) :
    Prop where
  multiple : msg.cbSize.val % 4 = 0
  flushed : msg.cbSize.val = 4 * w.wordsIndex
  inside : msg.cbSize.val ≤ p.wordCeiledSize.toNat
  sendable : msg.cbSize.val ≤ gnsMaxMsgSendSize

/-- A receiver's buffer after the network library has copied the message's bytes. -/
def Received (e₁ e₂ : Endian) (p : SharedPayload) (msg : SteamNetworkingMessage)
    (span : WordSpan) : Prop :=
  span.isNull = false ∧
    memoryBytes e₂ span.words = (memoryBytes e₁ p.words).take msg.cbSize.val.toNat

/-- A reader over the delivered bytes is bound to all of them without a failure. -/
theorem received_binds {e₁ e₂ : Endian} {p : SharedPayload} {msg : SteamNetworkingMessage}
    {span : WordSpan} (h : Received e₁ e₂ p msg span) {n : Nat} (hn : 0 < n)
    (hmsg : msg.cbSize.val = 4 * n) (hle : n ≤ p.words.length) (r₀ : BitStreamReader) :
    (BitVec.ofInt 32 msg.cbSize.val).toNat = 4 * n ∧
      memoryBits e₂ span.words = memoryBits e₁ (p.words.take n) ∧
      (r₀.resetWith span (BitVec.ofInt 32 msg.cbSize.val)).fail = false := by
  obtain ⟨hnull, hbytes⟩ := h
  have hnat : msg.cbSize.val.toNat = 4 * n := by omega
  have hhigh := msg.cbSize.property.2
  have hmax : IntType.int32.highest = 2 ^ 31 - 1 := rfl
  have hL : (BitVec.ofInt 32 msg.cbSize.val).toNat = 4 * n := by
    rw [BitVec.toNat_ofInt]
    omega
  rw [hnat] at hbytes
  have hcount := congrArg List.length hbytes
  rw [length_memoryBytes, List.length_take, length_memoryBytes] at hcount
  refine ⟨hL, delivered_bits hbytes, ?_⟩
  have hsize : ¬ span.sizeBytes < (BitVec.ofInt 32 msg.cbSize.val).toNat := by
    rw [hL, WordSpan.sizeBytes]
    omega
  have hempty : span.words.length ≠ 0 := by omega
  simp only [BitStreamReader.resetWith, BitStreamReader.restart, hnull, hsize, decide_false,
    Bool.false_or, Bool.or_false]
  exact beq_false_of_ne hempty

/-- A message sized by `used_bytes()` covers the words the final flush filled. -/
theorem messageFits_of_flushed {e : Endian} {w w₂ : BitStreamWriter} {bs : List Bool}
    (hd : Flushed e w w₂ bs) {p : SharedPayload} (hlen : w₂.words.length = p.words.length)
    {msg : SteamNetworkingMessage} (hcb : msg.cbSize.val = 4 * wordsFor w₂.usedBits.toNat) :
    MessageFits p w₂ msg := by
  have hu : w₂.usedBits.toNat = bs.length := hd.used
  have hwords := hd.wordsFor_le
  have hinside := p.words_length
  have hceil := p.wordCeiledSize_le
  change _ = p.wordCeiledSize.toNat at hinside
  rw [← hu, hlen] at hwords
  exact ⟨by omega, by rw [hcb, hd.wordsIndex, hu], by omega, by omega⟩

/-- What was flushed into a payload is read back from its message. -/
theorem received_readAll {e₁ e₂ : Endian} {w w₂ : BitStreamWriter}
    {plan : List (WriteCall × ReadCall × ReadCall)}
    (hd : Flushed e₁ w w₂ (encodeAll (plan.map fun q => q.1)))
    (hp : ∀ q ∈ plan, q.1.WithinLimits ∧ q.1.Valid ∧ Delivers q.1 q.2.1 q.2.2)
    {p : SharedPayload} (hwords : p.words = w₂.words) {msg : SteamNetworkingMessage}
    (hfits : MessageFits p w₂ msg) (hpos : 0 < w₂.usedBits.toNat) {span : WordSpan}
    (hr : Received e₁ e₂ p msg span) (r₀ : BitStreamReader) :
    (r₀.resetWith span (BitVec.ofInt 32 msg.cbSize.val)).fail = false ∧
      ∃ r, (r₀.resetWith span (BitVec.ofInt 32 msg.cbSize.val)).readAll e₂
          (plan.map fun q => q.2.1) = .ok (r, plan.map fun q => q.2.2) ∧
        r.fail = false ∧ r.usedBits = w₂.usedBits := by
  have hu : w₂.usedBits.toNat = (encodeAll (plan.map fun q => q.1)).length := hd.used
  have hcb := hfits.flushed
  have hsend := hfits.sendable
  rw [hd.wordsIndex, ← hu] at hcb
  have hn : 0 < wordsFor w₂.usedBits.toNat := by
    unfold wordsFor
    omega
  have hle := hd.wordsFor_le
  rw [← hu, ← hwords] at hle
  obtain ⟨hL, hbits, hbound⟩ := received_binds hr hn hcb hle r₀
  obtain ⟨rest, hfront⟩ := hd.front (m := wordsFor w₂.usedBits.toNat) (by rw [hu])
  rw [hwords] at hbits
  have hlimit : gnsMaxMsgRecvSize = 2 * gnsMaxMsgSendSize := rfl
  have hround : (encodeAll (plan.map fun q => q.1)).length ≤
      8 * (BitVec.ofInt 32 msg.cbSize.val).toNat := by
    rw [hL, ← hu, wordsFor]
    omega
  obtain ⟨r, hread, hf, hru⟩ := readAll_encodeAll plan hp r₀ span _ hbound (by omega) hround
    (hbits.trans hfront)
  exact ⟨hbound, r, hread, hf, BitVec.eq_of_toNat_eq (hru.trans hu.symm)⟩

/-- From the allocation to the receiver. A stream written into a payload of any
accepted size, flushed and sent, is in the message to its last bit, and the
message stays within what was allocated. `unicast` sends one such message, and
`multicast` one to each connection. -/
theorem payload_delivers (e₁ e₂ : Endian) (malloc : AllocSize → Option RawSpace)
    (s : AllocSize) (p : SharedPayload) (ha : allocate malloc s = some p)
    (w₀ w : BitStreamWriter) (p' : SharedPayload) (L : SizeType)
    (hbind : w₀.resetWithPayload p L = (w, p')) (hb : w.fail = false)
    (plan : List (WriteCall × ReadCall × ReadCall))
    (hp : ∀ q ∈ plan, q.1.WithinLimits ∧ Delivers q.1 q.2.1 q.2.2) :
    ∃ w₁, writeAll e₁ (plan.map fun q => q.1) w = .ok w₁ ∧
      (w₁.fail = false → ∃ w₂, w₁.flushFinal e₁ = .ok w₂ ∧ (0 < w₂.usedBits.toNat →
        ∃ hlen : w₂.words.length = p'.words.length,
        ∀ (allocateMessage : Nat → SteamNetworkingMessage) (args : SendArgs)
          (connection : HSteamNetConnection) (connections : List HSteamNetConnection)
          (sent : Sent), args.logicalBytesLength = IntType.int32.cast w₂.usedBytes.toNat →
          (sent = unicast allocateMessage args connection (p'.withWords w₂.words hlen) ∨
            sent = multicast allocateMessage args connections (p'.withWords w₂.words hlen)) →
          (sent = unicast allocateMessage args connection (p'.withWords w₂.words hlen) →
            sent.messages.map (·.conn) = [connection]) ∧
          (sent = multicast allocateMessage args connections (p'.withWords w₂.words hlen) →
            connections.length < 2 ^ 31 → sent.messages.map (·.conn) = connections) ∧
          ∀ msg ∈ sent.messages, MessageFits p w₂ msg ∧
            ∃ q, sent.payload = some q ∧ msg.pData = q.ptr ∧ q.size = s ∧
              q.internalAllocSize = allocSize s ∧
              (allocSize s).toNat = 4 + 4 + 4 * q.words.length ∧
              ∀ (r₀ : BitStreamReader) (span : WordSpan), Received e₁ e₂ q msg span →
                (r₀.resetWith span (BitVec.ofInt 32 msg.cbSize.val)).fail = false ∧
                ∃ r, (r₀.resetWith span (BitVec.ofInt 32 msg.cbSize.val)).readAll e₂
                      (plan.map fun q => q.2.1) = .ok (r, plan.map fun q => q.2.2) ∧
                  r.fail = false ∧ r.usedBits = w₂.usedBits)) := by
  obtain ⟨rfl, rfl⟩ := Prod.mk.inj hbind
  have hsize := (allocate_spec ha).1
  have hL := resetWithPayload_length w₀ p L hb
  have hceil := p.wordCeiledSize_le
  have hsend : gnsMaxMsgRecvSize = 2 * gnsMaxMsgSendSize := rfl
  have h23 : 8 * gnsMaxMsgRecvSize = 2 ^ 23 := rfl
  have hlimit := total_le_limit (L := L) (by omega)
  have hsound := resetWith_sound w₀ (p.setUsedBitStream true).span L hb
  obtain ⟨w₁, hw₁, h⟩ := writeAll_flushFinal (e := e₁) (plan.map fun q => q.1) (by
    intro call hcall
    obtain ⟨q, hmem, rfl⟩ := List.mem_map.mp hcall
    exact (hp q hmem).1) _ hsound hb rfl (written_restart _) hlimit
  refine ⟨w₁, hw₁, fun hf => ?_⟩
  obtain ⟨⟨hv, hfit⟩, w₂, hw₂, hd⟩ := h hf
  have hlen : w₂.words.length = p.words.length :=
    hd.length.trans (congrArg List.length (words_span (p.setUsedBitStream true)))
  refine ⟨w₂, hw₂, fun hpos => ⟨hlen,
    fun allocateMessage args connection connections sent hargs hs => ⟨fun hone => ?_,
      fun hmany hn => ?_, fun msg hmem => ?_⟩⟩⟩
  · rw [hone]
    rfl
  · rw [hmany]
    exact multicast_conns allocateMessage args connections _ hn
  obtain ⟨hc, refCount, hq⟩ := mem_sent allocateMessage args hs hmem
  have hused : w₂.usedBits.toNat ≤ 2 ^ 30 := by
    have hu : w₂.usedBits.toNat = (encodeAll (plan.map fun q => q.1)).length := hd.used
    change 0 + _ ≤ (8 * L).toNat at hfit
    omega
  have hcb : msg.cbSize.val = 4 * wordsFor w₂.usedBits.toNat := by
    rw [hc.cbSize, hargs]
    exact sendSize_usedBytes _ (usedBitStream_setUsedBitStream p) w₂ hused
  have hfits := messageFits_of_flushed hd hlen hcb
  have hinternal := p.toNat_internalAllocSize
  rw [internalAllocSize_eq, hsize, ← hlen] at hinternal
  have hsize' := (size_setUsedBitStream p true).trans hsize
  refine ⟨hfits, _, hq, hc.pData, hsize', congrArg allocSize hsize', hinternal, fun r₀ span hr => ?_⟩
  exact received_readAll hd
    (fun q hmem => ⟨(hp q hmem).1, hv _ (List.mem_map_of_mem hmem), (hp q hmem).2⟩) rfl
    (messageFits_of_flushed hd rfl hcb) hpos hr r₀

/-- Five bytes requested, three used, one word sent. -/
theorem payload_delivers_small :
    ∃ (sent : Sent) (msg : SteamNetworkingMessage), sent.messages.map (·.conn) = [7] ∧
      msg ∈ sent.messages ∧ msg.cbSize.val = 4 ∧
      ∃ r, ((default : BitStreamReader).resetWith ⟨false, [0x09080200]⟩
          (BitVec.ofInt 32 msg.cbSize.val)).readAll .big
        [.int .bool ⟨0, by decide⟩ ⟨0, by decide⟩ ⟨1, by decide⟩, .string .char8 [] 9] =
          .ok (r, [.int .bool ⟨1, by decide⟩ ⟨0, by decide⟩ ⟨1, by decide⟩,
            .string .char8 [⟨65, by decide⟩] 9]) ∧ r.fail = false := by
  obtain ⟨w₁, hw₁, h⟩ := payload_delivers .little .big
    (fun _ => some ⟨0x1000, fun _ => 0xdeadbeef⟩) 5
    ⟨0x1008, 0, 5, [0xdeadbeef, 0xdeadbeef], by decide, by decide, by decide⟩ (by decide)
    default (BitStreamWriter.mk 0 [0xdeadbeef, 0xdeadbeef] 0 0 64 0 false false false)
    ⟨0x1008, 0, 0x80000005, [0xdeadbeef, 0xdeadbeef], by decide, by decide, by decide⟩ 8
    (by decide) (by decide)
    [(.int .bool ⟨1, by decide⟩ ⟨0, by decide⟩ ⟨1, by decide⟩,
        .int .bool ⟨0, by decide⟩ ⟨0, by decide⟩ ⟨1, by decide⟩,
        .int .bool ⟨1, by decide⟩ ⟨0, by decide⟩ ⟨1, by decide⟩),
      (.string .char8 [⟨65, by decide⟩], .string .char8 [] 9, .string .char8 [⟨65, by decide⟩] 9)]
    (by
      intro p hp
      simp only [List.mem_cons, List.not_mem_nil, or_false] at hp
      obtain rfl | rfl := hp
      · exact ⟨trivial, .int _ _ _ _ _⟩
      · exact ⟨by decide, .string _ _ _ _ (by decide)⟩)
  have hcalls : writeAll .little [.int .bool ⟨1, by decide⟩ ⟨0, by decide⟩ ⟨1, by decide⟩,
      .string .char8 [⟨65, by decide⟩]]
      (BitStreamWriter.mk 0 [0xdeadbeef, 0xdeadbeef] 0 0 64 0 false false false) =
    .ok (BitStreamWriter.mk 0x20809 [0xdeadbeef, 0xdeadbeef] 19 0 64 19 false false false) := by
    decide
  obtain rfl := Run.ok_unique hw₁ hcalls
  obtain ⟨w₂, hw₂, h⟩ := h rfl
  have hflush : (BitStreamWriter.mk 0x20809 [0xdeadbeef, 0xdeadbeef] 19 0 64 19 false false
      false).flushFinal .little =
    .ok (BitStreamWriter.mk 0 [0x20809, 0xdeadbeef] 0 1 64 19 false false true) := by decide
  obtain rfl := Run.ok_unique hw₂ hflush
  obtain ⟨hlen, h⟩ := h (by decide)
  obtain ⟨hone, -, h⟩ := h
    (fun _ => ⟨0, ⟨0, by decide⟩, 0, ⟨0, by decide⟩, 0, 0, none⟩) ⟨⟨3, by decide⟩, ⟨8, by decide⟩, 0, 0⟩
    7 [] _ (by decide) (.inl rfl)
  obtain ⟨hfits, q, hq, hdata, -, -, -, hread⟩ := h _ (List.mem_singleton_self _)
  obtain rfl := Option.some.inj hq
  obtain ⟨-, r, hr, hf, -⟩ := hread default ⟨false, [0x09080200]⟩ ⟨rfl, by
    rw [hfits.flushed]
    rfl⟩
  exact ⟨_, _, hone rfl, List.mem_singleton_self _, hfits.flushed, r, hr, hf⟩

end Nalchi
