import Nalchi.Framing
import Nalchi.Measuring
import Nalchi.RoundTrip
import Nalchi.WriterRepresentation

/-! Streams that stop early. A reader whose logical length ends inside a message
delivers the values in front of the end, and the writer of a sequence that does not
fit keeps the writes in front of the first one that does not. -/
namespace Nalchi
open BitStreamWriter BitStreamReader Framing

variable {e : Endian}

theorem decodeLength_cut (len : Nat) {n : Nat} (hn : n < (lengthBits len).length) :
    ∃ err, decodeLength ((lengthBits len).take n) = .error err := by
  rw [lengthBits, List.length_append, Bits.length_ofNat, Bits.length_ofNat] at hn
  rw [decodeLength, lengthBits, List.take_append, Bits.length_ofNat]
  by_cases h2 : n < 2
  · have hnone : n - 2 = 0 := by omega
    refine ⟨0, ?_⟩
    rw [hnone, List.take_zero, List.append_nil, Bits.split_of_lt (by simp; omega)]
  · refine ⟨2, ?_⟩
    rw [List.take_of_length_le (by simp; omega), Bits.split_append _ _ _ (lengthKind_lt len)]
    simp only
    rw [Bits.split_of_lt (by simp; omega)]

/-- A string that is cut off anywhere is not read. -/
theorem decodeString_cut (c : CharType) (str : List c.Value) (maxLength : SizeType)
    (h31 : str.length < 2 ^ 31) {n : Nat} (hn : n < (WriteCall.encode (.string c str)).length) :
    ∃ err, decodeString c maxLength ((WriteCall.encode (.string c str)).take n) = .error err := by
  have hcost := length_encode (.string c str)
  have hl : (lengthBits str.length).length = 2 + lengthWidth (lengthKind str.length) := by
    simp [lengthBits]
  rw [WriteCall.cost] at hcost
  rw [hcost] at hn
  rw [WriteCall.encode, List.take_append]
  by_cases hlen : n < (lengthBits str.length).length
  · obtain ⟨err, herr⟩ := decodeLength_cut str.length hlen
    have hnone : n - (lengthBits str.length).length = 0 := by omega
    refine ⟨err, ?_⟩
    rw [hnone, List.take_zero, List.append_nil, decodeString, herr]
  · have hshort : decodeChars c maxLength str.length
        ((str.flatMap (fullBits c.intType)).take (n - (lengthBits str.length).length)) = none := by
      rw [decodeChars, Int.toNat_natCast, if_pos]
      refine .inr (.inr (lt_of_le_of_lt (List.length_take_le _ _) ?_))
      omega
    rw [List.take_of_length_le (by omega), decodeString_of_length
      (decodeLength_append _ (by omega) _) (castSsize_of_lt _ h31), hshort]
    exact ⟨_, rfl⟩

/-- Each read takes what the write it answers wrote, and nothing less. -/
theorem frames_decode {write : WriteCall} {before after : ReadCall}
    (h : Delivers write before after) (hv : write.Valid) (hlen : write.cost < 2 ^ 31) :
    Frames before.decode write.encode after := by
  refine ⟨decode_encode h hv hlen, fun n hn => ?_⟩
  have hcost := length_encode write
  have hshort : (write.encode.take n).length < write.cost :=
    lt_of_le_of_lt (List.length_take_le _ _) (by omega)
  cases h with
  | int t data dest min max =>
    have hlt : ¬ max.val ≤ min.val := not_le.mpr hv.1
    have hsplit := Bits.split_of_lt hshort
    rw [WriteCall.cost] at hsplit
    exact ⟨0, by simp only [ReadCall.decode, decodeInt, if_neg hlt, hsplit]; rfl⟩
  | float data dest =>
    have hsplit : Bits.split 32 _ = none := Bits.split_of_lt hshort
    exact ⟨0, by simp only [ReadCall.decode, hsplit]⟩
  | double data dest =>
    have hsplit : Bits.split 64 _ = none := Bits.split_of_lt hshort
    exact ⟨0, by simp only [ReadCall.decode, hsplit]⟩
  | block data dest size => exact ⟨0, if_pos hshort⟩
  | string c str dest maxLength hm =>
    have hs := c.intType_spec.2.2.1
    have h31 : str.length ≤ str.length * c.size := Nat.le_mul_of_pos_right _ hs
    rw [WriteCall.cost] at hlen
    obtain ⟨err, herr⟩ := decodeString_cut c str maxLength (by omega) hn
    exact ⟨err, by simp only [ReadCall.decode, herr]; rfl⟩
  | cstring c str dest maxLength hm =>
    have hs := c.intType_spec.2.2.1
    have h31 : str.length ≤ str.length * c.size := Nat.le_mul_of_pos_right _ hs
    rw [WriteCall.cost] at hlen
    obtain ⟨err, herr⟩ := decodeString_cut c str maxLength (by omega) hn
    exact ⟨err, by simp only [ReadCall.decode, herr]; rfl⟩

/-- A run of reads delivers what the decoders deliver one after the other, and from the
first that fails on it delivers nothing. -/
theorem readAll_decodeMany (calls : List ReadCall) (hc : ∀ call ∈ calls, call.WithinLimits)
    (r : BitStreamReader) (h : r.Sound e) (hf : r.fail = false)
    (ht : r.logicalTotalBits.toNat ≤ 8 * gnsMaxMsgRecvSize) :
    let dones := decodeMany (calls.map ReadCall.decode) (r.logicalRest e)
    ∃ r', r.readAll e calls = .ok (r', dones ++ calls.drop dones.length) ∧ r'.Sound e ∧
      r'.logicalTotalBits = r.logicalTotalBits ∧ (r'.fail = true ↔ dones.length < calls.length) := by
  induction calls generalizing r with
  | nil => exact ⟨r, rfl, h, rfl, by simp [hf, decodeMany]⟩
  | cons call calls ih =>
    have href := call.exec_refines r (h.synced hf) hf
      (call.checkSound_of_withinLimits r h ht (hc call (by simp)))
    intro dones
    cases hdec : call.decode (r.logicalRest e) with
    | error n =>
      have hnil : dones = [] := decodeMany_of_error hdec _
      rw [hdec] at href
      obtain ⟨r', hr', hstop⟩ := href
      rw [hnil]
      exact ⟨r', readAll_cons hr' (readAll_of_fail calls r' hstop.fail), hstop.sound h, hstop.total,
        by simp [hstop.fail]⟩
    | ok p =>
      rw [hdec] at href
      obtain ⟨r₁, hr₁, ha⟩ := href
      obtain ⟨r', hr', hsound, htotal, hiff⟩ := ih (fun c hc' => hc c (by simp [hc'])) r₁ (ha.sound h)
        (ha.fail.trans hf) (by rw [ha.total]; exact ht)
      rw [ha.rest] at hr' hiff
      have hcons : dones = p.1 :: decodeMany (calls.map ReadCall.decode) p.2 :=
        decodeMany_of_ok hdec _
      rw [hcons]
      refine ⟨r', readAll_cons hr₁ hr', hsound, htotal.trans ha.total, ?_⟩
      rw [hiff, List.length_cons, List.length_cons, Nat.succ_lt_succ_iff]

theorem memoryBits_take (ws : List WordType) (k : Nat) :
    memoryBits e (ws.take k) = (memoryBits e ws).take (32 * k) := by
  obtain hk | hk := Nat.le_total k ws.length
  · have hsplit := memoryBits_append e (ws.take k) (ws.drop k)
    rw [List.take_append_drop] at hsplit
    rw [hsplit, List.take_left' (by rw [length_memoryBits, List.length_take, Nat.min_eq_left hk])]
  · rw [List.take_of_length_le hk, List.take_of_length_le (by simp; omega)]

/-- What lies before the logical end of a reader over a flushed message, or a part of it. -/
theorem logicalRest_flushed {e₁ e₂ : Endian} {w w₂ : BitStreamWriter} {bs : List Bool}
    (hd : Flushed e₁ w w₂ bs) {m : Nat} {span : WordSpan} {L : SizeType}
    (hbytes : memoryBytes e₂ span.words = memoryBytes e₁ (w₂.words.take m)) (r₀ : BitStreamReader)
    (hb : (r₀.resetWith span L).fail = false) (hL : L.toNat ≤ gnsMaxMsgRecvSize) :
    ∃ rest, (r₀.resetWith span L).logicalRest e₂ = (bs ++ rest).take (8 * L.toNat) := by
  have hcap := (BitStreamReader.resetWith_sound (e := e₂) r₀ span L hb).capacity
  rw [total_resetWith r₀ span hL] at hcap
  change 8 * L.toNat ≤ 32 * span.words.length at hcap
  have hlen := congrArg List.length hbytes
  rw [length_memoryBytes, length_memoryBytes, List.length_take] at hlen
  have hbits : memoryBits e₂ span.words = memoryBits e₁ (w₂.words.take m) := by
    rw [memoryBits, hbytes]
    rfl
  obtain ⟨rest, hfront⟩ := hd.front hd.wordsFor_le
  rw [List.take_length] at hfront
  refine ⟨rest, ?_⟩
  rw [logicalRest_resetWith r₀ span hL, hbits, memoryBits_take, List.take_take, ← hfront,
    Nat.min_eq_left (by omega)]

/-- Round trip of a message that is cut short. Wherever the logical end of the reader lies in
what was flushed, the reads whose fields end before it deliver what was written; the first
other read fails, and it and all those behind it deliver nothing. -/
theorem truncated_round_trip (e₁ e₂ : Endian) (w₀ : BitStreamWriter) (span : WordSpan)
    (L : SizeType) (hb : (w₀.resetWith span L).fail = false) (hL : L.toNat ≤ gnsMaxMsgRecvSize)
    (plan : List (WriteCall × ReadCall × ReadCall))
    (hp : ∀ p ∈ plan, p.1.WithinLimits ∧ Delivers p.1 p.2.1 p.2.2) :
    ∃ w₁, writeAll e₁ (plan.map fun p => p.1) (w₀.resetWith span L) = .ok w₁ ∧
      (w₁.fail = false → ∃ w₂, w₁.flushFinal e₁ = .ok w₂ ∧
        ∀ (m : Nat) (r₀ : BitStreamReader) (span' : WordSpan) (L' : SizeType),
          memoryBytes e₂ span'.words = memoryBytes e₁ (w₂.words.take m) →
          (r₀.resetWith span' L').fail = false → L'.toNat ≤ gnsMaxMsgRecvSize →
          ∃ (k : Nat) (r : BitStreamReader), k ≤ plan.length ∧
            ((plan.take k).map fun p => p.1.cost).sum ≤ 8 * L'.toNat ∧
            (k < plan.length →
              8 * L'.toNat < ((plan.take (k + 1)).map fun p => p.1.cost).sum) ∧
            (r₀.resetWith span' L').readAll e₂ (plan.map fun p => p.2.1) =
              .ok (r, ((plan.take k).map fun p => p.2.2) ++ (plan.drop k).map fun p => p.2.1) ∧
            (r.fail = true ↔ k < plan.length)) := by
  have hsound := BitStreamWriter.resetWith_sound w₀ span L hb
  have hlimit := total_le_limit hL
  have h23 : 8 * gnsMaxMsgRecvSize = 2 ^ 23 := by decide
  have hcalls : ∀ call ∈ plan.map fun p => p.1, call.WithinLimits := by
    intro call hcall
    obtain ⟨p, hmem, rfl⟩ := List.mem_map.mp hcall
    exact (hp p hmem).1
  obtain ⟨w₁, hw₁, h⟩ := writeAll_flushFinal (e := e₁) _ hcalls _ hsound hb rfl
    (written_restart _) hlimit
  refine ⟨w₁, hw₁, fun hf => ?_⟩
  obtain ⟨⟨hv, hfit⟩, w₂, hw₂, hd⟩ := h hf
  change 0 + _ ≤ (8 * L).toNat at hfit
  refine ⟨w₂, hw₂, fun m r₀ span' L' hbytes hb' hL' => ?_⟩
  obtain ⟨rest, hrest⟩ := logicalRest_flushed hd hbytes r₀ hb' hL'
  have hframes : ∀ p ∈ plan, Frames p.2.1.decode p.1.encode p.2.2 := fun p hmem => by
    have hc := cost_le_length (List.mem_map_of_mem (f := fun p => p.1) hmem)
    exact frames_decode (hp p hmem).2 (hv _ (List.mem_map_of_mem hmem)) (by omega)
  have hreads : ∀ call ∈ plan.map fun p => p.2.1, call.WithinLimits := by
    intro call hcall
    obtain ⟨p, hmem, rfl⟩ := List.mem_map.mp hcall
    exact (hp p hmem).2.withinLimits (hp p hmem).1
  obtain ⟨r, hr, -, -, hiff⟩ := readAll_decodeMany (e := e₂) _ hreads _
    (BitStreamReader.resetWith_sound r₀ span' L' hb') hb'
    (by rw [total_resetWith r₀ span' hL']; omega)
  have hcosts : (plan.map fun p => p.1.encode.length) = plan.map fun p => p.1.cost :=
    List.map_congr_left fun p _ => length_encode p.1
  have hmany := decodeMany_take (fun p => p.2.1.decode) (fun p => p.1.encode) (fun p => p.2.2) plan
    hframes rest (8 * L'.toNat)
  rw [hcosts] at hmany
  have hdones : decodeMany ((plan.map fun p => p.2.1).map ReadCall.decode)
      ((r₀.resetWith span' L').logicalRest e₂) = (plan.take (fitting (plan.map fun p => p.1.cost)
        (8 * L'.toNat))).map fun p => p.2.2 := by
    rw [hrest, encodeAll, List.flatMap_map, List.map_map]
    exact hmany
  rw [hdones] at hr hiff
  have hle := fitting_le_length (plan.map fun p => p.1.cost) (8 * L'.toNat)
  have hsum := sum_fitting_le (plan.map fun p => p.1.cost) (8 * L'.toNat)
  have hnext := lt_sum_of_fitting_lt (plan.map fun p => p.1.cost) (8 * L'.toNat)
  rw [List.length_map] at hle hnext
  rw [← List.map_take] at hsum hnext
  rw [List.length_map, List.length_take, Nat.min_eq_left hle] at hr hiff
  rw [List.length_map] at hiff
  exact ⟨_, r, hle, hsum, hnext, by rw [hr, List.map_drop], hiff⟩

/-- A flag, a byte and a string, read with a logical length of two bytes: the string is cut. -/
theorem truncated_round_trip_small :
    ∃ r, ((default : BitStreamReader).resetWith ⟨false, [0x208080f]⟩ 2).readAll .little
        [.int .bool ⟨0, by decide⟩ ⟨0, by decide⟩ ⟨1, by decide⟩,
          .block (fun _ => ⟨0, by decide⟩) 1, .string .char8 [] 9] =
        .ok (r, [.int .bool ⟨1, by decide⟩ ⟨0, by decide⟩ ⟨1, by decide⟩,
          .block (fun i => if i < 1 then ⟨7, by decide⟩ else ⟨0, by decide⟩) 1,
          .string .char8 [] 9]) ∧ r.fail = true := by
  obtain ⟨w₁, hw₁, h⟩ := truncated_round_trip .big .little default ⟨false, [0]⟩ 4 (by decide)
    (by decide)
    [(.int .bool ⟨1, by decide⟩ ⟨0, by decide⟩ ⟨1, by decide⟩,
        .int .bool ⟨0, by decide⟩ ⟨0, by decide⟩ ⟨1, by decide⟩,
        .int .bool ⟨1, by decide⟩ ⟨0, by decide⟩ ⟨1, by decide⟩),
      (.block (fun _ => ⟨7, by decide⟩) 1, .block (fun _ => ⟨0, by decide⟩) 1,
        .block (fun i => if i < 1 then ⟨7, by decide⟩ else ⟨0, by decide⟩) 1),
      (.string .char8 [⟨65, by decide⟩], .string .char8 [] 9, .string .char8 [⟨65, by decide⟩] 9)]
    (by
      intro p hp
      simp only [List.mem_cons, List.not_mem_nil, or_false] at hp
      obtain rfl | rfl | rfl := hp
      · exact ⟨trivial, .int _ _ _ _ _⟩
      · exact ⟨by decide, .block _ _ _⟩
      · exact ⟨by decide, .string _ _ _ _ (by decide)⟩)
  have hcalls : writeAll .big [.int .bool ⟨1, by decide⟩ ⟨0, by decide⟩ ⟨1, by decide⟩,
      .block (fun _ => ⟨7, by decide⟩) 1, .string .char8 [⟨65, by decide⟩]]
      ((default : BitStreamWriter).resetWith ⟨false, [0]⟩ 4) =
    .ok (BitStreamWriter.mk 0x208080f [0] 27 0 32 27 false false false) := by decide
  obtain rfl := Run.ok_unique hw₁ hcalls
  obtain ⟨w₂, hw₂, h⟩ := h rfl
  have hflush : (BitStreamWriter.mk 0x208080f [0] 27 0 32 27 false false false).flushFinal .big =
    .ok (BitStreamWriter.mk 0 [0xf080802] 0 1 32 27 false false true) := by decide
  obtain rfl := Run.ok_unique hw₂ hflush
  obtain ⟨k, r, hk, hsum, hnext, hr, hiff⟩ := h 1 default ⟨false, [0x208080f]⟩ 2 (by decide)
    (by decide) (by decide)
  obtain rfl : k = 2 := by
    simp only [List.length_cons, List.length_nil] at hk hnext
    interval_cases k
    · exact absurd (hnext (by decide)) (by decide)
    · exact absurd (hnext (by decide)) (by decide)
    · rfl
    · exact absurd hsum (by decide)
  exact ⟨r, hr, hiff.mpr (by decide)⟩

/-- A run of writes, by induction on the calls: the state is that of the longest prefix of
acceptable calls, and failed if there is a call behind it. -/
theorem writeAll_longest_prefix (calls : List WriteCall) (w : BitStreamWriter) (h : w.Packed)
    (hf : w.fail = false) (hfl : w.finalFlushed = false)
    (hs : Run.Along (WriteCall.exec e) WriteCall.CheckSound calls w) :
    ∃ (k : Nat) (w₁ : BitStreamWriter), k ≤ calls.length ∧
      writeAll e (calls.take k) w = .ok w₁ ∧ Appended e w w₁ (encodeAll (calls.take k)) ∧
      (∀ call, calls[k]? = some call → ¬ call.Accepted w₁) ∧
      writeAll e calls w = .ok (if k < calls.length then { w₁ with fail := true } else w₁) := by
  induction calls generalizing w with
  | nil => exact ⟨0, w, le_refl 0, rfl, Appended.refl h, by simp, rfl⟩
  | cons call calls ih =>
    by_cases hc : call.Accepted w
    · obtain ⟨w₁, hw₁, ha₁⟩ := call.exec_of_accepted (e := e) w h hc
      have hx := ha₁.toExtends
      obtain ⟨k, w₂, hk, hw₂, ha₂, hnext, hall⟩ := ih w₁ ha₁.packed (hx.fail.trans hf)
        (hx.finalFlushed.trans hfl) (hs.2 w₁ hw₁)
      refine ⟨k + 1, w₂, Nat.succ_le_succ hk, ?_, ?_, fun c hc' => hnext c hc', ?_⟩
      · rw [List.take_succ_cons, writeAll, Run.run, hw₁]
        exact hw₂
      · exact ha₁.trans ha₂
      · rw [writeAll, Run.run, hw₁, List.length_cons]
        simp only [Nat.succ_lt_succ_iff]
        exact hall
    · refine ⟨0, w, Nat.zero_le _, rfl, Appended.refl h, ?_, ?_⟩
      · intro c hc'
        rwa [← Option.some.inj hc']
      · rw [if_pos (by simp), writeAll, Run.run, call.exec_of_not_accepted w h hc hs.1]
        exact writeAll_of_fail calls _ rfl

theorem writeAll_of_closed (calls : List WriteCall) (w : BitStreamWriter)
    (h : w.fail = true ∨ w.finalFlushed = true) :
    writeAll e calls w = .ok (if 0 < calls.length then { w with fail := true } else w) := by
  cases calls with
  | nil => rfl
  | cons call calls =>
    rw [writeAll, Run.run, call.exec_of_closed w h, if_pos (by simp)]
    exact writeAll_of_fail calls _ rfl

/-- What a stream makes of a sequence it cannot take as a whole. In any reachable state, failed
and flushed ones included, the encodings of the writes in front of the first one that is not
accepted are behind what was written before. That one and all behind it change nothing but the
fail flag. -/
theorem writer_keeps_longest_prefix (e : Endian) (w₀ : BitStreamWriter) (span : WordSpan)
    (L : SizeType) (hL : L.toNat ≤ gnsMaxMsgRecvSize) (ops : List WriterOp)
    (hops : ∀ op ∈ ops, op.WithinLimits) (w : BitStreamWriter)
    (hw : runOps e ops (w₀.resetWith span L) = .ok w) (calls : List WriteCall)
    (hc : ∀ call ∈ calls, call.WithinLimits) :
    ∃ (k : Nat) (w₁ : BitStreamWriter), k ≤ calls.length ∧
      writeAll e (calls.take k) w = .ok w₁ ∧ w₁.fail = w.fail ∧
      w₁.written e = w.written e ++ encodeAll (calls.take k) ∧
      w₁.usedBits.toNat = w.usedBits.toNat + ((calls.take k).map WriteCall.cost).sum ∧
      w₁.usedBits.toNat ≤ w.totalBits.toNat ∧
      (∀ call, calls[k]? = some call → w.fail = true ∨ w.finalFlushed = true ∨
        ¬ call.Valid ∨ w.totalBits.toNat < w₁.usedBits.toNat + call.cost) ∧
      writeAll e calls w = .ok (if k < calls.length then { w₁ with fail := true } else w₁) := by
  have hle := used_le_of_runOps hL hops hw
  by_cases hclosed : w.fail = true ∨ w.finalFlushed = true
  · exact ⟨0, w, Nat.zero_le _, rfl, rfl, (List.append_nil _).symm, rfl, hle,
      fun call _ => hclosed.imp_right .inl, writeAll_of_closed calls w hclosed⟩
  have hf : w.fail = false := by simpa using fun hf => hclosed (.inl hf)
  have hfl : w.finalFlushed = false := by simpa using fun hfl => hclosed (.inr hfl)
  obtain ⟨hsound, ht⟩ := sound_of_runOps hL hops hw hf
  have hp := hsound.packed hfl
  obtain ⟨k, w₁, hk, hw₁, ha, hnext, hall⟩ := writeAll_longest_prefix (e := e) calls w hp hf hfl
    (along_checkSound calls hc w hsound ht)
  have hx := ha.toExtends
  have hf₁ := hx.fail.trans hf
  have hfl₁ := hx.finalFlushed.trans hfl
  refine ⟨k, w₁, hk, hw₁, hx.fail, hx.written, ?_, ?_, fun call hcall => ?_, hall⟩
  · rw [← length_encodeAll]
    exact ha.used hp
  · rw [BitStreamWriter.totalBits, ← hx.total]
    exact ha.packed.used_le
  · have hno := hnext call hcall
    rw [WriteCall.Accepted, and_iff_right hf₁, and_iff_right hfl₁, hx.total] at hno
    by_cases hv : call.Valid
    · exact .inr (.inr (.inr (not_le.mp fun hfit => hno ⟨hv, hfit⟩)))
    · exact .inr (.inr (.inl hv))

/-- The second of three writes does not fit behind the first, the third would. -/
theorem writer_keeps_longest_prefix_short :
    writeAll .little [.float 0x3f800000, .double 0, .float 0]
        ((default : BitStreamWriter).resetWith ⟨false, [0, 0]⟩ 8) =
      .ok ⟨0, [0x3f800000, 0], 0, 1, 64, 32, false, true, false⟩ ∧
    BitStreamWriter.written .little ⟨0, [0x3f800000, 0], 0, 1, 64, 32, false, false, false⟩ =
      encodeAll [.float 0x3f800000] := by
  obtain ⟨k, w₁, hk, hw₁, -, hwritten, hused, hle, hnext, hall⟩ := writer_keeps_longest_prefix
    .little default ⟨false, [0, 0]⟩ 8 (by decide) [] (by simp) _ rfl
    [.float 0x3f800000, .double 0, .float 0] (by decide)
  have hzero : ((default : BitStreamWriter).resetWith ⟨false, [0, 0]⟩ 8).usedBits.toNat = 0 := rfl
  have htotal : ((default : BitStreamWriter).resetWith ⟨false, [0, 0]⟩ 8).totalBits.toNat = 64 := rfl
  rw [hzero] at hused
  rw [htotal] at hle hnext
  obtain rfl : k = 1 := by
    simp only [List.length_cons, List.length_nil] at hk
    interval_cases k
    · obtain hf | hfl | hv | hlt := hnext _ rfl
      · exact absurd hf (by decide)
      · exact absurd hfl (by decide)
      · exact absurd trivial hv
      · rw [hused] at hlt
        exact absurd hlt (by decide)
    · rfl
    · rw [hused] at hle
      exact absurd hle (by decide)
    · rw [hused] at hle
      exact absurd hle (by decide)
  have hfirst : writeAll .little [.float 0x3f800000]
      ((default : BitStreamWriter).resetWith ⟨false, [0, 0]⟩ 8) =
    .ok ⟨0, [0x3f800000, 0], 0, 1, 64, 32, false, false, false⟩ := by decide
  obtain rfl := Run.ok_unique hw₁ hfirst
  exact ⟨hall, hwritten⟩

end Nalchi
