import Nalchi.CStrings
import Nalchi.RoundTrip
import Mathlib.Data.List.TakeWhile

/-! Relaying: what a reader accepted, whoever wrote it, can be written again with the
same ranges. It needs no more bits than it took, and is read as the same values. -/
namespace Nalchi
open BitStreamWriter BitStreamReader

variable {e : Endian}

/-- The write that passes on what a read delivered. -/
def ReadCall.relay : ReadCall → WriteCall
  | .int t data min max => .int t data min max
  | .float data => .float data
  | .double data => .double data
  | .block data size => .block data size
  | .string c str _ => .string c str
  | .cstring c str maxLength => .string c (cstr str (maxLength.toNat + 1))

/-- No field of the width of the range leads out of the type. -/
def ReadCall.NoWrap : ReadCall → Prop
  | .int t _ min max => min.val + (2 ^ bitWidth (max.val - min.val).toNat - 1) ≤ t.highest
  | _ => True

instance ReadCall.decidableNoWrap : DecidablePred ReadCall.NoWrap
  | .int t _ min max =>
    inferInstanceAs (Decidable (min.val + (2 ^ bitWidth (max.val - min.val).toNat - 1) ≤ t.highest))
  | .float _ | .double _ | .block _ _ | .string _ _ _ | .cstring _ _ _ => .isTrue trivial

theorem lengthKind_mono {m n : Nat} (h : m ≤ n) : lengthKind m ≤ lengthKind n := by
  unfold lengthKind
  split_ifs <;> omega

theorem lengthWidth_mono {k k' : Nat} (h : k ≤ k') : lengthWidth k ≤ lengthWidth k' :=
  Nat.mul_le_mul_left 8 (Nat.pow_le_pow_right (by omega) h)

/-- A shorter string takes no more bits. -/
theorem cost_string_mono (c : CharType) {xs ys : List c.Value} (h : xs.length ≤ ys.length) :
    (WriteCall.string c xs).cost ≤ (WriteCall.string c ys).cost := by
  have hprefix := lengthWidth_mono (lengthKind_mono h)
  have hchars := Nat.mul_le_mul_right c.size h
  simp only [WriteCall.cost]
  omega

/-- A length that fits the width its prefix names could have had no longer prefix. -/
theorem lengthKind_le {len kind : Nat} (hk : kind < 4) (h : len < 2 ^ lengthWidth kind) :
    lengthKind len ≤ kind := by
  unfold lengthKind
  interval_cases kind <;> simp only [lengthWidth] at h <;> norm_num at h <;> split_ifs <;> omega

theorem castSsize_toNat_le (n : Nat) : (castSsize n).toNat ≤ n := by
  simp only [castSsize, IntType.wrap, Width.bits]
  rw [Int.bmod_def]
  split_ifs <;> omega

theorem decodeLength_ok {bs rest : List Bool} {raw : Nat} (h : decodeLength bs = .ok (raw, rest)) :
    ∃ kind < 4, raw < 2 ^ lengthWidth kind ∧ 2 + lengthWidth kind + rest.length = bs.length := by
  rw [decodeLength] at h
  by_cases h2 : bs.length < 2
  · rw [Bits.split_of_lt h2] at h
    cases h
  rw [Bits.split_of_le (by omega)] at h
  simp only at h
  by_cases hw : (bs.drop 2).length < lengthWidth (Bits.toNat (bs.take 2))
  · rw [Bits.split_of_lt hw] at h
    cases h
  rw [Bits.split_of_le (by omega)] at h
  obtain ⟨rfl, rfl⟩ := Prod.mk.inj (Except.ok.inj h)
  refine ⟨_, toNat_take_lt 2 bs, toNat_take_lt _ _, ?_⟩
  rw [List.length_drop] at hw ⊢
  rw [List.length_drop]
  omega

/-- A string that was read is within its bound, and took at least the bits its writing takes. -/
theorem decodeString_ok {c : CharType} {maxLength : SizeType} {bs rest : List Bool}
    {str : List c.Value} (h : decodeString c maxLength bs = .ok (str, rest)) :
    str.length ≤ maxLength.toNat ∧ (WriteCall.string c str).cost + rest.length ≤ bs.length := by
  cases hlen : decodeLength bs with
  | error n =>
    rw [decodeString, hlen] at h
    cases h
  | ok p =>
    obtain ⟨raw, mid⟩ := p
    obtain ⟨kind, hk, hraw, hmid⟩ := decodeLength_ok hlen
    have hcast := castSsize_toNat_le raw
    rw [decodeString_of_length hlen rfl, decodeChars] at h
    split_ifs at h with hbad
    · cases h
    obtain ⟨rfl, rfl⟩ := Prod.mk.inj (Except.ok.inj h)
    have hwidth := lengthWidth_mono (lengthKind_le hk (lt_of_le_of_lt hcast hraw))
    rw [length_takeValues, List.length_drop, WriteCall.cost, length_takeValues]
    omega

/-- What a read delivered took at least the bits its writing takes. -/
theorem ReadCall.relay_cost_le {call done : ReadCall} {bs rest : List Bool}
    (h : call.decode bs = .ok (done, rest)) : done.relay.cost + rest.length ≤ bs.length := by
  cases call with
  | int t data min max =>
    simp only [ReadCall.decode, decodeInt] at h
    by_cases hrange : max.val ≤ min.val
    · rw [if_pos hrange] at h
      cases h
    rw [if_neg hrange] at h
    by_cases hlack : bs.length < bitWidth (max.val - min.val).toNat
    · rw [Bits.split_of_lt hlack] at h
      cases h
    rw [Bits.split_of_le (by omega)] at h
    simp only at h
    split_ifs at h with hmax
    · cases h
    obtain ⟨rfl, rfl⟩ := Prod.mk.inj (Except.ok.inj h)
    rw [ReadCall.relay, WriteCall.cost, List.length_drop]
    omega
  | float data =>
    simp only [ReadCall.decode] at h
    by_cases hlack : bs.length < 32
    · rw [Bits.split_of_lt hlack] at h
      cases h
    rw [Bits.split_of_le (by omega)] at h
    obtain ⟨rfl, rfl⟩ := Prod.mk.inj (Except.ok.inj h)
    rw [ReadCall.relay, WriteCall.cost, List.length_drop]
    omega
  | double data =>
    simp only [ReadCall.decode] at h
    by_cases hlack : bs.length < 64
    · rw [Bits.split_of_lt hlack] at h
      cases h
    rw [Bits.split_of_le (by omega)] at h
    obtain ⟨rfl, rfl⟩ := Prod.mk.inj (Except.ok.inj h)
    rw [ReadCall.relay, WriteCall.cost, List.length_drop]
    omega
  | block data size =>
    simp only [ReadCall.decode] at h
    split_ifs at h with hlack
    obtain ⟨rfl, rfl⟩ := Prod.mk.inj (Except.ok.inj h)
    rw [ReadCall.relay, WriteCall.cost, List.length_drop]
    omega
  | string c str maxLength =>
    simp only [ReadCall.decode] at h
    obtain ⟨p, hdec, h⟩ := Run.map_eq_ok.mp h
    obtain ⟨rfl, rfl⟩ := Prod.mk.inj h
    exact (decodeString_ok hdec).2
  | cstring c mem maxLength =>
    simp only [ReadCall.decode] at h
    obtain ⟨p, hdec, h⟩ := Run.map_eq_ok.mp h
    obtain ⟨rfl, rfl⟩ := Prod.mk.inj h
    obtain ⟨hmax, hcost⟩ := decodeString_ok hdec
    have hview := (List.takeWhile_prefix (fun x : c.Value => decide (x.val ≠ 0))
      (l := p.1)).length_le
    have hmono := cost_string_mono c hview
    simp only [ReadCall.relay]
    rw [cstr_overlay mem p.1 (by omega)]
    omega

/-- What is relayed is valid, and read as the same. -/
theorem ReadCall.decode_relay {call done : ReadCall} (hl : call.WithinLimits) (hn : call.NoWrap)
    {bs rest : List Bool} (h : call.decode bs = .ok (done, rest)) :
    ∃ after, done.relay.WithinLimits ∧ done.relay.Valid ∧ Delivers done.relay call after ∧
      after.relay = done.relay := by
  cases call with
  | int t data min max =>
    simp only [ReadCall.decode, decodeInt] at h
    by_cases hrange : max.val ≤ min.val
    · rw [if_pos hrange] at h
      cases h
    rw [if_neg hrange] at h
    by_cases hlack : bs.length < bitWidth (max.val - min.val).toNat
    · rw [Bits.split_of_lt hlack] at h
      cases h
    rw [Bits.split_of_le (by omega)] at h
    simp only at h
    have hraw := toNat_take_lt (bitWidth (max.val - min.val).toNat) bs
    have hmin := min.property
    have hval : (t.cast (min.val + (Bits.toNat (bs.take (bitWidth (max.val - min.val).toNat)) :
        Nat))).val = _ := t.wrap_of_mem _ (by omega) (by
      have hpow : ((2 ^ bitWidth (max.val - min.val).toNat : Nat) : Int) =
        2 ^ bitWidth (max.val - min.val).toNat := by norm_cast
      change min.val + (2 ^ bitWidth (max.val - min.val).toNat - 1) ≤ t.highest at hn
      omega)
    split_ifs at h with hmax
    · cases h
    obtain ⟨rfl, rfl⟩ := Prod.mk.inj (Except.ok.inj h)
    refine ⟨_, trivial, ⟨by omega, ?_, not_lt.mp hmax⟩, .int _ _ _ _ _, rfl⟩
    rw [hval]
    omega
  | float data =>
    simp only [ReadCall.decode] at h
    split at h
    · cases h
    · obtain ⟨rfl, rfl⟩ := Prod.mk.inj (Except.ok.inj h)
      exact ⟨_, trivial, trivial, .float _ _, rfl⟩
  | double data =>
    simp only [ReadCall.decode] at h
    split at h
    · cases h
    · obtain ⟨rfl, rfl⟩ := Prod.mk.inj (Except.ok.inj h)
      exact ⟨_, trivial, trivial, .double _ _, rfl⟩
  | block data size =>
    simp only [ReadCall.decode] at h
    split_ifs at h with hlack
    obtain ⟨rfl, rfl⟩ := Prod.mk.inj (Except.ok.inj h)
    refine ⟨_, hl, trivial, .block _ _ _, ?_⟩
    have hlen := length_takeValues .uint8 size.toNat bs
    simp only [ReadCall.relay, WriteCall.block.injEq, and_true]
    funext i
    split_ifs with hi
    · rfl
    · rw [overlay, List.getElem?_eq_none (by omega)]
      rfl
  | string c str maxLength =>
    simp only [ReadCall.decode] at h
    obtain ⟨p, hdec, h⟩ := Run.map_eq_ok.mp h
    obtain ⟨rfl, rfl⟩ := Prod.mk.inj h
    have hmax := (decodeString_ok hdec).1
    have hsize := maxLength.isLt
    exact ⟨_, show p.1.length < 2 ^ 56 by omega, trivial, .string _ _ _ _ hmax, rfl⟩
  | cstring c mem maxLength =>
    simp only [ReadCall.decode] at h
    obtain ⟨p, hdec, h⟩ := Run.map_eq_ok.mp h
    obtain ⟨rfl, rfl⟩ := Prod.mk.inj h
    have hmax := (decodeString_ok hdec).1
    have hsize := maxLength.isLt
    have hview := (List.takeWhile_prefix (fun x : c.Value => decide (x.val ≠ 0))
      (l := p.1)).length_le
    simp only [ReadCall.relay]
    rw [cstr_overlay mem p.1 (by omega)]
    refine ⟨_, lt_of_le_of_lt hview (by omega), trivial, .cstring _ _ mem _ (by omega), ?_⟩
    dsimp only [ReadCall.relay]
    rw [cstr_overlay mem _ (by omega), List.takeWhile_idem]

/-- The writes that relay a run of reads, paired with the reads that answer them. -/
theorem relay_plan (calls : List ReadCall)
    (hc : ∀ call ∈ calls, call.WithinLimits ∧ call.NoWrap) {bs rest : List Bool}
    {dones : List ReadCall} (h : decodeAll calls bs = .ok (dones, rest)) :
    ∃ plan : List (WriteCall × ReadCall × ReadCall),
      (plan.map fun q => q.1) = dones.map ReadCall.relay ∧ (plan.map fun q => q.2.1) = calls ∧
      (plan.map fun q => q.2.2.relay) = dones.map ReadCall.relay ∧
      (∀ q ∈ plan, q.1.WithinLimits ∧ q.1.Valid ∧ Delivers q.1 q.2.1 q.2.2) ∧
      (encodeAll (dones.map ReadCall.relay)).length + rest.length ≤ bs.length := by
  induction calls generalizing bs dones with
  | nil =>
    obtain ⟨rfl, rfl⟩ := Prod.mk.inj (Except.ok.inj h)
    exact ⟨[], rfl, rfl, rfl, by simp, by simp [encodeAll]⟩
  | cons call calls ih =>
    obtain ⟨⟨done, mid⟩, hdec, h⟩ := Run.bind_eq_ok.mp h
    obtain ⟨⟨dones', rest'⟩, hrest, h⟩ := Run.bind_eq_ok.mp h
    obtain ⟨rfl, rfl⟩ := Prod.mk.inj (Except.ok.inj h)
    obtain ⟨hl, hn⟩ := hc call (by simp)
    obtain ⟨after, hlim, hv, hd, hafter⟩ := ReadCall.decode_relay hl hn hdec
    have hcost := ReadCall.relay_cost_le hdec
    obtain ⟨plan, hwrites, hreads, hafters, hall, hlen⟩ := ih (fun c hc' => hc c (by simp [hc'])) hrest
    refine ⟨(done.relay, call, after) :: plan, ?_, ?_, ?_, ?_, ?_⟩
    · rw [List.map_cons, List.map_cons, hwrites]
    · rw [List.map_cons, hreads]
    · rw [List.map_cons, List.map_cons, hafters, hafter]
    · intro q hq
      obtain rfl | hq := List.mem_cons.mp hq
      · exact ⟨hlim, hv, hd⟩
      · exact hall q hq
    · rw [List.map_cons, length_encodeAll_cons]
      omega

/-- Any reader over the words of a flushed message reads it back. -/
theorem readAll_flushed {e₁ e₂ : Endian} {w w₂ : BitStreamWriter}
    {plan : List (WriteCall × ReadCall × ReadCall)}
    (hd : Flushed e₁ w w₂ (encodeAll (plan.map fun q => q.1)))
    (hp : ∀ q ∈ plan, q.1.WithinLimits ∧ q.1.Valid ∧ Delivers q.1 q.2.1 q.2.2)
    (hsmall : (encodeAll (plan.map fun q => q.1)).length ≤ 2 ^ 32 - 8) {m : Nat}
    (hm : wordsFor w₂.usedBits.toNat ≤ m) (r₀ : BitStreamReader) {span : WordSpan} {L : SizeType}
    (hbytes : memoryBytes e₂ span.words = memoryBytes e₁ (w₂.words.take m))
    (hb : (r₀.resetWith span L).fail = false) (hL : L.toNat ≤ gnsMaxMsgRecvSize)
    (hused : w₂.usedBytes.toNat ≤ L.toNat) :
    ∃ r, (r₀.resetWith span L).readAll e₂ (plan.map fun q => q.2.1) =
        .ok (r, plan.map fun q => q.2.2) ∧ r.fail = false ∧ r.usedBits = w₂.usedBits := by
  have hu : w₂.usedBits.toNat = (encodeAll (plan.map fun q => q.1)).length := hd.used
  have hceil := toNat_ceil_bytes w₂.usedBits (by omega)
  change w₂.usedBytes.toNat = _ at hceil
  rw [hu] at hm
  obtain ⟨rest, hfront⟩ := hd.front hm
  have hbits : memoryBits e₂ span.words = encodeAll (plan.map fun q => q.1) ++ rest := by
    rw [memoryBits, hbytes, ← hfront]
    rfl
  obtain ⟨r, hr, hf, hru⟩ := readAll_encodeAll plan hp r₀ span L hb hL (by omega) hbits
  exact ⟨r, hr, hf, BitVec.eq_of_toNat_eq (hru.trans hu.symm)⟩

/-- Relaying a message. Whatever bytes a peer sent, what a reader accepted of them can be
written again with the same types and ranges into any buffer of as many bytes; it takes no more
bits, and whoever reads that with the same calls gets the same values. -/
theorem relay_round_trip (e₁ e₂ e₃ : Endian) (r₀ : BitStreamReader) (span : WordSpan)
    (L : SizeType) (hb : (r₀.resetWith span L).fail = false) (hL : L.toNat ≤ gnsMaxMsgRecvSize)
    (calls : List ReadCall) (hc : ∀ call ∈ calls, call.WithinLimits ∧ call.NoWrap)
    (r : BitStreamReader) (dones : List ReadCall)
    (hr : (r₀.resetWith span L).readAll e₁ calls = .ok (r, dones)) (hf : r.fail = false)
    (w₀ : BitStreamWriter) (span₂ : WordSpan) (L₂ : SizeType)
    (hb₂ : (w₀.resetWith span₂ L₂).fail = false) (hL₂ : L₂.toNat ≤ gnsMaxMsgRecvSize)
    (hroom : r.usedBytes.toNat ≤ L₂.toNat) :
    ∃ w₁ w₂, writeAll e₂ (dones.map ReadCall.relay) (w₀.resetWith span₂ L₂) = .ok w₁ ∧
      w₁.fail = false ∧ w₁.flushFinal e₂ = .ok w₂ ∧ w₂.usedBits.toNat ≤ r.usedBits.toNat ∧
      ∀ (m : Nat) (r₀' : BitStreamReader) (span₃ : WordSpan) (L₃ : SizeType),
        wordsFor w₂.usedBits.toNat ≤ m →
        memoryBytes e₃ span₃.words = memoryBytes e₂ (w₂.words.take m) →
        (r₀'.resetWith span₃ L₃).fail = false → L₃.toNat ≤ gnsMaxMsgRecvSize →
        w₂.usedBytes.toNat ≤ L₃.toNat →
        ∃ r₃ dones₃, (r₀'.resetWith span₃ L₃).readAll e₃ calls = .ok (r₃, dones₃) ∧
          r₃.fail = false ∧ dones₃.map ReadCall.relay = dones.map ReadCall.relay := by
  have h23 : 8 * gnsMaxMsgRecvSize = 2 ^ 23 := by decide
  have hsound := BitStreamReader.resetWith_sound (e := e₁) r₀ span L hb
  have ht := total_resetWith r₀ span hL
  obtain ⟨hno, -⟩ | ⟨hdec, ha⟩ := readAll_outcome calls (fun call hcall => (hc call hcall).1) _ hsound
    hb (by omega) hr
  · exact absurd (hno.symm.trans hf) (by simp)
  obtain ⟨plan, hwrites, hreads, hafters, hall, hlen⟩ := relay_plan calls hc hdec
  have hused := ha.used
  rw [length_logicalRest _ (hsound.synced hb)] at hlen
  have hbits : (encodeAll (dones.map ReadCall.relay)).length ≤ r.usedBits.toNat := by
    change _ ≤ r.logicalUsedBits.toNat
    omega
  have hceil := toNat_ceil_bytes r.usedBits (by
    change r.logicalUsedBits.toNat ≤ _
    omega)
  change r.usedBytes.toNat = _ at hceil
  have ht₂ : (8 * L₂).toNat = 8 * L₂.toNat := by
    rw [toNat_eight_mul, Nat.mod_eq_of_lt (by omega)]
  have hfit : AllAccepted (dones.map ReadCall.relay) (w₀.resetWith span₂ L₂) := by
    refine ⟨fun call hcall => ?_, ?_⟩
    · rw [← hwrites] at hcall
      obtain ⟨q, hq, rfl⟩ := List.mem_map.mp hcall
      exact (hall q hq).2.1
    · change 0 + _ ≤ (8 * L₂).toNat
      omega
  obtain ⟨w₁, w₂, hw₁, hf₁, hw₂, hd⟩ := writeAll_fresh (e := e₂) _ w₀ span₂ L₂ hb₂ hfit
  have hu : w₂.usedBits.toNat = (encodeAll (dones.map ReadCall.relay)).length := hd.used
  refine ⟨w₁, w₂, hw₁, hf₁, hw₂, by omega,
    fun m r₀' span₃ L₃ hm hbytes hb₃ hL₃ hused₃ => ?_⟩
  rw [← hwrites] at hd hu
  obtain ⟨r₃, hr₃, hf₃, -⟩ := readAll_flushed hd hall (by rw [hwrites]; omega) hm r₀'
    hbytes hb₃ hL₃ hused₃
  rw [hreads] at hr₃
  exact ⟨r₃, _, hr₃, hf₃, by rw [List.map_map]; exact hafters⟩

/-- A peer that spends 16 bits on the length of "A" is relayed with 8. -/
theorem relay_round_trip_long_prefix :
    ∃ r₃ dones₃, ((default : BitStreamReader).resetWith ⟨false, [0x41012]⟩ 3).readAll .little
        [.int .uint8 ⟨0, by decide⟩ ⟨0, by decide⟩ ⟨3, by decide⟩, .string .char8 [] 9] =
          .ok (r₃, dones₃) ∧ r₃.fail = false ∧
      dones₃.map ReadCall.relay = [.int .uint8 ⟨2, by decide⟩ ⟨0, by decide⟩ ⟨3, by decide⟩,
        .string .char8 [⟨65, by decide⟩]] := by
  obtain ⟨w₁, w₂, hw₁, -, hw₂, -, h⟩ := relay_round_trip .little .big .little default
    ⟨false, [0x4100016]⟩ 4 (by decide) (by decide)
    [.int .uint8 ⟨0, by decide⟩ ⟨0, by decide⟩ ⟨3, by decide⟩, .string .char8 [] 9]
    (by
      intro call hcall
      simp only [List.mem_cons, List.not_mem_nil, or_false] at hcall
      obtain rfl | rfl := hcall
      · exact ⟨trivial, by decide⟩
      · exact ⟨trivial, trivial⟩)
    ⟨0, [0x4100016], 4, 1, 32, 28, false, false⟩
    [.int .uint8 ⟨2, by decide⟩ ⟨0, by decide⟩ ⟨3, by decide⟩, .string .char8 [⟨65, by decide⟩] 9]
    rfl rfl default ⟨false, [0]⟩ 4 (by decide) (by decide) (by decide)
  have hcalls : writeAll .big [.int .uint8 ⟨2, by decide⟩ ⟨0, by decide⟩ ⟨3, by decide⟩,
      .string .char8 [⟨65, by decide⟩]] ((default : BitStreamWriter).resetWith ⟨false, [0]⟩ 4) =
    .ok (BitStreamWriter.mk 0x41012 [0] 20 0 32 20 false false false) := by decide
  obtain rfl := Run.ok_unique hw₁ hcalls
  have hflush : (BitStreamWriter.mk 0x41012 [0] 20 0 32 20 false false false).flushFinal .big =
    .ok (BitStreamWriter.mk 0 [0x12100400] 0 1 32 20 false false true) := by decide
  obtain rfl := Run.ok_unique hw₂ hflush
  exact h 1 default ⟨false, [0x41012]⟩ 3 (by decide) (by decide) (by decide) (by decide) (by decide)

end Nalchi
