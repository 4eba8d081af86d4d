import Nalchi.Framing
import Nalchi.Logical

/-! What reads deliver depends on the bits they step over and on nothing else: not on
what lies behind, nor on where in which words of which host these bits lie. -/
namespace Nalchi
open BitStreamReader Framing

theorem split_local (width : Nat) :
    Local fun bs value rest => Bits.split width bs = some (value, rest) := by
  refine (local_take width fun bs value => Bits.toNat bs = value).of_iff fun bs value rest => ?_
  rw [Bits.split]
  split_ifs with hlt
  · simp only [false_iff]
    omega
  · simp only [Option.some.injEq, Prod.mk.injEq]
    exact ⟨fun h => ⟨by omega, h.1, h.2.symm⟩, fun h => ⟨h.2.1, h.2.2.symm⟩⟩

theorem takeValues_take (t : IntType) (n : Nat) (bs : List Bool) {k : Nat}
    (h : n * fullWidth t ≤ k) : takeValues t n (bs.take k) = takeValues t n bs := by
  induction n generalizing bs k with
  | zero => rfl
  | succ n ih =>
    rw [Nat.succ_mul] at h
    rw [takeValues, takeValues, List.take_take, Nat.min_eq_left (by omega), List.drop_take,
      ih _ (by omega)]

theorem decodeInt_local (t : IntType) (min max : t.Value) :
    Local fun bs x rest => decodeInt t min max bs = .ok (x, rest) := by
  refine ((split_local (bitWidth (max.val - min.val).toNat)).image fun raw x =>
    ¬ max.val ≤ min.val ∧ ¬ max.val < x.val ∧ t.cast (min.val + raw) = x).of_iff
      fun bs x rest => ?_
  rw [decodeInt]
  split_ifs with hr
  · simp [hr]
  cases hsplit : Bits.split (bitWidth (max.val - min.val).toNat) bs with
  | none => simp
  | some p =>
    obtain ⟨raw, mid⟩ := p
    simp only [Option.some.injEq, Prod.mk.injEq]
    constructor
    · intro h
      split_ifs at h with hx
      obtain ⟨rfl, rfl⟩ := Prod.mk.inj (Except.ok.inj h)
      exact ⟨raw, ⟨rfl, rfl⟩, hr, hx, rfl⟩
    · rintro ⟨_, ⟨rfl, rfl⟩, -, hx, rfl⟩
      rw [if_neg hx]

theorem decodeLength_local : Local fun bs raw rest => decodeLength bs = .ok (raw, rest) := by
  refine ((split_local 2).seq fun kind => split_local (lengthWidth kind)).of_iff
    fun bs raw rest => ?_
  rw [decodeLength]
  cases hkind : Bits.split 2 bs with
  | none => simp
  | some p =>
    obtain ⟨kind, mid⟩ := p
    cases hlen : Bits.split (lengthWidth kind) mid <;> simp [hlen]

/-- The characters take what their number says. -/
theorem decodeChars_local (c : CharType) (maxLength : SizeType) (len : Int) :
    Local fun bs str rest => decodeChars c maxLength len bs = some (str, rest) := by
  have h := local_take (8 * (len.toNat * c.size)) fun bs str =>
    ¬ (len < 0 ∨ maxLength.toNat < len.toNat) ∧ takeValues c.intType len.toNat bs = str
  refine h.of_iff fun bs str rest => ?_
  rw [decodeChars, takeValues_take _ _ _ (mul_fullWidth c _).le]
  split_ifs with hbad
  · simp only [false_iff]
    omega
  · simp only [Option.some.injEq, Prod.mk.injEq]
    exact ⟨fun h => ⟨by omega, ⟨by omega, h.1⟩, h.2.symm⟩, fun h => ⟨h.2.1.2, h.2.2.symm⟩⟩

theorem decodeString_local (c : CharType) (maxLength : SizeType) :
    Local fun bs str rest => decodeString c maxLength bs = .ok (str, rest) := by
  refine (decodeLength_local.seq fun raw =>
    decodeChars_local c maxLength (castSsize raw)).of_iff fun bs str rest => ?_
  rw [decodeString]
  cases hlen : decodeLength bs with
  | error n => simp
  | ok p =>
    obtain ⟨raw, mid⟩ := p
    cases hchars : decodeChars c maxLength (castSsize raw) mid <;> simp [hchars]

theorem ReadCall.decode_local (call : ReadCall) :
    Local fun bs done rest => call.decode bs = .ok (done, rest) := by
  cases call with
  | int t data min max =>
    refine ((decodeInt_local t min max).image fun x done => .int t x min max = done).of_iff
      fun bs done rest => ?_
    rcases hdec : decodeInt t min max bs with _ | ⟨x, mid⟩ <;>
      simp [ReadCall.decode, hdec, Except.map, and_comm]
  | float data =>
    refine ((split_local 32).image fun raw done => .float (BitVec.ofNat 32 raw) = done).of_iff
      fun bs done rest => ?_
    rcases hsplit : Bits.split 32 bs with _ | ⟨raw, mid⟩ <;>
      simp [ReadCall.decode, hsplit, and_comm]
  | double data =>
    refine ((split_local 64).image fun raw done => .double (BitVec.ofNat 64 raw) = done).of_iff
      fun bs done rest => ?_
    rcases hsplit : Bits.split 64 bs with _ | ⟨raw, mid⟩ <;>
      simp [ReadCall.decode, hsplit, and_comm]
  | block data size =>
    refine (local_take (8 * size.toNat) fun bs done =>
      .block (overlay data (takeValues .uint8 size.toNat bs)) size = done).of_iff
        fun bs done rest => ?_
    have h8 : fullWidth .uint8 = 8 := by decide
    rw [takeValues_take _ _ _ (by rw [h8, Nat.mul_comm])]
    simp only [ReadCall.decode]
    split_ifs with hlt
    · simp only [false_iff]
      omega
    · simp only [Except.ok.injEq, Prod.mk.injEq]
      exact ⟨fun h => ⟨by omega, h.1, h.2.symm⟩, fun h => ⟨h.2.1, h.2.2.symm⟩⟩
  | string c str maxLength =>
    refine ((decodeString_local c maxLength).image fun str done =>
      .string c str maxLength = done).of_iff fun bs done rest => ?_
    rcases hdec : decodeString c maxLength bs with _ | ⟨str, mid⟩ <;>
      simp [ReadCall.decode, hdec, Except.map, and_comm]
  | cstring c mem maxLength =>
    refine ((decodeString_local c maxLength).image fun str done =>
      .cstring c (overlay mem (str ++ [c.intType.cast 0])) maxLength = done).of_iff
        fun bs done rest => ?_
    rcases hdec : decodeString c maxLength bs with _ | ⟨str, mid⟩ <;>
      simp [ReadCall.decode, hdec, Except.map, and_comm]

theorem decodeAll_local (calls : List ReadCall) :
    Local fun bs dones rest => decodeAll calls bs = .ok (dones, rest) := by
  induction calls with
  | nil =>
    refine (local_take 0 fun _ dones => [] = dones).of_iff fun bs dones rest => ?_
    simp [decodeAll, eq_comm]
  | cons call calls ih =>
    refine (call.decode_local.seq fun done => ih.image fun dones all => done :: dones = all).of_iff
      fun bs dones rest => ?_
    rw [decodeAll]
    rcases hdec : call.decode bs with _ | ⟨done, mid⟩
    · simp
    · rcases hrest : decodeAll calls mid with _ | ⟨dones', rest'⟩ <;> simp [hrest, and_comm]

/-- Two readers at the same bits: what one reads without failing the other reads too. -/
theorem readAll_alike {e e' : Endian} (calls : List ReadCall)
    (hc : ∀ call ∈ calls, call.WithinLimits) {r r' s : BitStreamReader} (h : r.Sound e)
    (h' : r'.Sound e') (hf : r.fail = false) (hf' : r'.fail = false)
    (ht : r.logicalTotalBits.toNat ≤ 8 * gnsMaxMsgRecvSize)
    (ht' : r'.logicalTotalBits.toNat ≤ 8 * gnsMaxMsgRecvSize) {dones : List ReadCall}
    (hs : r.readAll e calls = .ok (s, dones)) (hsf : s.fail = false) {k : Nat}
    (hk : s.usedBits.toNat ≤ r.usedBits.toNat + k)
    (hsame : (r'.logicalRest e').take k = (r.logicalRest e).take k) :
    ∃ s', r'.readAll e' calls = .ok (s', dones) ∧ s'.fail = false ∧
      s'.usedBits.toNat + r.usedBits.toNat = s.usedBits.toNat + r'.usedBits.toNat := by
  obtain ⟨hno, -⟩ | ⟨hdec, ha⟩ := readAll_outcome calls hc r h hf ht hs
  · exact absurd (hsf.symm.trans hno) (by simp)
  have hlen : (r.logicalRest e).length = r.logicalTotalBits.toNat - r.usedBits.toNat :=
    length_logicalRest r (h.synced hf)
  have hused : s.usedBits.toNat + (s.logicalRest e).length = r.logicalTotalBits.toNat := ha.used
  obtain ⟨rest', hdec', hcount⟩ := (decodeAll_local calls).alike hdec (by omega) hsame
  have href := readAll_refines calls hc r' h' hf' ht'
  rw [hdec'] at href
  obtain ⟨s', hs', ha'⟩ := href
  have hlen' : (r'.logicalRest e').length = r'.logicalTotalBits.toNat - r'.usedBits.toNat :=
    length_logicalRest r' (h'.synced hf')
  have hused' : s'.usedBits.toNat + rest'.length = r'.logicalTotalBits.toNat := ha'.used
  have hle : r.usedBits.toNat ≤ r.logicalTotalBits.toNat := (h.synced hf).used_le
  have hle' : r'.usedBits.toNat ≤ r'.logicalTotalBits.toNat := (h'.synced hf').used_le
  exact ⟨s', hs', ha'.fail.trans hf', by omega⟩

theorem Reading.step_bits (op : ReaderOp) (q : Reading) : (q.step op).bits = q.bits := by
  cases op with
  | read call =>
    rw [Reading.step, Reading.read]
    split_ifs
    · rfl
    · cases call.decode q.rest <;> rfl
  | peekStringLength =>
    rw [Reading.step, Reading.peek]
    split_ifs
    · rfl
    · cases decodeLength q.rest <;> rfl
  | setFail => rfl
  | restart => rfl

theorem Reading.run_bits (ops : List ReaderOp) (q : Reading) : (q.run ops).bits = q.bits := by
  induction ops generalizing q with
  | nil => rfl
  | cons op ops ih => exact (ih (q.step op)).trans (q.step_bits op)

/-- What reads deliver is in the bits they step over. Let two readers, after any histories, have
the same `k` bits next, wherever in which words of which hosts these lie and whatever follows
them. What one reads out of these bits without failing the other reads as well, with the same
in every destination, and it steps over as many bits. -/
theorem reads_are_local (e e' : Endian) (r₀ r₀' : BitStreamReader) (span span' : WordSpan)
    (L L' : SizeType) (hb : (r₀.resetWith span L).fail = false)
    (hb' : (r₀'.resetWith span' L').fail = false) (hL : L.toNat ≤ gnsMaxMsgRecvSize)
    (hL' : L'.toNat ≤ gnsMaxMsgRecvSize) (ops ops' : List ReaderOp)
    (hops : ∀ op ∈ ops, op.WithinLimits) (hops' : ∀ op ∈ ops', op.WithinLimits) :
    ∃ r r', runOps e ops (r₀.resetWith span L) = .ok r ∧
      runOps e' ops' (r₀'.resetWith span' L') = .ok r' ∧
      (r.fail = false → r'.fail = false → ∀ k : Nat,
        (((memoryBits e' span'.words).take (8 * L'.toNat)).drop r'.usedBits.toNat).take k =
          (((memoryBits e span.words).take (8 * L.toNat)).drop r.usedBits.toNat).take k →
        ∀ calls : List ReadCall, (∀ call ∈ calls, call.WithinLimits) → ∀ s dones,
          r.readAll e calls = .ok (s, dones) → s.fail = false →
          s.usedBits.toNat ≤ r.usedBits.toNat + k →
          ∃ s', r'.readAll e' calls = .ok (s', dones) ∧ s'.fail = false ∧
            s'.usedBits.toNat + r.usedBits.toNat = s.usedBits.toNat + r'.usedBits.toNat) := by
  obtain ⟨r, hr, h⟩ := reader_holds (e := e) r₀ span L hb hL ops hops
  obtain ⟨r', hr', h'⟩ := reader_holds (e := e') r₀' span' L' hb' hL' ops' hops'
  refine ⟨r, r', hr, hr', fun hf hf' k hsame calls hc s dones hs hsf hk => ?_⟩
  refine readAll_alike calls hc h.sound h'.sound hf hf' h.limit h'.limit hs hsf hk ?_
  rw [h.rest, h'.rest, Reading.rest, Reading.rest, Reading.run_bits, Reading.run_bits, ← h.used,
    ← h'.used]
  exact hsame

/-- A string behind a flag on one host, and at the front of a longer message on the other. -/
theorem reads_are_local_shifted :
    ∃ s', ((default : BitStreamReader).resetWith ⟨false, [0x040401ff]⟩ 4).readAll .big
        [.string .char8 [] 9] = .ok (s', [.string .char8 [⟨65, by decide⟩] 9]) ∧
      s'.fail = false ∧ s'.usedBits.toNat + 1 = 19 := by
  obtain ⟨r, r', hr, hr', h⟩ := reads_are_local .little .big default default ⟨false, [0x20809]⟩
    ⟨false, [0x040401ff]⟩ 3 4 (by decide) (by decide) (by decide) (by decide)
    [.read (.int .bool ⟨0, by decide⟩ ⟨0, by decide⟩ ⟨1, by decide⟩)] [] (by decide) (by decide)
  have hrun : runOps .little [.read (.int .bool ⟨0, by decide⟩ ⟨0, by decide⟩ ⟨1, by decide⟩)]
      ((default : BitStreamReader).resetWith ⟨false, [0x20809]⟩ 3) =
    .ok (BitStreamReader.mk 0x10404 [0x20809] 31 1 24 1 false false) := by decide
  obtain rfl := Run.ok_unique hr hrun
  obtain rfl := Except.ok.inj hr'
  obtain ⟨s', hs', hf, hused⟩ := h rfl rfl 18 (by decide) [.string .char8 [] 9] (by decide) _ _ rfl
    (by decide) (by decide)
  exact ⟨s', hs', hf, hused⟩

end Nalchi
