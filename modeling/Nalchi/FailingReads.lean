import Nalchi.ReaderRuns
import Nalchi.Serializing

/-! What a failing read leaves behind. Only a string read that fails behind its
prefix moves the cursor. -/
namespace Nalchi
open BitStreamReader

def ReadCall.WithinLimits : ReadCall → Prop
  | .block _ size => size.toNat ≤ gnsMaxMsgRecvSize
  | _ => True

instance ReadCall.decidableWithinLimits : DecidablePred ReadCall.WithinLimits
  | .block _ size => Nat.decLe size.toNat gnsMaxMsgRecvSize
  | .int _ _ _ _ | .float _ | .double _ | .string _ _ _ | .cstring _ _ _ => .isTrue trivial

def ReaderOp.WithinLimits : ReaderOp → Prop
  | .read call => call.WithinLimits
  | _ => True

instance ReaderOp.decidableWithinLimits : DecidablePred ReaderOp.WithinLimits
  | .read call => ReadCall.decidableWithinLimits call
  | .peekStringLength | .setFail | .restart => .isTrue trivial

variable {e : Endian}

theorem sumSound_of_lt (r : BitStreamReader) (n : Nat)
    (h : r.logicalUsedBits.toNat + n < 2 ^ 32) : r.SumSound n := by
  intro hle
  rwa [Nat.mod_eq_of_lt h] at hle

/-- Within the limits no sum comes near the width of `size_type`. -/
theorem sumSound_of_limit (r : BitStreamReader)
    (hu : r.logicalUsedBits.toNat ≤ r.logicalTotalBits.toNat)
    (ht : r.logicalTotalBits.toNat ≤ 8 * gnsMaxMsgRecvSize) {n : Nat}
    (hn : n ≤ 8 * gnsMaxMsgRecvSize) : r.SumSound n := by
  have hlimit : 8 * gnsMaxMsgRecvSize = 2 ^ 23 := by decide
  exact sumSound_of_lt r n (by omega)

theorem sumSound_rangeBits (r : BitStreamReader)
    (hu : r.logicalUsedBits.toNat ≤ r.logicalTotalBits.toNat)
    (ht : r.logicalTotalBits.toNat ≤ 8 * gnsMaxMsgRecvSize) (t : IntType) (min max : t.Value) :
    r.SumSound (t.rangeBits min max) :=
  sumSound_of_limit r hu ht
    (((t.rangeBits_le min max).trans t.bits_le).trans (by decide))

/-- The check of a checked read, within the limits. -/
theorem field_lack_iff (r : BitStreamReader) (h : r.Synced e)
    (ht : r.logicalTotalBits.toNat ≤ 8 * gnsMaxMsgRecvSize) (t : IntType) (min max : t.Value) :
    r.logicalTotalBits < r.logicalUsedBits + BitVec.ofNat 32 (t.rangeBits min max) ↔
      (r.logicalRest e).length < t.rangeBits min max :=
  lack_iff r h (BitVec.toNat_ofNat _ 32) (sumSound_rangeBits r h.used_le ht t min max)

theorem lengthSound_of_limit (r : BitStreamReader) (h : r.Sound e)
    (ht : r.logicalTotalBits.toNat ≤ 8 * gnsMaxMsgRecvSize) : r.LengthSound e := by
  intro _
  have hlimit : 2 + 64 ≤ 8 * gnsMaxMsgRecvSize := by decide
  have hkind := toNat_take_lt 2 (r.logicalRest e)
  have hw : lengthWidth (Bits.toNat ((r.logicalRest e).take 2)) ≤ 64 := by
    generalize Bits.toNat ((r.logicalRest e).take 2) = kind at hkind
    interval_cases kind <;> decide
  exact sumSound_of_limit r h.used_le ht (by omega)

/-- A length that goes for one leaves the stream in step behind it. -/
theorem readStringLength_spec (r : BitStreamReader) (h : r.Sound e) (hf : r.fail = false)
    (ht : r.logicalTotalBits.toNat ≤ 8 * gnsMaxMsgRecvSize) :
    ∃ rp len, r.readStringLength e = .ok (rp, len) ∧ len < 2 ^ 31 ∧
      (0 ≤ len → rp.Synced e ∧ rp.fail = false) := by
  have href := readStringLength_refines r (h.synced hf) hf (lengthSound_of_limit r h ht)
  cases hdec : decodeLength (r.logicalRest e) with
  | ok p =>
    rw [hdec] at href
    obtain ⟨rp, hrp, ha⟩ := href
    exact ⟨rp, _, hrp, castSsize_lt _, fun _ => ⟨ha.synced, ha.fail.trans hf⟩⟩
  | error n =>
    rw [hdec] at href
    obtain ⟨rp, hrp, -⟩ := href
    exact ⟨rp, _, hrp, by omega, fun hn => absurd hn (by omega)⟩

/-- Within the limits every check is sound. -/
theorem ReadCall.checkSound_of_withinLimits (call : ReadCall) (r : BitStreamReader)
    (h : r.Sound e) (ht : r.logicalTotalBits.toNat ≤ 8 * gnsMaxMsgRecvSize)
    (hc : call.WithinLimits) : call.CheckSound e r := by
  intro _
  cases call with
  | int t data min max => exact fun _ => sumSound_rangeBits r h.used_le ht t min max
  | float data => exact sumSound_of_limit r h.used_le ht (by decide)
  | double data => exact sumSound_of_limit r h.used_le ht (by decide)
  | block data size => exact sumSound_of_limit r h.used_le ht (Nat.mul_le_mul_left 8 hc)
  | string c str maxLength => exact lengthSound_of_limit r h ht
  | cstring c mem maxLength => exact lengthSound_of_limit r h ht

theorem BitStreamReader.total_resetWith (r : BitStreamReader) (span : WordSpan) {L : SizeType}
    (hL : L.toNat ≤ gnsMaxMsgRecvSize) :
    (r.resetWith span L).logicalTotalBits.toNat = 8 * L.toNat := by
  have hlimit : 8 * gnsMaxMsgRecvSize = 2 ^ 23 := by decide
  have h8 := toNat_eight_mul L
  rwa [Nat.mod_eq_of_lt (by omega)] at h8

/-- What holds of a bound reader that is used within the limits. -/
theorem ReaderOp.exec_withinLimits (op : ReaderOp) (hop : op.WithinLimits) (r : BitStreamReader)
    (h : r.Sound e ∧ r.logicalTotalBits.toNat ≤ 8 * gnsMaxMsgRecvSize) :
    ∃ r', op.exec e r = .ok r' ∧ r'.Sound e ∧ r'.logicalTotalBits.toNat ≤ 8 * gnsMaxMsgRecvSize := by
  have hcheck : op.CheckSound e r := by
    cases op with
    | read call => exact call.checkSound_of_withinLimits r h.1 h.2 hop
    | peekStringLength => exact fun _ => lengthSound_of_limit r h.1 h.2
    | setFail => trivial
    | restart => trivial
  obtain ⟨r', hr', hsound⟩ := op.exec_sound r h.1 hcheck
  have hkeep := runOps_follows [op] (by rw [runOps, Run.run_singleton, hr']) h.1.windowed
  exact ⟨r', hr', hsound, by rw [hkeep.2.2.1]; exact h.2⟩

/-- Within the limits every history goes through. -/
theorem runOps_ok {r₀ : BitStreamReader} {span : WordSpan} {L : SizeType}
    (hb : (r₀.resetWith span L).fail = false) (hL : L.toNat ≤ gnsMaxMsgRecvSize)
    {ops : List ReaderOp} (hops : ∀ op ∈ ops, op.WithinLimits) :
    ∃ r, runOps e ops (r₀.resetWith span L) = .ok r ∧ r.Sound e ∧
      r.logicalTotalBits.toNat ≤ 8 * gnsMaxMsgRecvSize := by
  refine Run.run_ok (P := fun op _ => op.WithinLimits) ops
    (fun op r hr hop => op.exec_withinLimits hop r hr)
    ⟨BitStreamReader.resetWith_sound r₀ span L hb, by rw [total_resetWith r₀ span hL]; omega⟩
    (Run.along_of_forall ops (fun op hop _ => hops op hop) _)

/-- The bits at the cursor are a string the read goes through with: a length the
reader allows and its characters, all before the logical end. -/
def StringAt (c : CharType) (maxLength : SizeType) (bs : List Bool) : Prop :=
  let width := lengthWidth (Bits.toNat (bs.take 2))
  let len := castSsize (Bits.toNat ((bs.drop 2).take width) : Nat)
  2 + width ≤ bs.length ∧ 0 ≤ len ∧ len.toNat ≤ maxLength.toNat ∧
    2 + width + 8 * (len.toNat * c.size) ≤ bs.length

/-- The reads that do not lose their position by failing. -/
def ReadCall.KeepsPosition (call : ReadCall) (bs : List Bool) : Prop :=
  match call with
  | .string c _ maxLength | .cstring c _ maxLength => bs.length < 2 ∨ StringAt c maxLength bs
  | _ => True

theorem decodeString_short (c : CharType) (maxLength : SizeType) (bs : List Bool)
    (h : bs.length < 2) : decodeString c maxLength bs = .error 0 := by
  rw [decodeString, decodeLength, Bits.split_of_lt h]

/-- Behind its prefix a string read goes through, or it stops there or later. -/
theorem decodeString_long (c : CharType) (maxLength : SizeType) (bs : List Bool)
    (h : 2 ≤ bs.length) : (StringAt c maxLength bs ∧ ∃ p, decodeString c maxLength bs = .ok p) ∨
      (¬ StringAt c maxLength bs ∧ ∃ n, 2 ≤ n ∧ decodeString c maxLength bs = .error n) := by
  rw [StringAt]
  generalize hwidth : lengthWidth (Bits.toNat (bs.take 2)) = width
  by_cases hshort : (bs.drop 2).length < width
  · have hlength : decodeLength bs = .error 2 := by
      rw [decodeLength, Bits.split_of_le h]
      dsimp only
      rw [hwidth, Bits.split_of_lt hshort]
    rw [List.length_drop] at hshort
    exact .inr ⟨by rintro ⟨h1, -⟩; omega, 2, le_refl 2, by rw [decodeString, hlength]⟩
  have hlength : decodeLength bs =
      .ok (Bits.toNat ((bs.drop 2).take width), (bs.drop 2).drop width) := by
    rw [decodeLength, Bits.split_of_le h]
    dsimp only
    rw [hwidth, Bits.split_of_le (by omega)]
  rw [List.length_drop] at hshort
  obtain ⟨len, hlen⟩ : ∃ len, castSsize (Bits.toNat ((bs.drop 2).take width) : Nat) = len := ⟨_, rfl⟩
  have hrest : ((bs.drop 2).drop width).length = bs.length - 2 - width := by
    rw [List.length_drop, List.length_drop]
  have hstring := decodeString_of_length hlength hlen c maxLength
  rw [decodeChars, hrest] at hstring
  rw [hlen]
  by_cases hbad : len < 0 ∨ maxLength.toNat < len.toNat ∨
      bs.length - 2 - width < 8 * (len.toNat * c.size)
  · rw [if_pos hbad] at hstring
    exact .inr ⟨by rintro ⟨h1, h2, h3, h4⟩; omega, _, by omega, hstring⟩
  · rw [if_neg hbad] at hstring
    exact .inl ⟨by omega, _, hstring⟩

theorem map_decodeString_position {α : Type} (c : CharType) (maxLength : SizeType) (bs : List Bool)
    (f : List c.Value × List Bool → α) :
    ((bs.length < 2 ∨ StringAt c maxLength bs) ∧
      ∀ n, (decodeString c maxLength bs).map f = .error n → n = 0) ∨
    (¬ (bs.length < 2 ∨ StringAt c maxLength bs) ∧
      ∃ n, 2 ≤ n ∧ (decodeString c maxLength bs).map f = .error n) := by
  by_cases hlen : bs.length < 2
  · refine .inl ⟨.inl hlen, fun n hn => ?_⟩
    rw [decodeString_short c maxLength bs hlen] at hn
    exact (Except.error.inj hn).symm
  · obtain ⟨hs, p, hp⟩ | ⟨hs, n, hn, hp⟩ := decodeString_long c maxLength bs (by omega)
    · refine .inl ⟨.inr hs, fun n hn => ?_⟩
      rw [hp] at hn
      cases hn
    · exact .inr ⟨by tauto, n, hn, by rw [hp]; rfl⟩

/-- Whether a read can fail away from where it began. -/
theorem ReadCall.decode_position (call : ReadCall) (bs : List Bool) :
    (call.KeepsPosition bs ∧ ∀ n, call.decode bs = .error n → n = 0) ∨
      (¬ call.KeepsPosition bs ∧ ∃ n, 2 ≤ n ∧ call.decode bs = .error n) := by
  cases call with
  | int t data min max =>
    refine .inl ⟨trivial, fun n hn => ?_⟩
    simp only [ReadCall.decode, decodeInt] at hn
    split_ifs at hn with h1
    · exact (Except.error.inj hn).symm
    · cases hsplit : Bits.split (bitWidth (max.val - min.val).toNat) bs with
      | none =>
        rw [hsplit] at hn
        exact (Except.error.inj hn).symm
      | some p =>
        rw [hsplit] at hn
        dsimp only at hn
        split_ifs at hn
        · exact (Except.error.inj hn).symm
        · cases hn
  | float data =>
    refine .inl ⟨trivial, fun n hn => ?_⟩
    simp only [ReadCall.decode] at hn
    cases hsplit : Bits.split 32 bs with
    | none =>
      rw [hsplit] at hn
      exact (Except.error.inj hn).symm
    | some p =>
      rw [hsplit] at hn
      cases hn
  | double data =>
    refine .inl ⟨trivial, fun n hn => ?_⟩
    simp only [ReadCall.decode] at hn
    cases hsplit : Bits.split 64 bs with
    | none =>
      rw [hsplit] at hn
      exact (Except.error.inj hn).symm
    | some p =>
      rw [hsplit] at hn
      cases hn
  | block data size =>
    refine .inl ⟨trivial, fun n hn => ?_⟩
    simp only [ReadCall.decode] at hn
    split_ifs at hn
    exact (Except.error.inj hn).symm
  | string c str maxLength => exact map_decodeString_position c maxLength bs _
  | cstring c mem maxLength => exact map_decodeString_position c maxLength bs _

/-- Reads and peeks, all a failed stream is asked to ignore. -/
def ReaderOp.Reads : ReaderOp → Prop
  | .read _ | .peekStringLength => True
  | _ => False

theorem runOps_of_fail (ops : List ReaderOp) (hops : ∀ op ∈ ops, op.Reads) (r : BitStreamReader)
    (hf : r.fail = true) : runOps e ops r = .ok r := by
  induction ops with
  | nil => rfl
  | cons op ops ih =>
    have hop : op.exec e r = .ok r := by
      cases op with
      | read call => rw [ReaderOp.exec, call.exec_of_fail r hf]; rfl
      | peekStringLength => rw [ReaderOp.exec, peekStringLength_of_fail r hf]; rfl
      | setFail => exact False.elim (hops .setFail (by simp))
      | restart => exact False.elim (hops .restart (by simp))
    rw [runOps, Run.run, hop, Run.bind_ok]
    exact ih fun op hop => hops op (by simp [hop])

/-- A stream that could not be bound stays failed. -/
theorem fail_of_initFail {r₀ r : BitStreamReader} {span : WordSpan} {L : SizeType}
    (hb : (r₀.resetWith span L).fail = true) {ops : List ReaderOp}
    (hr : runOps e ops (r₀.resetWith span L) = .ok r) : r.fail = true := by
  refine (Run.run_invariant (I := fun r => r.initFail = true ∧ r.fail = true) ops
    (fun op _ s s' hs hstep => ?_) ⟨hb, hb⟩ hr).2
  cases op with
  | read call =>
    rw [ReaderOp.exec, call.exec_of_fail s hs.2] at hstep
    rwa [← Except.ok.inj hstep]
  | peekStringLength =>
    rw [ReaderOp.exec, peekStringLength_of_fail s hs.2] at hstep
    rwa [← Except.ok.inj hstep]
  | setFail => rw [← Except.ok.inj hstep]; exact ⟨hs.1, rfl⟩
  | restart => rw [← Except.ok.inj hstep]; exact ⟨hs.1, hs.1⟩

/-- A state reached within the limits, with nothing failed. -/
theorem reachable_sound {r₀ r : BitStreamReader} {span : WordSpan} {L : SizeType}
    (hL : L.toNat ≤ gnsMaxMsgRecvSize) {ops : List ReaderOp} (hops : ∀ op ∈ ops, op.WithinLimits)
    (hr : runOps e ops (r₀.resetWith span L) = .ok r) (hf : r.fail = false) :
    r.Sound e ∧ r.logicalTotalBits.toNat ≤ 8 * gnsMaxMsgRecvSize := by
  have hb : (r₀.resetWith span L).fail = false := by
    by_contra hno
    exact absurd (hf.symm.trans (fail_of_initFail (by simpa using hno) hr)) (by simp)
  obtain ⟨r', hr', hs⟩ := runOps_ok (e := e) hb hL hops
  obtain rfl := Run.ok_unique hr' hr
  exact hs

/-- A failing read reads nothing exactly when the stream had failed already, or the
call is not a string read that loses its position. -/
theorem failing_read_reads_nothing_iff (e : Endian) (r₀ : BitStreamReader) (span : WordSpan)
    (L : SizeType) (hL : L.toNat ≤ gnsMaxMsgRecvSize) (ops : List ReaderOp)
    (hops : ∀ op ∈ ops, op.WithinLimits) (r : BitStreamReader)
    (hr : runOps e ops (r₀.resetWith span L) = .ok r) (call : ReadCall) (hc : call.WithinLimits) :
    ∃ r' after, call.exec e r = .ok (r', after) ∧
      (((r'.fail = true → r'.usedBits = r.usedBits ∧ r'.unusedBits = r.unusedBits ∧ after = call) ∧
        (r'.fail = true → ∀ ops, (∀ op ∈ ops, op.Reads) → runOps e ops r' = .ok r')) ↔
      r.fail = true ∨ call.KeepsPosition (r.logicalRest e)) := by
  have hnoop (r' : BitStreamReader) (hf : r'.fail = true) (ops : List ReaderOp)
      (hops : ∀ op ∈ ops, op.Reads) : runOps e ops r' = .ok r' := runOps_of_fail ops hops r' hf
  by_cases hf : r.fail = true
  · exact ⟨r, call, call.exec_of_fail r hf,
      iff_of_true ⟨fun _ => ⟨rfl, rfl, rfl⟩, hnoop r⟩ (.inl hf)⟩
  have hf' : r.fail = false := by simpa using hf
  obtain ⟨hsound, ht⟩ := reachable_sound hL hops hr hf'
  have href := call.exec_refines r (hsound.synced hf') hf'
    (call.checkSound_of_withinLimits r hsound ht hc)
  have hpos := call.decode_position (r.logicalRest e)
  cases hdec : call.decode (r.logicalRest e) with
  | ok p =>
    rw [hdec] at href hpos
    obtain ⟨r', hr', ha⟩ := href
    have hk : call.KeepsPosition (r.logicalRest e) := by
      obtain ⟨hk, -⟩ | ⟨-, n, -, hn⟩ := hpos
      · exact hk
      · cases hn
    have hf₁ : r'.fail ≠ true := by simp [ha.fail, hf']
    exact ⟨r', p.1, hr', iff_of_true ⟨fun h => absurd h hf₁, hnoop r'⟩ (.inr hk)⟩
  | error n =>
    rw [hdec] at href hpos
    obtain ⟨r', hr', hstop⟩ := href
    refine ⟨r', call, hr', ?_⟩
    obtain ⟨hk, hzero⟩ | ⟨hk, m, hm, heq⟩ := hpos
    · have hused : r'.usedBits = r.usedBits := by
        apply BitVec.eq_of_toNat_eq
        have hu := hstop.used
        rwa [hzero n rfl] at hu
      refine iff_of_true ⟨fun _ => ⟨hused, ?_, rfl⟩, hnoop r'⟩ (.inr hk)
      rw [unusedBits, unusedBits, hused, totalBits, totalBits, hstop.total]
    · obtain rfl := Except.error.inj heq
      refine iff_of_false (fun h => ?_) (by tauto)
      have hu := hstop.used
      have hsame := congrArg BitVec.toNat (h.1 hstop.fail).1
      simp only [usedBits] at hsame
      omega

/-- A number above its maximum is not consumed, although its bits were fetched. -/
theorem failing_read_reads_nothing_int :
    ∃ r' after, ReadCall.exec .little (.int .uint8 ⟨5, by decide⟩ ⟨0, by decide⟩ ⟨9, by decide⟩)
        ((default : BitStreamReader).resetWith ⟨false, [0xf]⟩ 4) = .ok (r', after) ∧
      r'.fail = true ∧ r'.usedBits = 0 ∧ r'.unusedBits = 32 ∧
      after = .int .uint8 ⟨5, by decide⟩ ⟨0, by decide⟩ ⟨9, by decide⟩ := by
  obtain ⟨r', after, hr', hiff⟩ := failing_read_reads_nothing_iff .little default ⟨false, [0xf]⟩ 4
    (by decide) [] (by simp) _ rfl (.int .uint8 ⟨5, by decide⟩ ⟨0, by decide⟩ ⟨9, by decide⟩) trivial
  have hread : ReadCall.exec .little (.int .uint8 ⟨5, by decide⟩ ⟨0, by decide⟩ ⟨9, by decide⟩)
      ((default : BitStreamReader).resetWith ⟨false, [0xf]⟩ 4) =
    .ok (BitStreamReader.mk 0 [0xf] 28 1 32 0 false true,
      .int .uint8 ⟨5, by decide⟩ ⟨0, by decide⟩ ⟨9, by decide⟩) := rfl
  obtain ⟨rfl, rfl⟩ := Run.ok_unique_pair hr' hread
  obtain ⟨hused, hunused, hafter⟩ := (hiff.mpr (.inr trivial)).1 rfl
  exact ⟨_, _, hr', rfl, hused, hunused, hafter⟩

/-- "ABC" where two characters are allowed: ten bits are gone when that is noticed. -/
theorem long_string_moves_cursor :
    ∃ r' after, ReadCall.exec .little (.string .char8 [] 2)
        ((default : BitStreamReader).resetWith ⟨false, [0x0d09040c, 1]⟩ 8) = .ok (r', after) ∧
      r'.fail = true ∧ r'.usedBits = 10 :=
  ⟨_, _, rfl, by decide, by decide⟩

end Nalchi
