import Nalchi.CursorRefinement

/-! The length prefix of a string: when reading and peeking it are exact, and that
peeking it leaves no trace but the fail flag. -/
namespace Nalchi
open BitStreamReader

variable {e : Endian}

/-- The 2-bit prefix of the length prefix at the cursor. -/
def kindAt (e : Endian) (r : BitStreamReader) : Nat :=
  fieldAt (memoryBits e r.words) r.usedBits.toNat 2

/-- The length stored behind it, in as many bits as it says. -/
def lengthAt (e : Endian) (r : BitStreamReader) : Nat :=
  fieldAt (memoryBits e r.words) (r.usedBits.toNat + 2) (lengthWidth (kindAt e r))

/-- Both lie before the logical end. -/
def PrefixInside (e : Endian) (r : BitStreamReader) : Prop :=
  r.usedBits.toNat + 2 + lengthWidth (kindAt e r) ≤ r.totalBits.toNat

instance decidablePrefixInside (e : Endian) (r : BitStreamReader) : Decidable (PrefixInside e r) :=
  Nat.decLe _ _

/-- A field some way behind the cursor. -/
theorem toNat_drop_logicalRest (r : BitStreamReader) (h : r.Synced e) (a b : Nat)
    (hb : a + b ≤ (r.logicalRest e).length) : Bits.toNat (((r.logicalRest e).drop a).take b) =
      fieldAt (memoryBits e r.words) (r.usedBits.toNat + a) b := by
  have hle := h.used_le
  rw [length_logicalRest r h] at hb
  rw [fieldAt, logicalRest, List.drop_drop, List.drop_take, List.take_take, Nat.min_eq_left (by omega)]
  rfl

/-- The decoder of the prefix, told by what lies at the cursor. -/
theorem decodeLength_at (r : BitStreamReader) (h : r.Synced e) :
    if PrefixInside e r then decodeLength (r.logicalRest e) =
      .ok (lengthAt e r, (r.logicalRest e).drop (2 + lengthWidth (kindAt e r)))
    else ∃ n, decodeLength (r.logicalRest e) = .error n := by
  have hle := h.used_le
  have hl := length_logicalRest r h
  have hu : r.usedBits.toNat = r.logicalUsedBits.toNat := rfl
  have ht : r.totalBits.toNat = r.logicalTotalBits.toNat := rfl
  have hiff : PrefixInside e r ↔
      r.usedBits.toNat + 2 + lengthWidth (kindAt e r) ≤ r.totalBits.toNat := Iff.rfl
  rw [decodeLength]
  by_cases hshort : (r.logicalRest e).length < 2
  · rw [if_neg (by rw [hiff]; omega), Bits.split_of_lt hshort]
    exact ⟨0, rfl⟩
  have hkind : Bits.toNat ((r.logicalRest e).take 2) = kindAt e r :=
    toNat_take_logicalRest r h 2 (by omega)
  rw [Bits.split_of_le (by omega)]
  dsimp only
  rw [hkind]
  by_cases hlack : ((r.logicalRest e).drop 2).length < lengthWidth (kindAt e r)
  · rw [Bits.split_of_lt hlack]
    rw [List.length_drop] at hlack
    rw [if_neg (by rw [hiff]; omega)]
    exact ⟨2, rfl⟩
  · rw [Bits.split_of_le (by omega)]
    rw [List.length_drop] at hlack
    dsimp only
    rw [if_pos (by rw [hiff]; omega), toNat_drop_logicalRest r h 2 _ (by omega), List.drop_drop]
    rfl

/-- What reading and peeking the prefix do: they deliver the length as a signed 32-bit
number if it is there, and else fail. -/
theorem stringLength_at (r : BitStreamReader) (h : r.Sound e) (hf : r.fail = false)
    (ht : r.logicalTotalBits.toNat ≤ 8 * gnsMaxMsgRecvSize) :
    if PrefixInside e r then ∃ r', r.readStringLength e = .ok (r', castSsize (lengthAt e r)) ∧
      Advanced e r r' ((r.logicalRest e).drop (2 + lengthWidth (kindAt e r))) ∧
      r.peekStringLength e = .ok (r, castSsize (lengthAt e r))
    else ∃ r', r.readStringLength e = .ok (r', -1) ∧ r'.fail = true ∧
      r.peekStringLength e = .ok ({ r with fail := true }, -1) := by
  have hdec := decodeLength_at r (h.synced hf)
  have hs := lengthSound_of_limit r h ht
  have href := readStringLength_refines r (h.synced hf) hf hs
  have hpeek := peekStringLength_refines r (h.synced hf) hf hs
  by_cases hin : PrefixInside e r
  · rw [if_pos hin] at hdec ⊢
    rw [hdec] at href hpeek
    obtain ⟨r', hr', ha⟩ := href
    exact ⟨r', hr', ha, hpeek⟩
  · rw [if_neg hin] at hdec ⊢
    obtain ⟨n, hdec⟩ := hdec
    rw [hdec] at href hpeek
    obtain ⟨r', hr', hstop⟩ := href
    exact ⟨r', hr', hstop.fail, hpeek⟩

/-- Both string reads, told by the length they read: they fail and leave their
destination alone, or the characters are there and both read them and go on from the
same state. -/
theorem strings_spec (r : BitStreamReader) (h : r.Sound e) (hf : r.fail = false)
    (ht : r.logicalTotalBits.toNat ≤ 8 * gnsMaxMsgRecvSize) {rp : BitStreamReader} {len : Int}
    (hlen : r.readStringLength e = .ok (rp, len)) (c : CharType) (str : List c.Value)
    (mem : Nat → c.Value) (maxLength : SizeType) :
    if len < 0 ∨ maxLength.toNat < len.toNat ∨
        rp.unusedBits.toNat < len.toNat * (8 * c.size) then
      r.readString e c str maxLength = .ok ({ rp with fail := true }, str) ∧
        r.readCString e c mem maxLength = .ok ({ rp with fail := true }, mem)
    else rp.Synced e ∧ ∃ r', r'.fail = false ∧
      rp.readChars e c.intType (resize c str len.toNat) =
        .ok (r', takeValues c.intType len.toNat (rp.logicalRest e)) ∧
      r.readString e c str maxLength =
        .ok (r', takeValues c.intType len.toNat (rp.logicalRest e)) ∧
      r.readCString e c mem maxLength = .ok (r',
        overlay mem (takeValues c.intType len.toNat (rp.logicalRest e) ++ [c.intType.cast 0])) := by
  obtain ⟨r₁, n, hr₁, hlt, hpass⟩ := readStringLength_spec r h hf ht
  obtain ⟨rfl, rfl⟩ := Run.ok_unique_pair hr₁ hlen
  have hopen : ¬ r.fail = true := by simp [hf]
  rw [readString, readCString, if_neg hopen, if_neg hopen, hlen]
  simp only [Run.bind_ok]
  by_cases hmax : n < 0 ∨ maxLength.toNat < n.toNat
  · rw [if_pos (by tauto), if_pos hmax, if_pos hmax]
    exact ⟨rfl, rfl⟩
  rw [if_neg hmax, if_neg hmax]
  obtain ⟨hs, hfp⟩ := hpass (by omega)
  have hwidth := mul_fullWidth c n.toNat
  have hmul : n.toNat * (8 * c.size) = 8 * (n.toNat * c.size) := Nat.mul_left_comm _ _ _
  have hover := strOverflow_iff r₁ hs c n hlt
  rw [← hmul, ← toNat_unusedBits r₁ hs] at hover
  by_cases hlack : r₁.strOverflow (n.toNat * c.size)
  · rw [if_pos (by tauto), if_pos hlack, if_pos hlack]
    exact ⟨rfl, rfl⟩
  rw [if_neg (by tauto), if_neg hlack, if_neg hlack]
  rw [hover, toNat_unusedBits r₁ hs] at hlack
  have hresize := length_resize c str n.toNat
  obtain ⟨r', hr', ha⟩ := readChars_spec c.intType (resize c str n.toNat) r₁ hs
    (by rw [hresize]; omega)
  obtain ⟨r'', hr'', -⟩ := readArray_spec c.intType 0 n.toNat mem r₁ hs (by omega)
  have hstate := readArray_state (e := e) c.intType (resize c str n.toNat) 0 mem r₁
  rw [hresize] at hr' hstate
  rw [hr', hr''] at hstate
  obtain rfl : r'' = r' := Except.ok.inj hstate
  have hterm := update_eq_overlay mem (takeValues c.intType n.toNat (r₁.logicalRest e))
    (c.intType.cast 0)
  rw [length_takeValues] at hterm
  rw [hr'', ← hterm]
  exact ⟨hs, r'', ha.fail.trans hfp, hr', hr', rfl⟩

/-- In every state that has not failed: a length is delivered exactly when it is there
and a signed 32-bit number can hold it, and every other outcome is a failure, if and
only if no longer one is there. -/
theorem string_length_exact_iff (e : Endian) (r₀ : BitStreamReader) (span : WordSpan)
    (L : SizeType) (hL : L.toNat ≤ gnsMaxMsgRecvSize) (ops : List ReaderOp)
    (hops : ∀ op ∈ ops, op.WithinLimits) (r : BitStreamReader)
    (hr : runOps e ops (r₀.resetWith span L) = .ok r) (hf : r.fail = false) :
    ∃ r₁ n r₂ m, r.readStringLength e = .ok (r₁, n) ∧ r.peekStringLength e = .ok (r₂, m) ∧
      (((if PrefixInside e r ∧ lengthAt e r ≤ 2 ^ 31 - 1 then n = lengthAt e r ∧ m = lengthAt e r
          else n < 0 ∧ r₁.fail = true ∧ m < 0 ∧ r₂.fail = true) ∧
        (PrefixInside e r → 2 ^ 31 - 1 < lengthAt e r →
          ∀ (c : CharType) (str : List c.Value) (maxLength : SizeType), ∃ r₃ after,
            r.readString e c str maxLength = .ok (r₃, after) ∧ r₃.fail = true)) ↔
      (PrefixInside e r → lengthAt e r ≤ 2 ^ 31 - 1)) := by
  obtain ⟨hsound, ht⟩ := reachable_sound hL hops hr hf
  have hat := stringLength_at r hsound hf ht
  by_cases hin : PrefixInside e r
  · rw [if_pos hin] at hat
    obtain ⟨r₁, hread, ha, hpeek⟩ := hat
    refine ⟨r₁, _, r, _, hread, hpeek, ?_⟩
    by_cases hlen : lengthAt e r ≤ 2 ^ 31 - 1
    · have hcast := castSsize_of_lt (lengthAt e r) (by omega)
      rw [if_pos ⟨hin, hlen⟩]
      exact iff_of_true ⟨⟨hcast, hcast⟩, fun _ hlong => absurd hlong (by omega)⟩ fun _ => hlen
    · rw [if_neg (by tauto)]
      refine iff_of_false (fun h => ?_) (by tauto)
      exact absurd (h.1.2.1.symm.trans (ha.fail.trans hf)) (by simp)
  · rw [if_neg hin] at hat
    obtain ⟨r₁, hread, hf₁, hpeek⟩ := hat
    refine ⟨r₁, _, _, _, hread, hpeek, ?_⟩
    rw [if_neg (by tauto)]
    exact iff_of_true ⟨⟨by omega, hf₁, by omega, rfl⟩, by tauto⟩ (by tauto)

/-- A length of 5 in 8 bits, and then nothing to read it from. -/
theorem string_length_exact_small :
    ∃ r₁ n, ((default : BitStreamReader).resetWith ⟨false, [0x14]⟩ 4).readStringLength .little =
        .ok (r₁, n) ∧ n = 5 := by
  obtain ⟨r₁, n, r₂, m, hr₁, -, hiff⟩ := string_length_exact_iff .little default ⟨false, [0x14]⟩ 4
    (by decide) [] (by simp) _ rfl (by decide)
  have hlen : lengthAt .little ((default : BitStreamReader).resetWith ⟨false, [0x14]⟩ 4) = 5 := by
    decide
  have hexact := (hiff.mpr fun _ => by rw [hlen]; decide).1
  rw [if_pos ⟨by decide, by rw [hlen]; decide⟩, hlen] at hexact
  exact ⟨r₁, n, hr₁, hexact.1⟩

/-- `2 ^ 32 + 5` in 64 bits goes for 5, and `2 ^ 31` in 32 bits for a negative number
with no failure. -/
theorem long_length_taken_for_short :
    (let r := (default : BitStreamReader).resetWith ⟨false, [0x17, 0x4, 0, 0]⟩ 14
     PrefixInside .little r ∧ lengthAt .little r = 2 ^ 32 + 5 ∧
      ∃ r₁ str, r.readString .little .char8 [] 5 = .ok (r₁, str) ∧ r₁.fail = false ∧
        str.length = 5) ∧
    (let r := (default : BitStreamReader).resetWith ⟨false, [0x2, 0x2]⟩ 8
     PrefixInside .little r ∧ lengthAt .little r = 2 ^ 31 ∧
      ∃ r₁ n, r.peekStringLength .little = .ok (r₁, n) ∧ n < 0 ∧ r₁.fail = false) :=
  ⟨⟨by decide, by decide, _, _, rfl, by decide, by decide⟩,
    ⟨by decide, by decide, _, _, rfl, by decide, by decide⟩⟩

/-- The reads that begin with a length prefix. -/
def ReadCall.ReadsString : ReadCall → Prop
  | .string _ _ _ | .cstring _ _ _ => True
  | _ => False

theorem ReadCall.decode_of_length_error (call : ReadCall) (hc : call.ReadsString)
    {bs : List Bool} {n : Nat} (h : decodeLength bs = .error n) : call.decode bs = .error n := by
  cases call with
  | int t data min max => exact False.elim hc
  | float data => exact False.elim hc
  | double data => exact False.elim hc
  | block data size => exact False.elim hc
  | string c str maxLength =>
    simp only [ReadCall.decode, decodeString, h]
    rfl
  | cstring c mem maxLength =>
    simp only [ReadCall.decode, decodeString, h]
    rfl

/-- A peek leaves nothing but the fail flag, and another one finds what it found. -/
theorem BitStreamReader.peekStringLength_spec (r : BitStreamReader)
    (h : r.fail = false → r.Sound e)
    (ht : r.fail = false → r.logicalTotalBits.toNat ≤ 8 * gnsMaxMsgRecvSize) :
    ∃ r₁ n, r.peekStringLength e = .ok (r₁, n) ∧ r₁ = { r with fail := r₁.fail } ∧
      r₁.peekStringLength e = .ok (r₁, n) := by
  by_cases hf : r.fail = true
  · have hpeek := peekStringLength_of_fail (e := e) r hf
    exact ⟨r, -1, hpeek, rfl, hpeek⟩
  have hf : r.fail = false := by simpa using hf
  have hat := stringLength_at r (h hf) hf (ht hf)
  by_cases hin : PrefixInside e r
  · rw [if_pos hin] at hat
    obtain ⟨-, -, -, hpeek⟩ := hat
    exact ⟨r, _, hpeek, rfl, hpeek⟩
  · rw [if_neg hin] at hat
    obtain ⟨-, -, -, hpeek⟩ := hat
    exact ⟨_, _, hpeek, rfl, peekStringLength_of_fail _ rfl⟩

/-- A string read right behind a peek goes as it would have gone without it. -/
theorem BitStreamReader.exec_after_peek (r r₁ : BitStreamReader) (n : Int) (h : r.Sound e)
    (hf : r.fail = false) (ht : r.logicalTotalBits.toNat ≤ 8 * gnsMaxMsgRecvSize)
    (hpeek : r.peekStringLength e = .ok (r₁, n)) (call : ReadCall) (hc : call.ReadsString) :
    r₁ = r ∨ (r₁.fail = true ∧ ∃ r₃, call.exec e r = .ok (r₃, call) ∧ r₃.fail = true) := by
  have hlimits : call.WithinLimits := by
    cases call with
    | block data size => exact False.elim hc
    | _ => trivial
  have hs := h.synced hf
  have hdec := decodeLength_at r hs
  have hat := stringLength_at r h hf ht
  by_cases hin : PrefixInside e r
  · rw [if_pos hin] at hat
    obtain ⟨-, -, -, hpeek'⟩ := hat
    exact .inl (Run.ok_unique_pair hpeek hpeek').1
  · rw [if_neg hin] at hat hdec
    obtain ⟨-, -, -, hpeek'⟩ := hat
    obtain ⟨m, hdec⟩ := hdec
    have href := call.exec_refines r hs hf (call.checkSound_of_withinLimits r h ht hlimits)
    rw [call.decode_of_length_error hc hdec] at href
    obtain ⟨r₃, hr₃, hstop⟩ := href
    refine .inr ⟨?_, r₃, hr₃, hstop.fail⟩
    rw [(Run.ok_unique_pair hpeek hpeek').1]

/-- Reading as many characters as were peeked needs nothing but their being there. -/
theorem BitStreamReader.readString_peeked (r r₁ : BitStreamReader) (n : Int) (h : r.Sound e)
    (hf : r.fail = false) (ht : r.logicalTotalBits.toNat ≤ 8 * gnsMaxMsgRecvSize)
    (hpeek : r.peekStringLength e = .ok (r₁, n)) (hn : 0 ≤ n) :
    r₁ = r ∧ ∃ rp, r.readStringLength e = .ok (rp, n) ∧
      ∀ (c : CharType) (str : List c.Value), ∃ r₂ after,
        r.readString e c str (BitVec.ofInt 32 n) = .ok (r₂, after) ∧
        (r₂.fail = false ↔ n.toNat * (8 * c.size) ≤ rp.unusedBits.toNat) ∧
        (r₂.fail = false → after.length = n.toNat) := by
  have hat := stringLength_at r h hf ht
  by_cases hin : PrefixInside e r
  · rw [if_pos hin] at hat
    obtain ⟨rp, hrp, -, hpeek'⟩ := hat
    obtain ⟨rfl, hlen⟩ := Run.ok_unique_pair hpeek hpeek'
    have h31 := castSsize_lt (lengthAt e r₁)
    rw [← hlen] at hrp h31
    refine ⟨rfl, rp, hrp, fun c str => ?_⟩
    have hmax : (BitVec.ofInt 32 n).toNat = n.toNat := by
      rw [BitVec.toNat_ofInt]
      omega
    have hspec := strings_spec r₁ h hf ht hrp c str (fun _ => c.intType.cast 0) (BitVec.ofInt 32 n)
    by_cases hlack : rp.unusedBits.toNat < n.toNat * (8 * c.size)
    · rw [if_pos (by tauto)] at hspec
      exact ⟨_, _, hspec.1, iff_of_false (by simp) (by omega), fun hno => absurd hno (by simp)⟩
    · rw [if_neg (by omega)] at hspec
      obtain ⟨-, r₂, hf₂, -, hr₂, -⟩ := hspec
      exact ⟨r₂, _, hr₂, iff_of_true hf₂ (by omega), fun _ => length_takeValues c.intType n.toNat _⟩
  · rw [if_neg hin] at hat
    obtain ⟨-, -, -, hpeek'⟩ := hat
    obtain ⟨-, rfl⟩ := Run.ok_unique_pair hpeek hpeek'
    omega

/-- In every state a stream can reach: a peek changes nothing but the fail flag, a
string read behind it ends as it would have without, any number of peeks agree, and
the peeked length can be read exactly when the characters are there. -/
theorem peek_transparent (e : Endian) (r₀ : BitStreamReader) (span : WordSpan) (L : SizeType)
    (hL : L.toNat ≤ gnsMaxMsgRecvSize) (ops : List ReaderOp) (hops : ∀ op ∈ ops, op.WithinLimits)
    (r : BitStreamReader) (hr : runOps e ops (r₀.resetWith span L) = .ok r) :
    ∃ r₁ n, r.peekStringLength e = .ok (r₁, n) ∧ r₁ = { r with fail := r₁.fail } ∧
      (∀ call : ReadCall, call.ReadsString → ∃ r₂ after₂ r₃ after₃,
        call.exec e r₁ = .ok (r₂, after₂) ∧ call.exec e r = .ok (r₃, after₃) ∧
        (r₂.fail = false ↔ r₃.fail = false) ∧ (r₃.fail = false → r₂ = r₃ ∧ after₂ = after₃)) ∧
      (∀ k, ∃ r₂, runOps e (List.replicate k .peekStringLength) r₁ = .ok r₂ ∧
        r₂.peekStringLength e = .ok (r₂, n)) ∧
      (0 ≤ n → ∃ rp, r.readStringLength e = .ok (rp, n) ∧
        ∀ (c : CharType) (str : List c.Value), ∃ r₂ after,
          r₁.readString e c str (BitVec.ofInt 32 n) = .ok (r₂, after) ∧
          (r₂.fail = false ↔ n.toNat * (8 * c.size) ≤ rp.unusedBits.toNat) ∧
          (r₂.fail = false → after.length = n.toNat)) := by
  have hreach := reachable_sound (e := e) hL hops hr
  obtain ⟨r₁, n, hpeek, hsame, hagain⟩ := r.peekStringLength_spec (fun hf => (hreach hf).1)
    (fun hf => (hreach hf).2)
  refine ⟨r₁, n, hpeek, hsame, fun call hc => ?_, fun k => ⟨r₁, ?_, hagain⟩, fun hn => ?_⟩
  · by_cases hf : r.fail = true
    · have hpeek' := peekStringLength_of_fail (e := e) r hf
      obtain ⟨rfl, -⟩ := Run.ok_unique_pair hpeek hpeek'
      exact ⟨r₁, call, r₁, call, call.exec_of_fail r₁ hf, call.exec_of_fail r₁ hf, Iff.rfl,
        fun _ => ⟨rfl, rfl⟩⟩
    have hf : r.fail = false := by simpa using hf
    obtain ⟨hsound, ht⟩ := hreach hf
    obtain rfl | ⟨hf₁, r₃, hr₃, hf₃⟩ := r.exec_after_peek r₁ n hsound hf ht hpeek call hc
    · have hlimits : call.WithinLimits := by
        cases call with
        | block data size => exact False.elim hc
        | _ => trivial
      obtain ⟨r₂, after, hr₂, -, -⟩ := hsound.exec call
        (call.checkSound_of_withinLimits r₁ hsound ht hlimits)
      exact ⟨r₂, after, r₂, after, hr₂, hr₂, Iff.rfl, fun _ => ⟨rfl, rfl⟩⟩
    · exact ⟨r₁, call, r₃, call, call.exec_of_fail r₁ hf₁, hr₃, by simp [hf₁, hf₃],
        fun hno => absurd (hf₃.symm.trans hno) (by simp)⟩
  · induction k with
    | zero => rfl
    | succ k ih =>
      rw [List.replicate_succ, runOps, Run.run, ReaderOp.exec, hagain]
      exact ih
  · have hf : r.fail = false := by
      by_contra hno
      have hpeek' := peekStringLength_of_fail (e := e) r (by simpa using hno)
      obtain ⟨-, rfl⟩ := Run.ok_unique_pair hpeek hpeek'
      omega
    obtain ⟨hsound, ht⟩ := hreach hf
    obtain ⟨rfl, hread⟩ := r.readString_peeked r₁ n hsound hf ht hpeek hn
    exact hread

/-- Two characters, peeked at and then read. -/
theorem peek_transparent_small :
    ∃ r₁ r₂ after, ((default : BitStreamReader).resetWith ⟨false, [0x185a008]⟩ 4).peekStringLength
        .little = .ok (r₁, 2) ∧
      r₁.readString .little .char8 [] 2 = .ok (r₂, after) ∧ after.length = 2 := by
  obtain ⟨r₁, n, hpeek, -, -, -, hread⟩ := peek_transparent .little default ⟨false, [0x185a008]⟩ 4
    (by decide) [] (by simp) _ rfl
  obtain ⟨-, rfl⟩ := Run.ok_unique_pair hpeek rfl
  obtain ⟨rp, hrp, hread⟩ := hread (by decide)
  obtain ⟨r₂, after, hr₂, hfits, hlen⟩ := hread .char8 []
  obtain ⟨rfl, -⟩ := Run.ok_unique_pair hrp rfl
  exact ⟨r₁, r₂, after, hpeek, hr₂, hlen (hfits.mpr (by decide))⟩

end Nalchi
