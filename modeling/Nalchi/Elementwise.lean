import Nalchi.WriterFailure
import Nalchi.LengthPrefix

/-! A composite write or read checks once for everything it does, and then does it
unchecked. It goes as if every element were written or read by a checked call. -/
namespace Nalchi
variable {e : Endian}

/-- The checked write of one field. -/
def Field.writeCall (f : Field) : WriteCall := .int f.t f.data f.min f.max

section
open BitStreamWriter

theorem encodeAll_writeCall (fs : List Field) :
    encodeAll (fs.map Field.writeCall) = fs.flatMap Field.encode := by
  rw [encodeAll, List.flatMap_map]
  rfl

/-- The encodings of the elements are as long together as that of the whole. -/
theorem WriteCall.length_elements (call : WriteCall) (hv : call.Valid) (hc : call.WithinLimits) :
    (call.fields.flatMap Field.encode).length = call.cost := by
  have hcost := call.cost_lt hv hc
  have hle : 2 ^ (call.sumBits - 1) ≤ 2 ^ 64 :=
    Nat.pow_le_pow_right (by omega) (by cases call <;> simp [WriteCall.sumBits])
  rw [call.encode_fields (by omega), length_encode]

/-- The elements are accepted one by one just when the call is as a whole. -/
theorem WriteCall.allAccepted_iff (call : WriteCall) (w : BitStreamWriter) (hf : w.fail = false)
    (hfl : w.finalFlushed = false) (hc : call.WithinLimits) :
    AllAccepted (call.fields.map Field.writeCall) w ↔ call.Accepted w := by
  have hvalid : (∀ c ∈ call.fields.map Field.writeCall, c.Valid) ↔ call.Valid := by
    constructor
    · intro h
      cases call with
      | int t data min max => exact h _ (by simp [fields, Field.writeCall])
      | _ => trivial
    · intro hv c hmem
      obtain ⟨f, hf, rfl⟩ := List.mem_map.mp hmem
      exact call.inRange_fields hv f hf
  rw [AllAccepted, Accepted, hvalid, encodeAll_writeCall]
  constructor
  · rintro ⟨hv, hfit⟩
    rw [call.length_elements hv hc] at hfit
    exact ⟨hf, hfl, hv, hfit⟩
  · rintro ⟨-, -, hv, hfit⟩
    rw [call.length_elements hv hc]
    exact ⟨hv, hfit⟩

/-- Where a call is accepted the check of each element passes, so it is what the call
does for it. -/
theorem WriteCall.exec_eq_writeAll (call : WriteCall) (w : BitStreamWriter) (h : w.Packed)
    (ha : call.Accepted w) (hc : call.WithinLimits) :
    call.exec e w = writeAll e (call.fields.map Field.writeCall) w := by
  have ⟨hf, hfl, hv, hfit⟩ := ha
  rw [call.exec_eq_fields w h ha, writeAll, Run.run_map]
  refine (Run.run_congr _ ?_).symm
  refine along_fields (fun f w _ hr hf hfl hroom => ?_) call.fields w h hf hfl
    (call.inRange_fields hv) (by rw [call.length_elements hv hc]; exact hfit)
  exact doWrite_checked w f.t f.data f.min f.max hf hfl hr.1 hr.2.1 hr.2.2 (not_lt_add hroom)

theorem WriteCall.exec_elementwise (call : WriteCall) (w : BitStreamWriter) (h : w.Sound)
    (ht : w.logicalTotalBits.toNat ≤ 8 * gnsMaxMsgRecvSize) (hf : w.fail = false)
    (hfl : w.finalFlushed = false) (hc : call.WithinLimits) :
    ∃ w₁ w₂, call.exec e w = .ok w₁ ∧ writeAll e (call.fields.map Field.writeCall) w = .ok w₂ ∧
      (w₁.fail = false ↔ w₂.fail = false) ∧ (w₂.fail = false → w₁ = w₂) := by
  have hp := h.packed hfl
  have hiff := call.allAccepted_iff w hf hfl hc
  by_cases ha : call.Accepted w
  · obtain ⟨w₁, hw₁, -⟩ := call.exec_of_accepted (e := e) w hp ha
    exact ⟨w₁, w₁, hw₁, by rw [← call.exec_eq_writeAll w hp ha hc, hw₁], Iff.rfl, fun _ => rfl⟩
  · obtain ⟨w₂, hw₂, hf₂⟩ := writeAll_of_not_accepted (e := e) _ w hp hf hfl
      (fun hall => ha (hiff.mp hall)) (along_checkSound _ (fun c hmem => by
        obtain ⟨f, -, rfl⟩ := List.mem_map.mp hmem
        trivial) w h ht)
    have hrej := call.exec_of_not_accepted (e := e) w hp ha
      (call.checkSound_of_withinLimits w h ht hc)
    exact ⟨_, w₂, hrej, hw₂, iff_of_false (by simp) (by simp [hf₂]),
      fun hno => absurd (hf₂.symm.trans hno) (by simp)⟩

end
/-- The checked reads of the elements of a byte block or of the characters of a string. -/
def elementReads (t : IntType) (xs : List t.Value) : List ReadCall :=
  xs.map fun x => .int t x t.minValue t.maxValue

/-- The checked reads of a length prefix of that kind, with what they hold. -/
def prefixReads (kind lenOfLen len : Nat) : List ReadCall :=
  [.int .uint32 (IntType.uint32.cast lenOfLen) BitStreamWriter.minStrLenPrefixPrefix
      BitStreamWriter.maxStrLenPrefixPrefix,
    .int (.unsigned (lengthClass kind)) (IntType.cast _ len) (IntType.minValue _)
      (IntType.maxValue _)]

section
open BitStreamReader

theorem readAll_append (as bs : List ReadCall) (r : BitStreamReader) :
    r.readAll e (as ++ bs) = r.readAll e as >>= fun p =>
      (p.1.readAll e bs).map fun q => (q.1, p.2 ++ q.2) := by
  induction as generalizing r with
  | nil =>
    rw [List.nil_append, readAll, Run.bind_ok]
    cases r.readAll e bs <;> rfl
  | cons call as ih =>
    rw [List.cons_append, readAll, readAll]
    cases call.exec e r with
    | error f => rfl
    | ok p =>
      simp only [Run.bind_ok]
      rw [ih]
      cases p.1.readAll e as with
      | error f => rfl
      | ok q =>
        simp only [Run.bind_ok, Run.pure_ok]
        cases q.1.readAll e bs <;> rfl

/-- Over the whole range the checked read finds nothing the unchecked one would not. -/
theorem readInt_full (r : BitStreamReader) (h : r.Synced e) (hf : r.fail = false)
    (ht : r.logicalTotalBits.toNat ≤ 8 * gnsMaxMsgRecvSize) (t : IntType) (x : t.Value) :
    r.readInt e t x t.minValue t.maxValue =
      if (r.logicalRest e).length < fullWidth t then .ok ({ r with fail := true }, x)
      else r.doReadFull e false t x := by
  have hlack := field_lack_iff r h ht t t.minValue t.maxValue
  have hlt : ¬ t.maxValue.val ≤ t.minValue.val := not_le.mpr (Field.inRange_full x).1
  rw [fullWidth_eq, readInt, doReadFull, doRead, doRead]
  simp only [hf, Bool.false_eq_true, and_false, false_and, if_false, true_and]
  rw [if_neg hlt]
  by_cases hshort : (r.logicalRest e).length < t.rangeBits t.minValue t.maxValue
  · rw [if_pos (hlack.mpr hshort), if_pos hshort]
  · rw [if_neg fun hno => hshort (hlack.mp hno), if_neg hshort]
    obtain ⟨hahead, -⟩ := take_ahead r h _ (not_lt.mp hshort)
    obtain ⟨r₁, v, hr₁, -⟩ := takeValue_spec (e := e) r h.toWindowed t _ (t.rangeBits_le _ _) hahead
    have hconv : ¬ t.maxValue.val < (t.restore (v.setWidth t.bits) t.minValue).val :=
      not_lt.mpr (t.restore _ _).property.2
    rw [hr₁]
    simp only [Run.bind_ok]
    rw [if_neg hconv]

theorem exec_int {t : IntType} {data min max x : t.Value} {r r' : BitStreamReader}
    (h : r.readInt e t data min max = .ok (r', x)) :
    (ReadCall.int t data min max).exec e r = .ok (r', .int t x min max) := by
  rw [ReadCall.exec, h]
  rfl

/-- Elements that are all there, by induction on the elements left. -/
theorem readAll_elements (t : IntType) (xs : List t.Value) (r : BitStreamReader) (h : r.Synced e)
    (hf : r.fail = false) (ht : r.logicalTotalBits.toNat ≤ 8 * gnsMaxMsgRecvSize)
    (hn : xs.length * fullWidth t ≤ (r.logicalRest e).length) {r' : BitStreamReader}
    {ys : List t.Value} (hchars : r.readChars e t xs = .ok (r', ys)) :
    r.readAll e (elementReads t xs) = .ok (r', elementReads t ys) := by
  induction xs generalizing r ys with
  | nil =>
    obtain ⟨rfl, rfl⟩ := Prod.mk.inj (Except.ok.inj hchars)
    rfl
  | cons x xs ih =>
    rw [List.length_cons, Nat.succ_mul] at hn
    obtain ⟨r₁, hr₁, ha⟩ := doReadFull_unchecked r h t x (by omega)
    have hread := readInt_full r h hf ht t x
    rw [if_neg (by omega), hr₁] at hread
    rw [readChars, hr₁] at hchars
    simp only [Run.bind_ok] at hchars
    obtain ⟨⟨r₂, zs⟩, hzs, heq⟩ := Run.bind_eq_ok.mp hchars
    obtain ⟨rfl, rfl⟩ := Prod.mk.inj (Except.ok.inj heq)
    exact readAll_cons (exec_int hread) (ih r₁ ha.synced (ha.fail.trans hf)
      (by rw [ha.total]; exact ht) (by rw [ha.rest, List.length_drop]; omega) hzs)

/-- Elements that are not all there. -/
theorem readAll_elements_lack (t : IntType) (xs : List t.Value) (r : BitStreamReader)
    (h : r.Synced e) (hf : r.fail = false)
    (ht : r.logicalTotalBits.toNat ≤ 8 * gnsMaxMsgRecvSize)
    (hn : (r.logicalRest e).length < xs.length * fullWidth t) :
    ∃ r' done, r.readAll e (elementReads t xs) = .ok (r', done) ∧ r'.fail = true := by
  induction xs generalizing r with
  | nil => exact absurd hn (by simp)
  | cons x xs ih =>
    rw [List.length_cons, Nat.succ_mul] at hn
    have hread := readInt_full r h hf ht t x
    by_cases hshort : (r.logicalRest e).length < fullWidth t
    · rw [if_pos hshort] at hread
      exact ⟨_, _, readAll_cons (exec_int hread) (readAll_of_fail _ _ rfl), rfl⟩
    · obtain ⟨r₁, hr₁, ha⟩ := doReadFull_unchecked r h t x (by omega)
      obtain ⟨r', done, hr', hf'⟩ := ih r₁ ha.synced (ha.fail.trans hf)
        (by rw [ha.total]; exact ht) (by rw [ha.rest, List.length_drop]; omega)
      rw [if_neg hshort, hr₁] at hread
      exact ⟨r', _, readAll_cons (exec_int hread) hr', hf'⟩

/-- The length prefix is read by checked reads in the first place. -/
theorem readAll_prefix (r : BitStreamReader) (h : r.Synced e) (hf : r.fail = false)
    (ht : r.logicalTotalBits.toNat ≤ 8 * gnsMaxMsgRecvSize) (hin : PrefixInside e r) :
    ∃ rp, r.readAll e (prefixReads (kindAt e r) 0 0) =
        .ok (rp, prefixReads (kindAt e r) (kindAt e r) (lengthAt e r)) ∧
      r.readStringLength e = .ok (rp, castSsize (lengthAt e r)) ∧ rp.Synced e ∧ rp.fail = false ∧
      rp.logicalTotalBits = r.logicalTotalBits := by
  have hin' : r.logicalUsedBits.toNat + 2 + lengthWidth (kindAt e r) ≤ r.logicalTotalBits.toNat := hin
  have hl := length_logicalRest r h
  have hlimit : 8 * gnsMaxMsgRecvSize = 2 ^ 23 := by decide
  have hkind : kindAt e r < 4 := toNat_take_lt 2 _
  have href := doRead_refines r h hf .uint32 (IntType.uint32.cast 0)
    BitStreamWriter.minStrLenPrefixPrefix BitStreamWriter.maxStrLenPrefixPrefix
    fun _ => sumSound_rangeBits r h.used_le ht _ _ _
  rw [decodeInt_kind, Bits.split_of_le (by omega), toNat_take_logicalRest r h 2 (by omega)] at href
  obtain ⟨r₁, hr₁, ha₁⟩ := href
  have hf₁ := ha₁.fail.trans hf
  have hu₁ := ha₁.used
  rw [List.length_drop] at hu₁
  have hw := bits_lengthClass (kindAt e r) hkind
  have href := doReadFull_refines r₁ ha₁.synced hf₁ (lengthClass (kindAt e r)) (IntType.cast _ 0)
    (sumSound_of_limit r₁ ha₁.synced.used_le (by rw [ha₁.total]; exact ht) (by omega))
  rw [hw, ha₁.rest, Bits.split_of_le (by rw [List.length_drop]; omega),
    toNat_drop_logicalRest r h 2 _ (by omega)] at href
  obtain ⟨rp, hrp, ha⟩ := href
  change r.doRead e true .uint32 (IntType.uint32.cast 0) BitStreamWriter.minStrLenPrefixPrefix
    BitStreamWriter.maxStrLenPrefixPrefix = .ok (r₁, IntType.uint32.cast (kindAt e r)) at hr₁
  change r₁.doReadFull e true (.unsigned (lengthClass (kindAt e r))) (IntType.cast _ 0) =
    .ok (rp, IntType.cast _ (lengthAt e r)) at hrp
  have hfp := ha.fail.trans hf₁
  refine ⟨rp, ?_, ?_, ha.synced, hfp, ha.total.trans ha₁.total⟩
  · exact readAll_cons (exec_int hr₁) (readAll_cons (exec_int hrp) rfl)
  · obtain ⟨w, hwidth, hswitch⟩ := readStringLength_of_kind r r₁ hf hf₁ _ hkind hr₁
    obtain rfl := Width.bits_injective (hw.trans hwidth.symm)
    have hlen : ((IntType.unsigned (lengthClass (kindAt e r))).cast (lengthAt e r)).val =
        lengthAt e r := by
      refine IntType.unsigned_cast _ _ ?_
      rw [hw]
      exact toNat_take_lt _ _
    rw [hswitch, readLengthAs, hrp]
    simp only [Run.bind_ok]
    rw [if_neg (by simp [hfp]), hlen]
    rfl

theorem map_range_getD {α : Type} (xs : List α) (mem : Nat → α) :
    (List.range xs.length).map (fun i => (xs[i]?).getD (mem i)) = xs := by
  refine List.ext_getElem (by simp) fun i h1 h2 => ?_
  simp [h2]

theorem readBlock_elementwise (r : BitStreamReader) (h : r.Sound e) (hf : r.fail = false)
    (ht : r.logicalTotalBits.toNat ≤ 8 * gnsMaxMsgRecvSize) (data : Nat → IntType.uint8.Value)
    (size : SizeType) (hc : size.toNat ≤ gnsMaxMsgRecvSize) :
    ∃ r₁ data' r₂ done, r.readBlock e data size = .ok (r₁, data') ∧
      r.readAll e (elementReads .uint8 ((List.range size.toNat).map data)) = .ok (r₂, done) ∧
      (r₁.fail = false ↔ r₂.fail = false) ∧
      (r₂.fail = false → r₁ = r₂ ∧
        done = elementReads .uint8 ((List.range size.toNat).map data') ∧
        ∀ i, size.toNat ≤ i → data' i = data i) := by
  have hs := h.synced hf
  have hopen : ¬ r.fail = true := by simp [hf]
  have h8 : fullWidth .uint8 = 8 := by decide
  have hsum := (ReadCall.block data size).checkSound_of_withinLimits r h ht hc hf
  have hlack := lack_iff r hs (toNat_eight_mul size) hsum
  have hxs : ((List.range size.toNat).map data).length = size.toNat := by simp
  rw [readBlock, if_neg hopen]
  by_cases hshort : (r.logicalRest e).length < 8 * size.toNat
  · rw [if_pos (hlack.mpr hshort)]
    obtain ⟨r₂, done, hr₂, hf₂⟩ := readAll_elements_lack .uint8 _ r hs hf ht
      (by rw [hxs, h8, Nat.mul_comm]; exact hshort)
    exact ⟨_, data, r₂, done, rfl, hr₂, iff_of_false (by simp) (by simp [hf₂]),
      fun hno => absurd (hf₂.symm.trans hno) (by simp)⟩
  have hroom : size.toNat * fullWidth .uint8 ≤ (r.logicalRest e).length := by
    rw [h8]
    omega
  have hroom' := hroom
  rw [← hxs] at hroom'
  obtain ⟨r₁, hr₁, -⟩ := readArray_spec .uint8 0 size.toNat data r hs hroom
  obtain ⟨r₂, hr₂, -⟩ := readChars_spec .uint8 ((List.range size.toNat).map data) r hs hroom'
  have hstate := readArray_state (e := e) .uint8 ((List.range size.toNat).map data) 0 data r
  have helements := readAll_elements .uint8 _ r hs hf ht hroom' hr₂
  rw [hxs, hr₁, hr₂] at hstate
  obtain rfl : r₁ = r₂ := Except.ok.inj hstate
  rw [if_neg fun hno => hshort (hlack.mp hno), hr₁]
  refine ⟨r₁, _, r₁, _, rfl, helements, Iff.rfl, fun _ => ⟨rfl, ?_, fun i hi => ?_⟩⟩
  · have hmap := map_range_getD (takeValues .uint8 size.toNat (r.logicalRest e)) data
    rw [length_takeValues] at hmap
    simp only [hxs, Nat.not_lt_zero, if_false, Nat.sub_zero]
    rw [hmap]
  · rw [if_neg (Nat.not_lt_zero i), Nat.sub_zero,
      List.getElem?_eq_none (by rw [length_takeValues]; exact hi)]
    rfl

theorem readString_elementwise (r : BitStreamReader) (h : r.Sound e) (hf : r.fail = false)
    (ht : r.logicalTotalBits.toNat ≤ 8 * gnsMaxMsgRecvSize) {rp : BitStreamReader} {n : Int}
    (hlen : r.readStringLength e = .ok (rp, n)) (h0 : 0 ≤ n) (c : CharType) (str : List c.Value)
    (mem : Nat → c.Value) (maxLength : SizeType) (hmax : n.toNat ≤ maxLength.toNat)
    (xs : List c.Value) (hxs : xs.length = n.toNat) :
    ∃ r₁ str' mem' r₂ done, r.readString e c str maxLength = .ok (r₁, str') ∧
      r.readCString e c mem maxLength = .ok (r₁, mem') ∧
      r.readAll e (prefixReads (kindAt e r) 0 0 ++ elementReads c.intType xs) = .ok (r₂, done) ∧
      (r₁.fail = false ↔ r₂.fail = false) ∧
      (r₂.fail = false → r₁ = r₂ ∧
        done = prefixReads (kindAt e r) (kindAt e r) (lengthAt e r) ++ elementReads c.intType str' ∧
        castSsize (lengthAt e r) = n ∧ mem' = overlay mem (str' ++ [c.intType.cast 0])) := by
  have hin : PrefixInside e r := by
    by_contra hno
    have hat := stringLength_at r h hf ht
    rw [if_neg hno] at hat
    obtain ⟨r', hr', -⟩ := hat
    obtain ⟨-, rfl⟩ := Run.ok_unique_pair hlen hr'
    omega
  obtain ⟨rp', hreads, hlen', hs, hfp, htotal⟩ := readAll_prefix r (h.synced hf) hf ht hin
  obtain ⟨rfl, hn⟩ := Run.ok_unique_pair hlen' hlen
  rw [← htotal] at ht
  have hspec := strings_spec r h hf (by rw [← htotal]; exact ht) hlen c str mem maxLength
  have hwidth := mul_fullWidth c n.toNat
  have hmul : n.toNat * (8 * c.size) = 8 * (n.toNat * c.size) := Nat.mul_left_comm _ _ _
  rw [toNat_unusedBits rp' hs] at hspec
  rw [readAll_append, hreads, Run.bind_ok]
  by_cases hshort : (rp'.logicalRest e).length < n.toNat * (8 * c.size)
  · rw [if_pos (.inr (.inr hshort))] at hspec
    obtain ⟨r₂, done, hr₂, hf₂⟩ := readAll_elements_lack c.intType xs rp' hs hfp ht
      (by rw [hxs]; omega)
    refine ⟨_, str, mem, r₂, _, hspec.1, hspec.2, by rw [hr₂]; rfl, iff_of_false (by simp)
      (by simp [hf₂]), fun hno => absurd (hf₂.symm.trans hno) (by simp)⟩
  · rw [if_neg (by omega)] at hspec
    obtain ⟨-, r₁, -, hchars, hstr, hmem⟩ := hspec
    rw [← readChars_data c.intType xs _ (by rw [hxs, length_resize])] at hchars
    have helements := readAll_elements c.intType xs rp' hs hfp ht (by rw [hxs]; omega) hchars
    exact ⟨r₁, _, _, r₁, _, hstr, hmem, by rw [helements]; rfl, Iff.rfl,
      fun _ => ⟨rfl, rfl, hn, rfl⟩⟩

end

/-- A byte block or a string is written just when all its elements would be, one checked
write after the other, and leaves the same stream; a byte block or a string with a length
that is allowed is read just when all its elements would be, one checked read after the
other, and leaves the same data and stream. A stream that fails at one element has failed
at the end. -/
theorem composite_eq_elementwise (e : Endian) :
    (∀ (w₀ : BitStreamWriter) (span : WordSpan) (L : SizeType), L.toNat ≤ gnsMaxMsgRecvSize →
      ∀ ops : List WriterOp, (∀ op ∈ ops, op.WithinLimits) →
      ∀ w, BitStreamWriter.runOps e ops (w₀.resetWith span L) = .ok w →
      w.fail = false → w.finalFlushed = false →
      ∀ call : WriteCall, call.WithinLimits → ∃ w₁ w₂, call.exec e w = .ok w₁ ∧
        BitStreamWriter.writeAll e (call.fields.map Field.writeCall) w = .ok w₂ ∧
        (w₁.fail = false ↔ w₂.fail = false) ∧ (w₂.fail = false → w₁ = w₂)) ∧
    (∀ (r₀ : BitStreamReader) (span : WordSpan) (L : SizeType), L.toNat ≤ gnsMaxMsgRecvSize →
      ∀ ops : List ReaderOp, (∀ op ∈ ops, op.WithinLimits) →
      ∀ r, BitStreamReader.runOps e ops (r₀.resetWith span L) = .ok r → r.fail = false →
      (∀ (data : Nat → IntType.uint8.Value) (size : SizeType), size.toNat ≤ gnsMaxMsgRecvSize →
        ∃ r₁ data' r₂ done, r.readBlock e data size = .ok (r₁, data') ∧
          r.readAll e (elementReads .uint8 ((List.range size.toNat).map data)) = .ok (r₂, done) ∧
          (r₁.fail = false ↔ r₂.fail = false) ∧
          (r₂.fail = false → r₁ = r₂ ∧
            done = elementReads .uint8 ((List.range size.toNat).map data') ∧
            ∀ i, size.toNat ≤ i → data' i = data i)) ∧
      (∀ (rp : BitStreamReader) (n : Int), r.readStringLength e = .ok (rp, n) → 0 ≤ n →
        ∀ (c : CharType) (str : List c.Value) (mem : Nat → c.Value) (maxLength : SizeType),
        n.toNat ≤ maxLength.toNat → ∀ xs : List c.Value, xs.length = n.toNat →
        ∃ r₁ str' mem' r₂ done, r.readString e c str maxLength = .ok (r₁, str') ∧
          r.readCString e c mem maxLength = .ok (r₁, mem') ∧
          r.readAll e (prefixReads (kindAt e r) 0 0 ++ elementReads c.intType xs) =
            .ok (r₂, done) ∧
          (r₁.fail = false ↔ r₂.fail = false) ∧
          (r₂.fail = false → r₁ = r₂ ∧
            done = prefixReads (kindAt e r) (kindAt e r) (lengthAt e r) ++
              elementReads c.intType str' ∧
            BitStreamReader.castSsize (lengthAt e r) = n ∧
            mem' = overlay mem (str' ++ [c.intType.cast 0])))) := by
  refine ⟨fun w₀ span L hL ops hops w hw hf hfl call hc => ?_,
    fun r₀ span L hL ops hops r hr hf => ?_⟩
  · obtain ⟨hsound, ht⟩ := BitStreamWriter.sound_of_runOps hL hops hw hf
    exact call.exec_elementwise w hsound ht hf hfl hc
  · obtain ⟨hsound, ht⟩ := reachable_sound hL hops hr hf
    refine ⟨fun data size hc => readBlock_elementwise r hsound hf ht data size hc,
      fun rp n hlen h0 c str mem maxLength hmax xs hxs => ?_⟩
    exact readString_elementwise r hsound hf ht hlen h0 c str mem maxLength hmax xs hxs

/-- Two bytes written, and two characters read. -/
theorem composite_eq_elementwise_small :
    (∃ w', WriteCall.exec .little (.block (fun _ => ⟨7, by decide⟩) 2)
        ((default : BitStreamWriter).resetWith ⟨false, [0]⟩ 4) = .ok w' ∧
      BitStreamWriter.writeAll .little
        ((WriteCall.block (fun _ => ⟨7, by decide⟩) 2).fields.map Field.writeCall)
        ((default : BitStreamWriter).resetWith ⟨false, [0]⟩ 4) = .ok w') ∧
    ∃ r' str' done,
      ((default : BitStreamReader).resetWith ⟨false, [0x185a008]⟩ 4).readString .little .char8 [] 2 =
        .ok (r', str') ∧
      ((default : BitStreamReader).resetWith ⟨false, [0x185a008]⟩ 4).readAll .little
        (prefixReads 0 0 0 ++ elementReads .uint8 [⟨0, by decide⟩, ⟨0, by decide⟩]) =
          .ok (r', done) ∧
      done = prefixReads 0 0 2 ++ elementReads .uint8 str' := by
  obtain ⟨hwrite, hread⟩ := composite_eq_elementwise .little
  constructor
  · obtain ⟨w₁, w₂, hw₁, hw₂, hiff, hsame⟩ := hwrite default ⟨false, [0]⟩ 4 (by decide) [] (by simp) _
      rfl (by decide) (by decide) (.block (fun _ => ⟨7, by decide⟩) 2) (by decide)
    obtain rfl := Run.ok_unique hw₁ rfl
    obtain rfl := hsame (hiff.mp (by decide))
    exact ⟨_, hw₁, hw₂⟩
  · obtain ⟨r₁, str', mem', r₂, done, hr₁, -, hr₂, hiff, hsame⟩ := (hread default
      ⟨false, [0x185a008]⟩ 4 (by decide) [] (by simp) _ rfl (by decide)).2 _ 2 rfl (by decide) .char8
      [] (fun _ => ⟨0, by decide⟩) 2 (by decide) [⟨0, by decide⟩, ⟨0, by decide⟩] rfl
    obtain ⟨rfl, -⟩ := Run.ok_unique_pair hr₁ rfl
    obtain ⟨rfl, hdone, -⟩ := hsame (hiff.mp (by decide))
    exact ⟨_, str', done, hr₁, hr₂, hdone⟩

end Nalchi
