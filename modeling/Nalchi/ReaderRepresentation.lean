import Nalchi.FailingReads
import Nalchi.Fields

/-! The reader's representation: the words, the scratch and the used bits in every
state of every history, and that one fetch is enough inside every read. -/
namespace Nalchi
namespace BitStreamReader
variable {e : Endian}

/-- The bits a `do_read` takes off the scratch: at once, or one half after the other. -/
def takes (t : IntType) (bits : Nat) : List Nat :=
  let lowBits := min bits 32
  if t.isBig then lowBits :: if 0 < bits - lowBits then [bits - lowBits] else [] else [bits]

/-- One take, as a step. -/
def take (e : Endian) (n : Nat) (r : BitStreamReader) : Except Fault BitStreamReader :=
  Prod.fst <$> r.takeScratch e n

/-- The one fetch, if it is made, brings enough bits and not more than the scratch holds. -/
def FetchSuffices (e : Endian) (n : Nat) (r : BitStreamReader) : Prop :=
  ∃ r', r.fetchIfShort e n = .ok r' ∧ n ≤ r'.scratchBits ∧ r'.scratchBits ≤ 63

theorem takeValue_eq_takes (t : IntType) (n : Nat) (r : BitStreamReader) :
    Prod.fst <$> r.takeValue e t n = Run.run (take e) (takes t n) r := by
  rw [takeValue, takes]
  by_cases hbig : t.isBig = true
  · simp only [if_pos hbig]
    rw [takeHalves, Run.run, take]
    cases hlow : r.takeScratch e (min n 32) with
    | error f => rfl
    | ok p =>
      by_cases hhigh : 0 < n - min n 32
      · simp only [Run.bind_ok, if_pos hhigh]
        cases hr : p.1.takeScratch e (n - min n 32) with
        | error f =>
          change _ = Run.run (take e) [n - min n 32] p.1
          rw [Run.run_singleton, take, hr]
          rfl
        | ok q =>
          change _ = Run.run (take e) [n - min n 32] p.1
          rw [Run.run_singleton, take, hr]
          rfl
      · simp only [Run.bind_ok, if_neg hhigh]
        rfl
  · rw [if_neg hbig, if_neg hbig, Run.run_singleton]
    rfl

theorem fetchSuffices_of_ahead (r : BitStreamReader) (h : r.Windowed) (n : Nat) (hn : n ≤ 32)
    (hlen : n ≤ (r.ahead e).length) : FetchSuffices e n r := by
  have h0 := h.wordsIndex_nonneg
  have h1 := h.bits_nonneg
  have h2 := h.bits_lt
  by_cases hshort : r.scratchBits < n
  · have hlt : r.wordsIndex < r.words.length := by
      rw [ahead, List.length_append, Bits.length_ofNat, length_memoryBits, List.length_drop] at hlen
      omega
    obtain ⟨x, hfetch, -⟩ := doFetchWordUnchecked_spec (e := e) r h hlt
    exact ⟨_, by rw [fetchIfShort, if_pos hshort, hfetch], by dsimp only; omega,
      by dsimp only; omega⟩
  · exact ⟨r, by rw [fetchIfShort, if_neg hshort], by omega, by omega⟩

/-- Takes of at most a word each, by induction on them. -/
theorem along_fetchSuffices (ns : List Nat) (r : BitStreamReader) (h : r.Windowed)
    (hn : ∀ n ∈ ns, n ≤ 32) (hlen : ns.sum ≤ (r.ahead e).length) :
    Run.Along (take e) (FetchSuffices e) ns r := by
  induction ns generalizing r with
  | nil => trivial
  | cons n ns ih =>
    have hn' := hn n (by simp)
    rw [List.sum_cons] at hlen
    refine ⟨fetchSuffices_of_ahead r h n hn' (by omega), fun r₁ hr₁ => ?_⟩
    obtain ⟨r₂, v, hr₂, -, ht⟩ := takeScratch_spec (e := e) r h n hn' (by omega)
    rw [take, hr₂] at hr₁
    obtain rfl : r₂ = r₁ := Except.ok.inj hr₁
    exact ih r₂ ht.windowed (fun m hm => hn m (by simp [hm]))
      (by rw [ht.ahead, List.length_drop]; omega)

theorem takes_spec (t : IntType) (n : Nat) (hn : n ≤ t.bits) :
    (∀ m ∈ takes t n, m ≤ 32) ∧ (takes t n).sum = n := by
  have h64 := t.bits_le
  rw [takes]
  by_cases hbig : t.isBig = true
  · simp only [if_pos hbig]
    by_cases hhigh : 0 < n - min n 32
    · rw [if_pos hhigh]
      refine ⟨fun m hm => ?_, by rw [List.sum_cons, List.sum_singleton]; omega⟩
      rw [List.mem_cons, List.mem_singleton] at hm
      omega
    · rw [if_neg hhigh]
      refine ⟨fun m hm => ?_, by rw [List.sum_singleton]; omega⟩
      rw [List.mem_singleton] at hm
      omega
  · simp only [if_neg hbig]
    simp only [IntType.isBig, decide_eq_true_eq] at hbig
    refine ⟨fun m hm => ?_, List.sum_singleton⟩
    rw [List.mem_singleton] at hm
    omega

end BitStreamReader

open BitStreamReader

/-- Past its checks the field is read by its takes, and one fetch is enough for each. -/
structure Field.Fetched (e : Endian) (f : Field) (r : BitStreamReader) : Prop where
  runs : Prod.fst <$> r.takeValue e f.t (f.t.rangeBits f.min f.max) =
    Run.run (take e) (takes f.t (f.t.rangeBits f.min f.max)) r
  enough : Run.Along (take e) (FetchSuffices e) (takes f.t (f.t.rangeBits f.min f.max)) r

/-- The `do_read<true>` calls of `read_string_length`, each with the state it is made in. -/
inductive LengthReads (e : Endian) (r : BitStreamReader) : Field → BitStreamReader → Prop where
  | kind (hf : r.fail = false) :
    LengthReads e r ⟨.uint32, IntType.uint32.cast 0, BitStreamWriter.minStrLenPrefixPrefix,
      BitStreamWriter.maxStrLenPrefixPrefix⟩ r
  | length {r₁ : BitStreamReader} {lenOfLen : IntType.uint32.Value}
      (h : r.doRead e true .uint32 (IntType.uint32.cast 0) BitStreamWriter.minStrLenPrefixPrefix
        BitStreamWriter.maxStrLenPrefixPrefix = .ok (r₁, lenOfLen)) (hf : r₁.fail = false) :
    LengthReads e r (.full (.unsigned (lengthClass lenOfLen.val.toNat)) (IntType.cast _ 0)) r₁

/-- The `do_read<checked>` calls of a read, each with the state it is made in. -/
inductive DoReads (e : Endian) (r : BitStreamReader) :
    ReadCall → Bool → Field → BitStreamReader → Prop where
  | int (t : IntType) (data min max : t.Value) :
    DoReads e r (.int t data min max) true ⟨t, data, min, max⟩ r
  | float (data : BitVec 32) :
    DoReads e r (.float data) true (.full .uint32 (IntType.uint32.cast 0)) r
  | double (data : BitVec 64) :
    DoReads e r (.double data) true (.full .uint64 (IntType.uint64.cast 0)) r
  | byte {data mem : Nat → IntType.uint8.Value} {size : SizeType} {i : Nat} {r₁ : BitStreamReader}
      (hf : r.fail = false) (hfit : ¬ r.logicalTotalBits < r.logicalUsedBits + 8 * size)
      (hi : i < size.toNat) (h : r.readArray e .uint8 0 i data = .ok (r₁, mem)) :
    DoReads e r (.block data size) false (.full .uint8 (mem i)) r₁
  | stringLength {c : CharType} {str : List c.Value} {maxLength : SizeType} {f : Field}
      {r₁ : BitStreamReader} (h : LengthReads e r f r₁) :
    DoReads e r (.string c str maxLength) true f r₁
  | char {c : CharType} {str xs : List c.Value} {maxLength : SizeType} {len : Int} {i : Nat}
      {ch : c.Value} {r₁ r₂ : BitStreamReader} (hlen : r.readStringLength e = .ok (r₁, len))
      (hmax : ¬ (len < 0 ∨ maxLength.toNat < len.toNat))
      (hfit : ¬ r₁.strOverflow (len.toNat * c.size))
      (h : r₁.readChars e c.intType ((resize c str len.toNat).take i) = .ok (r₂, xs))
      (hch : (resize c str len.toNat)[i]? = some ch) :
    DoReads e r (.string c str maxLength) false (.full c.intType ch) r₂
  | cstringLength {c : CharType} {mem : Nat → c.Value} {maxLength : SizeType} {f : Field}
      {r₁ : BitStreamReader} (h : LengthReads e r f r₁) :
    DoReads e r (.cstring c mem maxLength) true f r₁
  | cstringChar {c : CharType} {str mem : Nat → c.Value} {maxLength : SizeType} {len : Int}
      {i : Nat} {r₁ r₂ : BitStreamReader} (hlen : r.readStringLength e = .ok (r₁, len))
      (hmax : ¬ (len < 0 ∨ maxLength.toNat < len.toNat))
      (hfit : ¬ r₁.strOverflow (len.toNat * c.size)) (hi : i < len.toNat)
      (h : r₁.readArray e c.intType 0 i str = .ok (r₂, mem)) :
    DoReads e r (.cstring c str maxLength) false (.full c.intType (mem i)) r₂

/-- The checks of a `do_read<true>` let it through. -/
def Field.Passes (f : Field) (r : BitStreamReader) : Prop :=
  r.fail = false ∧ f.min.val < f.max.val ∧
    ¬ r.logicalTotalBits < r.logicalUsedBits + BitVec.ofNat 32 (f.t.rangeBits f.min f.max)

section
variable {e : Endian}

theorem Field.fetched (f : Field) (r : BitStreamReader) (h : r.Windowed)
    (hlen : f.t.rangeBits f.min f.max ≤ (r.ahead e).length) : f.Fetched e r := by
  obtain ⟨hn, hsum⟩ := takes_spec f.t _ (f.t.rangeBits_le f.min f.max)
  exact ⟨takeValue_eq_takes f.t _ r, along_fetchSuffices _ r h hn (by rw [hsum]; exact hlen)⟩

theorem Field.fetched_of_rest (f : Field) (r : BitStreamReader) (h : r.Synced e)
    (hlen : f.t.rangeBits f.min f.max ≤ (r.logicalRest e).length) : f.Fetched e r :=
  f.fetched r h.toWindowed (take_ahead r h _ hlen).1

theorem Field.fetched_of_passes (f : Field) (r : BitStreamReader) (h : r.Synced e)
    (ht : r.logicalTotalBits.toNat ≤ 8 * gnsMaxMsgRecvSize) (hp : f.Passes r) : f.Fetched e r := by
  refine f.fetched_of_rest r h ?_
  by_contra hlt
  exact hp.2.2 ((field_lack_iff r h ht f.t f.min f.max).mpr (by omega))

/-- A checked read that leaves the stream un-failed leaves it in step. -/
theorem synced_of_doRead (r r' : BitStreamReader) (h : r.Sound e)
    (ht : r.logicalTotalBits.toNat ≤ 8 * gnsMaxMsgRecvSize) (t : IntType) (data min max x : t.Value)
    (hr : r.doRead e true t data min max = .ok (r', x)) (hf' : r'.fail = false) :
    r'.Synced e ∧ r'.logicalTotalBits = r.logicalTotalBits := by
  by_cases hf : r.fail = true
  · rw [doRead, if_pos ⟨rfl, hf⟩] at hr
    obtain ⟨rfl, -⟩ := Prod.mk.inj (Except.ok.inj hr)
    exact absurd (hf.symm.trans hf') (by simp)
  have hf : r.fail = false := by simpa using hf
  have href := doRead_refines r (h.synced hf) hf t data min max
    fun _ => sumSound_rangeBits r h.used_le ht t min max
  cases hdec : decodeInt t min max (r.logicalRest e) with
  | ok p =>
    rw [hdec] at href
    obtain ⟨r₁, hr₁, ha⟩ := href
    obtain ⟨rfl, -⟩ := Run.ok_unique_pair hr₁ hr
    exact ⟨ha.synced, ha.total⟩
  | error n =>
    rw [hdec] at href
    obtain ⟨r₁, hr₁, hstop⟩ := href
    obtain ⟨rfl, -⟩ := Run.ok_unique_pair hr₁ hr
    exact absurd (hstop.fail.symm.trans hf') (by simp)

theorem synced_of_readStringLength (r r' : BitStreamReader) (h : r.Sound e)
    (ht : r.logicalTotalBits.toNat ≤ 8 * gnsMaxMsgRecvSize) (len : Int)
    (hr : r.readStringLength e = .ok (r', len)) (hlen : 0 ≤ len) : r'.Synced e ∧ len < 2 ^ 31 := by
  by_cases hf : r.fail = true
  · rw [readStringLength, if_pos hf] at hr
    obtain ⟨-, rfl⟩ := Prod.mk.inj (Except.ok.inj hr)
    omega
  have hf : r.fail = false := by simpa using hf
  obtain ⟨r₁, n, hr₁, hlt, hpass⟩ := readStringLength_spec r h hf ht
  obtain ⟨rfl, rfl⟩ := Run.ok_unique_pair hr₁ hr
  exact ⟨(hpass hlen).1, hlt⟩

theorem LengthReads.fetched {r r₁ : BitStreamReader} {f : Field} (h : r.Sound e)
    (ht : r.logicalTotalBits.toNat ≤ 8 * gnsMaxMsgRecvSize) (hm : LengthReads e r f r₁)
    (hp : f.Passes r₁) : f.Fetched e r₁ := by
  cases hm with
  | kind hf => exact Field.fetched_of_passes _ r (h.synced hf) ht hp
  | length hr hf =>
    obtain ⟨hs, htotal⟩ := synced_of_doRead r r₁ h ht _ _ _ _ _ hr hf
    exact Field.fetched_of_passes _ r₁ hs (by rw [htotal]; exact ht) hp

/-- Behind `i` of the `n` elements of a loop there is room for one more. -/
theorem fetched_of_loop (t : IntType) (x : t.Value) {r r₁ : BitStreamReader} {n i : Nat}
    (hi : i < n) (hn : n * fullWidth t ≤ (r.logicalRest e).length)
    (ha : Advanced e r r₁ ((r.logicalRest e).drop (i * fullWidth t))) :
    (Field.full t x).Fetched e r₁ := by
  have hmul := Nat.mul_le_mul_right (fullWidth t) (Nat.succ_le_of_lt hi)
  rw [Nat.succ_mul] at hmul
  refine Field.fetched_of_rest _ r₁ ha.synced ?_
  rw [ha.rest, List.length_drop]
  change t.rangeBits t.minValue t.maxValue ≤ _
  rw [← fullWidth_eq]
  omega

/-- One fetch is enough wherever a `do_read` gets past its checks, or has none to make. -/
theorem DoReads.fetched {r r₁ : BitStreamReader} {call : ReadCall} {checked : Bool} {f : Field}
    (h : r.Sound e) (ht : r.logicalTotalBits.toNat ≤ 8 * gnsMaxMsgRecvSize)
    (hc : call.WithinLimits) (hm : DoReads e r call checked f r₁)
    (hp : checked = true → f.Passes r₁) : f.Fetched e r₁ := by
  cases hm with
  | int t data min max =>
    exact Field.fetched_of_passes _ r (h.synced (hp rfl).1) ht (hp rfl)
  | float data => exact Field.fetched_of_passes _ r (h.synced (hp rfl).1) ht (hp rfl)
  | double data => exact Field.fetched_of_passes _ r (h.synced (hp rfl).1) ht (hp rfl)
  | @byte data mem size i _ hf hfit hi hr =>
    have hs := h.synced hf
    have hsum := (ReadCall.block data size).checkSound_of_withinLimits r h ht hc hf
    have hroom : ¬ (r.logicalRest e).length < 8 * size.toNat :=
      fun hlt => hfit ((lack_iff r hs (toNat_eight_mul size) hsum).mpr hlt)
    have h8 : fullWidth .uint8 = 8 := by decide
    obtain ⟨r₂, hr₂, ha⟩ := readArray_spec .uint8 0 i data r hs (by rw [h8]; omega)
    obtain ⟨rfl, -⟩ := Run.ok_unique_pair hr₂ hr
    exact fetched_of_loop .uint8 (mem i) hi (by rw [h8]; omega) ha
  | stringLength hl => exact hl.fetched h ht (hp rfl)
  | cstringLength hl => exact hl.fetched h ht (hp rfl)
  | @char c str xs maxLength len i ch r₀ _ hlen hmax hfit hr hch =>
    obtain ⟨hs, h31⟩ := synced_of_readStringLength r r₀ h ht len hlen (by omega)
    have hroom : ¬ (r₀.logicalRest e).length < 8 * (len.toNat * c.size) :=
      fun hlt => hfit ((strOverflow_iff r₀ hs c len h31).mpr hlt)
    have hi : i < len.toNat := by
      have hlt := (List.getElem?_eq_some_iff.mp hch).1
      rwa [length_resize] at hlt
    have htake : ((resize c str len.toNat).take i).length = i := by
      rw [List.length_take, length_resize]
      omega
    have hmul := Nat.mul_le_mul_right (fullWidth c.intType) hi.le
    rw [mul_fullWidth c len.toNat] at hmul
    obtain ⟨r₂, hr₂, ha⟩ := readChars_spec c.intType _ r₀ hs (by rw [htake]; omega)
    obtain ⟨rfl, -⟩ := Run.ok_unique_pair hr₂ hr
    rw [htake] at ha
    exact fetched_of_loop c.intType ch hi (by rw [mul_fullWidth]; omega) ha
  | @cstringChar c str mem maxLength len i r₀ _ hlen hmax hfit hi hr =>
    obtain ⟨hs, h31⟩ := synced_of_readStringLength r r₀ h ht len hlen (by omega)
    have hroom : ¬ (r₀.logicalRest e).length < 8 * (len.toNat * c.size) :=
      fun hlt => hfit ((strOverflow_iff r₀ hs c len h31).mpr hlt)
    have hmul := Nat.mul_le_mul_right (fullWidth c.intType) hi.le
    rw [mul_fullWidth c len.toNat] at hmul
    obtain ⟨r₂, hr₂, ha⟩ := readArray_spec c.intType 0 i str r₀ hs (by omega)
    obtain ⟨rfl, -⟩ := Run.ok_unique_pair hr₂ hr
    exact fetched_of_loop c.intType (mem i) hi (by rw [mul_fullWidth]; omega) ha

/-- The scratch of a reader in step holds the bits from the cursor to the end of the
last word fetched. -/
theorem BitStreamReader.Synced.scratch_eq {r : BitStreamReader} (h : r.Synced e)
    (hin : r.wordsIndex ≤ r.words.length) :
    32 * r.wordsIndex = r.logicalUsedBits.toNat + r.scratchBits ∧
      r.scratch.toNat = Bits.toNat (((memoryBits e r.words).take (32 * r.wordsIndex.toNat)).drop
        r.logicalUsedBits.toNat) := by
  have h0 := h.wordsIndex_nonneg
  have h1 := h.bits_nonneg
  have hle := h.used_le
  have hcap := h.capacity
  have hlen := congrArg List.length h.ahead_eq
  rw [ahead, List.length_append, Bits.length_ofNat, length_memoryBits, List.length_drop,
    List.length_drop, length_memoryBits] at hlen
  have htake := congrArg (List.take r.scratchBits.toNat) h.ahead_eq
  have hsum : r.logicalUsedBits.toNat + r.scratchBits.toNat = 32 * r.wordsIndex.toNat := by omega
  rw [ahead, List.take_left' (Bits.length_ofNat _ _)] at htake
  refine ⟨by omega, ?_⟩
  rw [← hsum, List.take_drop.symm, ← htake, Bits.toNat_ofNat, Nat.mod_eq_of_lt h.scratch_lt]

/-- Over every history: the used bits within the total, and while nothing has failed
the scratch in step with the buffer; and one fetch is enough inside every read. -/
theorem reader_representation (e : Endian) (r₀ : BitStreamReader) (span : WordSpan) (L : SizeType)
    (hb : (r₀.resetWith span L).fail = false) (hL : L.toNat ≤ gnsMaxMsgRecvSize)
    (ops : List ReaderOp) (hops : ∀ op ∈ ops, op.WithinLimits) :
    ∃ r, runOps e ops (r₀.resetWith span L) = .ok r ∧
      r.usedBits.toNat ≤ r.totalBits.toNat ∧
      r.unusedBits.toNat = r.totalBits.toNat - r.usedBits.toNat ∧
      r.usedBytes.toNat ≤ r.totalBytes.toNat ∧
      r.unusedBytes.toNat = r.totalBytes.toNat - r.usedBytes.toNat ∧
      (r.fail = false → 0 ≤ r.scratchBits ∧ r.scratchBits < 32 ∧
        r.scratch.toNat < 2 ^ r.scratchBits.toNat ∧
        32 * r.wordsIndex = r.usedBits.toNat + r.scratchBits ∧
        r.scratch.toNat = Bits.toNat (((memoryBits e span.words).take
          (32 * r.wordsIndex.toNat)).drop r.usedBits.toNat)) ∧
      (∀ (f : Field) (r₁ : BitStreamReader), LengthReads e r f r₁ → f.Passes r₁ → f.Fetched e r₁) ∧
      ∀ (call : ReadCall) (checked : Bool) (f : Field) (r₁ : BitStreamReader), call.WithinLimits →
        DoReads e r call checked f r₁ → (checked = true → f.Passes r₁) → f.Fetched e r₁ := by
  have hlimit : 8 * gnsMaxMsgRecvSize = 2 ^ 23 := by decide
  obtain ⟨r, hr, hs, ht⟩ := runOps_ok (e := e) hb hL hops
  have hle := hs.used_le
  have hmod := hs.total_mod
  have hbytes : r.usedBytes.toNat = (r.usedBits.toNat + 7) / 8 :=
    toNat_ceil_bytes r.logicalUsedBits (by omega)
  have htotal : r.totalBytes.toNat = r.totalBits.toNat / 8 := BitVec.toNat_udiv
  have hub : r.usedBits.toNat = r.logicalUsedBits.toNat := rfl
  have htb : r.totalBits.toNat = r.logicalTotalBits.toNat := rfl
  have hbl : r.usedBytes.toNat ≤ r.totalBytes.toNat := by omega
  obtain ⟨hin, hwords⟩ := runOps_frame staysInSpan_frame
    (fun r _ => ⟨Int.natCast_nonneg _, rfl⟩) ops hr (Int.natCast_nonneg _)
  refine ⟨r, hr, hle, BitVec.toNat_sub_of_le hle, hbl, BitVec.toNat_sub_of_le hbl, fun hf => ?_,
    fun f r₁ hl hp => hl.fetched hs ht hp, fun call checked f r₁ hc hd hp => hd.fetched hs ht hc hp⟩
  have hsync := hs.synced hf
  obtain ⟨hpos, hscratch⟩ := hsync.scratch_eq hin
  rw [hwords] at hscratch
  exact ⟨hsync.bits_nonneg, hsync.bits_lt, hsync.scratch_lt, hpos, hscratch⟩

/-- "AB" behind a byte. The second character straddles two words: six of its bits are in the
scratch when its turn comes, and one fetch brings the other two. -/
theorem reader_representation_string :
    ∃ r, runOps .little [.read (.int .uint8 ⟨0, by decide⟩ ⟨0, by decide⟩ ⟨255, by decide⟩)]
        ((default : BitStreamReader).resetWith ⟨false, [0x09040807, 1]⟩ 8) = .ok r ∧
      32 * r.wordsIndex = r.usedBits.toNat + r.scratchBits ∧
      (Field.full .uint8 ⟨0, by decide⟩).Fetched .little
        ⟨2, [0x09040807, 1], 6, 1, 64, 26, false, false⟩ := by
  obtain ⟨r, hr, -, -, -, -, hinv, -, hreads⟩ := reader_representation .little default
    ⟨false, [0x09040807, 1]⟩ 8 (by decide) (by decide)
    [.read (.int .uint8 ⟨0, by decide⟩ ⟨0, by decide⟩ ⟨255, by decide⟩)] (by decide)
  have hok : runOps .little [.read (.int .uint8 ⟨0, by decide⟩ ⟨0, by decide⟩ ⟨255, by decide⟩)]
      ((default : BitStreamReader).resetWith ⟨false, [0x09040807, 1]⟩ 8) =
        .ok ⟨0x090408, [0x09040807, 1], 24, 1, 64, 8, false, false⟩ := by decide
  obtain rfl := Run.ok_unique hok hr
  have hlen : BitStreamReader.readStringLength .little
      ⟨0x090408, [0x09040807, 1], 24, 1, 64, 8, false, false⟩ =
    .ok (⟨0x241, [0x09040807, 1], 14, 1, 64, 18, false, false⟩, 2) := by decide
  have hfirst : BitStreamReader.readChars .little .uint8 [⟨0, by decide⟩]
      ⟨0x241, [0x09040807, 1], 14, 1, 64, 18, false, false⟩ =
    .ok (⟨2, [0x09040807, 1], 6, 1, 64, 26, false, false⟩, [⟨65, by decide⟩]) := by decide
  have hchar : DoReads .little ⟨0x090408, [0x09040807, 1], 24, 1, 64, 8, false, false⟩
      (.string .char8 [] 9) false (.full .uint8 ⟨0, by decide⟩)
      ⟨2, [0x09040807, 1], 6, 1, 64, 26, false, false⟩ :=
    .char (i := 1) hlen (by decide) (by decide) hfirst rfl
  exact ⟨_, hr, (hinv rfl).2.2.2.1, hreads (.string .char8 [] 9) false _ _ trivial hchar (by simp)⟩

end
end Nalchi
