import Nalchi.LengthPrefix

/-! What a string read asks of its destination. -/
namespace Nalchi
open BitStreamReader

/-- The calls of `resize` in `read(std::basic_string&, size_type)`. -/
inductive Resizes (e : Endian) (c : CharType) (maxLength : SizeType) (r : BitStreamReader) :
    Int → Prop where
  | resize {r₁ : BitStreamReader} {len : Int} (hf : r.fail = false)
      (hlen : r.readStringLength e = .ok (r₁, len))
      (hmax : ¬ (len < 0 ∨ maxLength.toNat < len.toNat))
      (hfit : ¬ r₁.strOverflow (len.toNat * c.size)) : Resizes e c maxLength r len

/-- The stores of `read(CharT*, size_type)`, by their index and value. -/
inductive Stores (e : Endian) {c : CharType} (str : Nat → c.Value) (maxLength : SizeType)
    (r : BitStreamReader) : Nat → c.Value → Prop where
  | char {r₁ r₂ r₃ : BitStreamReader} {len : Int} {i : Nat} {mem : Nat → c.Value} {ch : c.Value}
      (hf : r.fail = false) (hlen : r.readStringLength e = .ok (r₁, len))
      (hmax : ¬ (len < 0 ∨ maxLength.toNat < len.toNat))
      (hfit : ¬ r₁.strOverflow (len.toNat * c.size)) (hi : i < len.toNat)
      (h : r₁.readArray e c.intType 0 i str = .ok (r₂, mem))
      (hch : r₂.doReadFull e false c.intType (mem i) = .ok (r₃, ch)) : Stores e str maxLength r i ch
  | terminator {r₁ r₂ : BitStreamReader} {len : Int} {mem : Nat → c.Value}
      (hf : r.fail = false) (hlen : r.readStringLength e = .ok (r₁, len))
      (hmax : ¬ (len < 0 ∨ maxLength.toNat < len.toNat))
      (hfit : ¬ r₁.strOverflow (len.toNat * c.size))
      (h : r₁.readArray e c.intType 0 len.toNat str = .ok (r₂, mem)) :
      Stores e str maxLength r len.toNat (c.intType.cast 0)

section
variable {e : Endian}

/-- The conditions both reads put before they touch anything, on a length that is read. -/
theorem touches_iff (r : BitStreamReader) (h : r.Sound e) (hf : r.fail = false)
    (ht : r.logicalTotalBits.toNat ≤ 8 * gnsMaxMsgRecvSize) {rp : BitStreamReader} {len : Int}
    (hlen : r.readStringLength e = .ok (rp, len)) (c : CharType) (maxLength : SizeType) :
    (¬ (len < 0 ∨ maxLength.toNat < len.toNat) ∧ ¬ rp.strOverflow (len.toNat * c.size)) ↔
      ¬ (len < 0 ∨ maxLength.toNat < len.toNat ∨
        rp.unusedBits.toNat < len.toNat * (8 * c.size)) := by
  obtain ⟨r₁, n, hr₁, hlt, hpass⟩ := readStringLength_spec r h hf ht
  obtain ⟨rfl, rfl⟩ := Run.ok_unique_pair hr₁ hlen
  by_cases hneg : n < 0
  · tauto
  have hs := (hpass (by omega)).1
  rw [strOverflow_iff r₁ hs c n hlt, toNat_unusedBits r₁ hs, Nat.mul_left_comm n.toNat 8]
  tauto

/-- The characters stored one after the other are those the loop delivers. -/
theorem stores_char_iff (t : IntType) (n i : Nat) (hi : i < n) (str : Nat → t.Value)
    (r : BitStreamReader) (h : r.Synced e) (hn : n * fullWidth t ≤ (r.logicalRest e).length)
    (x : t.Value) :
    (∃ r₂ mem r₃, r.readArray e t 0 i str = .ok (r₂, mem) ∧
      r₂.doReadFull e false t (mem i) = .ok (r₃, x)) ↔
    (takeValues t n (r.logicalRest e))[i]? = some x := by
  have hmul := Nat.mul_le_mul_right (fullWidth t) (Nat.succ_le_of_lt hi)
  rw [Nat.succ_mul] at hmul
  obtain ⟨r₂, hr₂, ha⟩ := readArray_spec t 0 i str r h (by omega)
  obtain ⟨r₃, hr₃, -⟩ := doReadFull_unchecked r₂ ha.synced t (str i)
    (by rw [ha.rest, List.length_drop]; omega)
  rw [ha.rest] at hr₃
  rw [getElem?_takeValues t n _ i hi]
  constructor
  · rintro ⟨r₂', mem, r₃', hr₂', hr₃'⟩
    obtain ⟨rfl, rfl⟩ := Run.ok_unique_pair hr₂ hr₂'
    rw [doReadFull_data t _ (str i), hr₃] at hr₃'
    exact congrArg some (Prod.mk.inj (Except.ok.inj hr₃')).2
  · intro hx
    refine ⟨r₂, _, r₃, hr₂, ?_⟩
    rw [doReadFull_data t _ (str i), hr₃, Option.some.inj hx]

theorem resizes_iff (r : BitStreamReader) (h : r.Sound e) (hf : r.fail = false)
    (ht : r.logicalTotalBits.toNat ≤ 8 * gnsMaxMsgRecvSize) {rp : BitStreamReader} {len : Int}
    (hlen : r.readStringLength e = .ok (rp, len)) (c : CharType) (maxLength : SizeType) (m : Int) :
    Resizes e c maxLength r m ↔
      ¬ (len < 0 ∨ maxLength.toNat < len.toNat ∨
        rp.unusedBits.toNat < len.toNat * (8 * c.size)) ∧ m = len := by
  rw [← touches_iff r h hf ht hlen c maxLength]
  constructor
  · rintro ⟨-, hlen₁, hmax, hfit⟩
    obtain ⟨rfl, rfl⟩ := Run.ok_unique_pair hlen hlen₁
    exact ⟨⟨hmax, hfit⟩, rfl⟩
  · rintro ⟨⟨hmax, hfit⟩, rfl⟩
    exact .resize hf hlen hmax hfit

theorem stores_iff (r : BitStreamReader) (h : r.Sound e) (hf : r.fail = false)
    (ht : r.logicalTotalBits.toNat ≤ 8 * gnsMaxMsgRecvSize) {rp : BitStreamReader} {len : Int}
    (hlen : r.readStringLength e = .ok (rp, len)) {c : CharType} (mem : Nat → c.Value)
    (maxLength : SizeType) (i : Nat) (x : c.Value) :
    Stores e mem maxLength r i x ↔
      ¬ (len < 0 ∨ maxLength.toNat < len.toNat ∨
        rp.unusedBits.toNat < len.toNat * (8 * c.size)) ∧
      (takeValues c.intType len.toNat (rp.logicalRest e) ++ [c.intType.cast 0])[i]? = some x := by
  have hn := length_takeValues c.intType len.toNat (rp.logicalRest e)
  have hwidth := mul_fullWidth c len.toNat
  have htouch := touches_iff r h hf ht hlen c maxLength
  obtain ⟨r₁, n, hr₁, -, hpass⟩ := readStringLength_spec r h hf ht
  obtain ⟨rfl, rfl⟩ := Run.ok_unique_pair hr₁ hlen
  have hroom (hok : ¬ (n < 0 ∨ maxLength.toNat < n.toNat ∨
      r₁.unusedBits.toNat < n.toNat * (8 * c.size))) :
      r₁.Synced e ∧ n.toNat * fullWidth c.intType ≤ (r₁.logicalRest e).length := by
    have hs := (hpass (by omega)).1
    rw [← toNat_unusedBits r₁ hs, hwidth, Nat.mul_left_comm 8]
    exact ⟨hs, by omega⟩
  constructor
  · rintro (⟨-, hlen₁, hmax, hfit, hi, hloop, hch⟩ | ⟨-, hlen₁, hmax, hfit, -⟩) <;>
      obtain ⟨rfl, rfl⟩ := Run.ok_unique_pair hlen hlen₁
    · have hok := htouch.mp ⟨hmax, hfit⟩
      obtain ⟨hs, hle⟩ := hroom hok
      rw [List.getElem?_append_left (by omega)]
      exact ⟨hok, (stores_char_iff c.intType _ i hi mem r₁ hs hle x).mp ⟨_, _, _, hloop, hch⟩⟩
    · rw [List.getElem?_append_right (by omega), hn, Nat.sub_self]
      exact ⟨htouch.mp ⟨hmax, hfit⟩, rfl⟩
  · rintro ⟨hok, hx⟩
    obtain ⟨hmax, hfit⟩ := htouch.mpr hok
    obtain ⟨hs, hle⟩ := hroom hok
    by_cases hi : i < n.toNat
    · rw [List.getElem?_append_left (by omega)] at hx
      obtain ⟨r₂, mem₂, r₃, hloop, hch⟩ :=
        (stores_char_iff c.intType _ i hi mem r₁ hs hle x).mpr hx
      exact .char hf hlen hmax hfit hi hloop hch
    · have hlast := (List.getElem?_eq_some_iff.mp hx).1
      rw [List.length_append, hn, List.length_singleton] at hlast
      obtain rfl : n.toNat = i := by omega
      rw [List.getElem?_append_right (by omega), hn, Nat.sub_self] at hx
      obtain ⟨r₂, hloop, -⟩ := readArray_spec c.intType 0 n.toNat mem r₁ hs hle
      rw [← Option.some.inj hx]
      exact .terminator hf hlen hmax hfit hloop

end

/-- Both reads fail. Nothing is resized or stored, whatever there is. -/
structure StringsRefused (e : Endian) (c : CharType) (maxLength : SizeType)
    (r r' : BitStreamReader) : Prop where
  fail : r'.fail = true
  string : ∀ str : List c.Value, r.readString e c str maxLength = .ok (r', str)
  cstring : ∀ mem : Nat → c.Value, r.readCString e c mem maxLength = .ok (r', mem)
  resizes : ∀ n, ¬ Resizes e c maxLength r n
  stores : ∀ (mem : Nat → c.Value) (i : Nat) (x : c.Value), ¬ Stores e mem maxLength r i x

/-- Both reads deliver `xs`, which were there and allowed. -/
structure StringsDelivered (e : Endian) {c : CharType} (maxLength : SizeType)
    (r r' rp : BitStreamReader) (xs : List c.Value) : Prop where
  fail : r'.fail = false
  length : r.readStringLength e = .ok (rp, (xs.length : Int))
  allowed : xs.length ≤ maxLength.toNat
  inside : xs.length * (8 * c.size) ≤ rp.unusedBits.toNat
  string : ∀ str : List c.Value, r.readString e c str maxLength = .ok (r', xs)
  cstring : ∀ mem : Nat → c.Value,
    r.readCString e c mem maxLength = .ok (r', overlay mem (xs ++ [c.intType.cast 0]))
  resizes : ∀ n, Resizes e c maxLength r n ↔ n = xs.length
  stores : ∀ (mem : Nat → c.Value) (i : Nat) (x : c.Value),
    Stores e mem maxLength r i x ↔ (xs ++ [c.intType.cast 0])[i]? = some x

section
variable {e : Endian} {r₀ r : BitStreamReader} {span : WordSpan} {L : SizeType}

/-- The end of both reads does not depend on what their destinations held. -/
theorem strings_of_sound (h : r.Sound e) (hf : r.fail = false)
    (ht : r.logicalTotalBits.toNat ≤ 8 * gnsMaxMsgRecvSize) (c : CharType) (maxLength : SizeType) :
    (∃ r', StringsRefused e c maxLength r r') ∨
      ∃ (r' rp : BitStreamReader) (xs : List c.Value), StringsDelivered e maxLength r r' rp xs := by
  obtain ⟨rp, len, hlen, -⟩ := readStringLength_spec r h hf ht
  have hspec := fun (str : List c.Value) (mem : Nat → c.Value) =>
    strings_spec r h hf ht hlen c str mem maxLength
  have hresize := resizes_iff r h hf ht hlen c maxLength
  have hstore := fun mem : Nat → c.Value => stores_iff r h hf ht hlen mem maxLength
  have zeros : Nat → c.Value := fun _ => c.intType.cast 0
  by_cases hbad : len < 0 ∨ maxLength.toNat < len.toNat ∨
      rp.unusedBits.toNat < len.toNat * (8 * c.size)
  · simp only [if_pos hbad] at hspec
    exact .inl ⟨_, rfl, fun str => (hspec str zeros).1,
      fun mem => (hspec [] mem).2, fun n hn => ((hresize n).mp hn).1 hbad,
      fun mem i x hx => ((hstore mem i x).mp hx).1 hbad⟩
  simp only [if_neg hbad] at hspec
  have hcast := Int.toNat_of_nonneg (show 0 ≤ len by omega)
  have hxs := length_takeValues c.intType len.toNat (rp.logicalRest e)
  obtain ⟨-, r', hf', -, hstring, hcstring⟩ := hspec [] zeros
  refine .inr ⟨r', rp, takeValues c.intType len.toNat (rp.logicalRest e), hf', by rw [hxs, hcast, hlen],
    by omega, by rw [hxs]; omega, fun str => ?_, fun mem => ?_, fun n => ?_, fun mem i x => ?_⟩
  · obtain ⟨-, r'', -, -, hstr, hmem⟩ := hspec str zeros
    obtain ⟨rfl, -⟩ := Run.ok_unique_pair hcstring hmem
    exact hstr
  · obtain ⟨-, r'', -, -, hstr, hmem⟩ := hspec [] mem
    obtain ⟨rfl, -⟩ := Run.ok_unique_pair hstring hstr
    exact hmem
  · rw [hresize, hxs, hcast, and_iff_right hbad]
  · rw [hstore, and_iff_right hbad]

theorem strings_of_reachable (hL : L.toNat ≤ gnsMaxMsgRecvSize) {ops : List ReaderOp}
    (hops : ∀ op ∈ ops, op.WithinLimits) (hr : runOps e ops (r₀.resetWith span L) = .ok r)
    (c : CharType) (maxLength : SizeType) :
    (∃ r', StringsRefused e c maxLength r r') ∨
      ∃ (r' rp : BitStreamReader) (xs : List c.Value), StringsDelivered e maxLength r r' rp xs := by
  by_cases hf : r.fail = true
  · refine .inl ⟨r, hf, fun str => by rw [readString, if_pos hf],
      fun mem => by rw [readCString, if_pos hf], ?_, ?_⟩
    · rintro n ⟨hno, -⟩
      exact absurd (hf.symm.trans hno) (by simp)
    · rintro mem i x (⟨hno, -⟩ | ⟨hno, -⟩) <;> exact absurd (hf.symm.trans hno) (by simp)
  · have hf : r.fail = false := by simpa using hf
    obtain ⟨hsound, ht⟩ := reachable_sound hL hops hr hf
    exact strings_of_sound hsound hf ht c maxLength

/-- `Resizes` is what the read does: a string is resized to `n` exactly when the read leaves `n`
characters in it, however many it had. -/
theorem resizes_iff_length (hL : L.toNat ≤ gnsMaxMsgRecvSize) {ops : List ReaderOp}
    (hops : ∀ op ∈ ops, op.WithinLimits) (hr : runOps e ops (r₀.resetWith span L) = .ok r)
    (c : CharType) (maxLength : SizeType) (n : Int) :
    Resizes e c maxLength r n ↔ ∀ str : List c.Value, ∃ r' str',
      r.readString e c str maxLength = .ok (r', str') ∧ (str'.length : Int) = n := by
  obtain ⟨r', h⟩ | ⟨r', rp, xs, h⟩ := strings_of_reachable hL hops hr c maxLength
  · refine iff_of_false (h.resizes n) fun hall => ?_
    have hlength (str : List c.Value) : (str.length : Int) = n := by
      obtain ⟨r'', str', hstr', hlen⟩ := hall str
      obtain ⟨-, rfl⟩ := Run.ok_unique_pair (h.string str) hstr'
      exact hlen
    exact absurd ((hlength []).trans (hlength [c.intType.cast 0]).symm) (by simp)
  · rw [h.resizes n]
    constructor
    · rintro rfl str
      exact ⟨r', xs, h.string str, rfl⟩
    · intro hall
      obtain ⟨r'', str', hstr', hlen⟩ := hall []
      obtain ⟨-, rfl⟩ := Run.ok_unique_pair (h.string []) hstr'
      exact hlen.symm

/-- `Stores` is what the read does: it stores `x` at `i` exactly when it leaves `x` there, whatever
the memory held. -/
theorem stores_iff_memory (hL : L.toNat ≤ gnsMaxMsgRecvSize) {ops : List ReaderOp}
    (hops : ∀ op ∈ ops, op.WithinLimits) (hr : runOps e ops (r₀.resetWith span L) = .ok r)
    {c : CharType} (mem : Nat → c.Value) (maxLength : SizeType) (i : Nat) (x : c.Value) :
    Stores e mem maxLength r i x ↔ ∀ mem₀ : Nat → c.Value, ∃ r' mem',
      r.readCString e c mem₀ maxLength = .ok (r', mem') ∧ mem' i = x := by
  -- a cell that is left alone can hold two values
  have hvaries (hkept : ∀ y : c.Value, y = x) : False := by
    have hne : c.intType.minValue.val < c.intType.maxValue.val :=
      (Field.inRange_full (t := c.intType) x).1
    rw [hkept c.intType.minValue, hkept c.intType.maxValue] at hne
    exact lt_irrefl _ hne
  obtain ⟨r', h⟩ | ⟨r', rp, xs, h⟩ := strings_of_reachable hL hops hr c maxLength
  · refine iff_of_false (h.stores mem i x) fun hall => hvaries fun y => ?_
    obtain ⟨r'', mem', hmem', hx⟩ := hall fun _ => y
    obtain ⟨-, rfl⟩ := Run.ok_unique_pair (h.cstring fun _ => y) hmem'
    exact hx
  · rw [h.stores mem i x]
    constructor
    · intro hx mem₀
      refine ⟨r', _, h.cstring mem₀, ?_⟩
      rw [overlay, hx]
      rfl
    · intro hall
      have hcell (y : c.Value) : (xs ++ [c.intType.cast 0])[i]?.getD y = x := by
        obtain ⟨r'', mem', hmem', hx⟩ := hall fun _ => y
        obtain ⟨-, rfl⟩ := Run.ok_unique_pair (h.cstring fun _ => y) hmem'
        exact hx
      cases hget : (xs ++ [c.intType.cast 0])[i]? with
      | some z => rw [← hcell x, hget, Option.getD_some]
      | none =>
        simp only [hget, Option.getD_none] at hcell
        exact (hvaries hcell).elim

end

/-- In every state a stream can reach, the two string reads come to the same end. If
they fail, nothing was resized or stored; else `n` characters were there and allowed,
the string was resized to `n`, and the array stored to at `0 .. n` with the terminator
behind the characters. -/
theorem string_read_bounded (e : Endian) (r₀ : BitStreamReader) (span : WordSpan) (L : SizeType)
    (hL : L.toNat ≤ gnsMaxMsgRecvSize) (ops : List ReaderOp) (hops : ∀ op ∈ ops, op.WithinLimits)
    (r : BitStreamReader) (hr : runOps e ops (r₀.resetWith span L) = .ok r) (c : CharType)
    (str : List c.Value) (mem : Nat → c.Value) (maxLength : SizeType) :
    ∃ r' str' mem', r.readString e c str maxLength = .ok (r', str') ∧
      r.readCString e c mem maxLength = .ok (r', mem') ∧
      (r'.fail = true → str' = str ∧ mem' = mem ∧ (∀ n, ¬ Resizes e c maxLength r n) ∧
        ∀ i x, ¬ Stores e mem maxLength r i x) ∧
      (r'.fail = false → ∃ (rp : BitStreamReader) (n : Nat),
        r.readStringLength e = .ok (rp, (n : Int)) ∧
        n ≤ maxLength.toNat ∧ n * (8 * c.size) ≤ rp.unusedBits.toNat ∧ str'.length = n ∧
        (∀ m, Resizes e c maxLength r m ↔ m = n) ∧
        (∀ i x, Stores e mem maxLength r i x ↔ (str' ++ [c.intType.cast 0])[i]? = some x) ∧
        mem' = overlay mem (str' ++ [c.intType.cast 0])) := by
  obtain ⟨r', h⟩ | ⟨r', rp, xs, h⟩ := strings_of_reachable hL hops hr c maxLength
  · exact ⟨r', str, mem, h.string str, h.cstring mem, fun _ => ⟨rfl, rfl, h.resizes, h.stores mem⟩,
      fun hno => absurd (h.fail.symm.trans hno) (by simp)⟩
  · exact ⟨r', xs, _, h.string str, h.cstring mem,
      fun hno => absurd (h.fail.symm.trans hno) (by simp), fun _ => ⟨rp, xs.length, h.length,
        h.allowed, h.inside, rfl, h.resizes, h.stores mem, rfl⟩⟩

/-- Two characters, read with room for two. -/
theorem string_read_bounded_small : ∃ r' str',
    ((default : BitStreamReader).resetWith ⟨false, [0x185a008]⟩ 4).readString .little .char8 [] 2 =
      .ok (r', str') ∧ str'.length = 2 ∧
    ∀ m, Resizes .little .char8 2
      ((default : BitStreamReader).resetWith ⟨false, [0x185a008]⟩ 4) m ↔ m = 2 := by
  obtain ⟨r', str', mem', hr', -, -, hread⟩ := string_read_bounded .little default
    ⟨false, [0x185a008]⟩ 4 (by decide) [] (by simp) _ rfl .char8 [] (fun _ => ⟨0, by decide⟩) 2
  obtain ⟨rfl, -⟩ := Run.ok_unique_pair hr' rfl
  obtain ⟨rp, n, hlen, -, -, hstr, hresize, -⟩ := hread (by decide)
  obtain ⟨-, hn⟩ := Run.ok_unique_pair hlen rfl
  obtain rfl : n = 2 := Int.ofNat.inj hn
  exact ⟨_, str', hr', hstr, hresize⟩

end Nalchi
