import Nalchi.Fetching

/-! The reader as a cursor: between reads, what it has ahead is what lies in the
buffer behind its used bits, and it ends at the logical total. -/
namespace Nalchi.BitStreamReader
variable {e : Endian}

/-- The bits between the cursor and the logical end. -/
def logicalRest (e : Endian) (r : BitStreamReader) : List Bool :=
  ((memoryBits e r.words).take r.logicalTotalBits.toNat).drop r.logicalUsedBits.toNat

/-- The representation between two reads of a stream that has not failed. -/
structure Synced (e : Endian) (r : BitStreamReader) : Prop extends Windowed r where
  ahead_eq : r.ahead e = (memoryBits e r.words).drop r.logicalUsedBits.toNat
  used_le : r.logicalUsedBits.toNat ≤ r.logicalTotalBits.toNat
  capacity : r.logicalTotalBits.toNat ≤ 32 * r.words.length
  total_mod : r.logicalTotalBits.toNat % 8 = 0

/-- `r'` is `r` with the cursor moved on so that `rest` is left. -/
structure Advanced (e : Endian) (r r' : BitStreamReader) (rest : List Bool) : Prop where
  synced : r'.Synced e
  rest : r'.logicalRest e = rest
  used_mono : r.logicalUsedBits.toNat ≤ r'.logicalUsedBits.toNat
  words : r'.words = r.words
  total : r'.logicalTotalBits = r.logicalTotalBits
  initFail : r'.initFail = r.initFail
  fail : r'.fail = r.fail

/-- `r'` is `r` failed, after the cursor went `n` bits. -/
structure Stopped (r r' : BitStreamReader) (n : Nat) : Prop where
  windowed : r'.Windowed
  used : r'.logicalUsedBits.toNat = r.logicalUsedBits.toNat + n
  used_le : r'.logicalUsedBits.toNat ≤ r'.logicalTotalBits.toNat
  words : r'.words = r.words
  total : r'.logicalTotalBits = r.logicalTotalBits
  initFail : r'.initFail = r.initFail
  fail : r'.fail = true

theorem length_logicalRest (r : BitStreamReader) (h : r.Synced e) :
    (r.logicalRest e).length = r.logicalTotalBits.toNat - r.logicalUsedBits.toNat := by
  have hcap := h.capacity
  rw [logicalRest, List.length_drop, List.length_take, length_memoryBits, Nat.min_eq_left hcap]

theorem toNat_unusedBits (r : BitStreamReader) (h : r.Synced e) :
    r.unusedBits.toNat = (r.logicalRest e).length := by
  rw [length_logicalRest r h]
  exact BitVec.toNat_sub_of_le h.used_le

/-- Where the cursor is, told from what is left. -/
theorem Advanced.used {r r' : BitStreamReader} {rest : List Bool} (h : Advanced e r r' rest) :
    r'.logicalUsedBits.toNat + rest.length = r.logicalTotalBits.toNat := by
  have hle := h.synced.used_le
  rw [← h.rest, length_logicalRest r' h.synced, ← h.total]
  omega

theorem Advanced.refl {r : BitStreamReader} (h : r.Synced e) : Advanced e r r (r.logicalRest e) :=
  ⟨h, rfl, le_refl _, rfl, rfl, rfl, rfl⟩

theorem Advanced.trans {u v w : BitStreamReader} {rest rest' : List Bool}
    (h : Advanced e u v rest) (h' : Advanced e v w rest') : Advanced e u w rest' :=
  ⟨h'.synced, h'.rest, h.used_mono.trans h'.used_mono, h'.words.trans h.words, h'.total.trans h.total,
    h'.initFail.trans h.initFail, h'.fail.trans h.fail⟩

/-- Failing on the spot. -/
theorem Stopped.setFail {r : BitStreamReader} (h : r.Synced e) :
    Stopped r { r with fail := true } 0 :=
  ⟨⟨h.1.1, h.1.2, h.1.3, h.1.4⟩, rfl, h.used_le, rfl, rfl, rfl, rfl⟩

/-- Failing some way on. -/
theorem Advanced.stopped {r r₁ r' : BitStreamReader} {rest : List Bool} {n : Nat}
    (hr : r.Synced e) (h : Advanced e r r₁ rest) (h' : Stopped r₁ r' n) :
    Stopped r r' ((r.logicalRest e).length - rest.length + n) := by
  have hu := h.used
  have hu' := h'.used
  have hm := h.used_mono
  have hl := length_logicalRest r hr
  exact ⟨h'.windowed, by omega, h'.used_le, h'.words.trans h.words, h'.total.trans h.total,
    h'.initFail.trans h.initFail, h'.fail⟩

/-- The window shows the logical rest before anything behind the logical end. -/
theorem take_ahead (r : BitStreamReader) (h : r.Synced e) (n : Nat)
    (hn : n ≤ (r.logicalRest e).length) :
    n ≤ (r.ahead e).length ∧ (r.ahead e).take n = (r.logicalRest e).take n := by
  have hcap := h.capacity
  rw [length_logicalRest r h] at hn
  rw [h.ahead_eq, logicalRest, List.length_drop, length_memoryBits, List.drop_take,
    List.take_take, Nat.min_eq_left (by omega)]
  exact ⟨by omega, rfl⟩

theorem toNat_add_used (r : BitStreamReader) (h : r.Synced e) (n : Nat)
    (hn : n ≤ (r.logicalRest e).length) : (r.logicalUsedBits + BitVec.ofNat 32 n).toNat =
      r.logicalUsedBits.toNat + n := by
  have ht := r.logicalTotalBits.isLt
  have hle := h.used_le
  rw [length_logicalRest r h] at hn
  rw [BitVec.toNat_add, BitVec.toNat_ofNat]
  omega

/-- Counting the bits taken brings the cursor in step again. -/
theorem Takes.advanced {r r' : BitStreamReader} {n : Nat} (h : r.Synced e) (ht : Takes e r r' n)
    (hn : n ≤ (r.logicalRest e).length) :
    Advanced e r { r' with logicalUsedBits := r'.logicalUsedBits + BitVec.ofNat 32 n }
      ((r.logicalRest e).drop n) := by
  have hw := ht.windowed
  have hu := toNat_add_used r h n hn
  have hl := length_logicalRest r h
  have hle := h.used_le
  rw [← ht.used] at hu
  refine ⟨⟨⟨hw.1, hw.2, hw.3, hw.4⟩, ?_, ?_, ?_, ?_⟩, ?_, ?_, ht.words, ht.total, ht.initFail, ht.fail⟩
  · change r'.ahead e =
      (memoryBits e r'.words).drop (r'.logicalUsedBits + BitVec.ofNat 32 n).toNat
    rw [hu, ht.words, ht.used, ← List.drop_drop, ← h.ahead_eq, ht.ahead]
  · dsimp only
    rw [hu, ht.total, ht.used]
    omega
  · dsimp only
    rw [ht.total, ht.words]
    exact h.capacity
  · dsimp only
    rw [ht.total]
    exact h.total_mod
  · rw [logicalRest]
    dsimp only
    rw [hu, ht.words, ht.total, ht.used, ← List.drop_drop]
    rfl
  · dsimp only
    rw [hu, ht.used]
    omega

/-- An unchecked read delivers the field at the cursor. -/
theorem doRead_unchecked (r : BitStreamReader) (h : r.Synced e) (t : IntType)
    (data min max : t.Value) (hn : t.rangeBits min max ≤ (r.logicalRest e).length) :
    ∃ r', r.doRead e false t data min max = .ok (r',
        t.cast (min.val + (Bits.toNat ((r.logicalRest e).take (t.rangeBits min max)) : Nat))) ∧
      Advanced e r r' ((r.logicalRest e).drop (t.rangeBits min max)) := by
  have hbits := t.rangeBits_le min max
  obtain ⟨hlen, htake⟩ := take_ahead r h _ hn
  obtain ⟨r₁, v, hr₁, hv, ht⟩ := takeValue_spec (e := e) r h.toWindowed t _ hbits hlen
  refine ⟨_, ?_, Takes.advanced h ht hn⟩
  rw [htake] at hv
  simp only [doRead, Bool.false_eq_true, false_and, if_false, hr₁, Run.bind_ok]
  rw [restore_take t _ hbits _ v hv]
  rfl

/-- `_logical_used_bits + n` cannot wrap round to a sum that passes. -/
def SumSound (r : BitStreamReader) (n : Nat) : Prop :=
  (r.logicalUsedBits.toNat + n) % 2 ^ 32 ≤ r.logicalTotalBits.toNat →
    r.logicalUsedBits.toNat + n ≤ r.logicalTotalBits.toNat

instance (r : BitStreamReader) (n : Nat) : Decidable (r.SumSound n) :=
  inferInstanceAs (Decidable (_ → _))

/-- The check for missing data, when its sum is sound. -/
theorem lack_iff (r : BitStreamReader) (h : r.Synced e) {n : SizeType} {m : Nat}
    (hnm : n.toNat = m % 2 ^ 32) (hs : r.SumSound m) :
    r.logicalTotalBits < r.logicalUsedBits + n ↔ (r.logicalRest e).length < m := by
  have hle := h.used_le
  have hmod := Nat.mod_le (r.logicalUsedBits.toNat + m) (2 ^ 32)
  rw [lt_add_iff, hnm, Nat.add_mod_mod, length_logicalRest r h]
  constructor
  · intro hlt
    omega
  · intro hlt
    by_contra hle'
    have hfit := hs (by omega)
    omega

/-- What a decoder says about a read: it succeeds with the decoded value and the
cursor moved, or it fails as far on as the decoder did, delivering nothing. -/
def Refines {α : Type} (e : Endian) (r : BitStreamReader)
    (res : Except Fault (BitStreamReader × α)) (dec : Except Nat (α × List Bool)) (old : α) :
    Prop :=
  match dec with
  | .ok (a, rest) => ∃ r', res = .ok (r', a) ∧ Advanced e r r' rest
  | .error n => ∃ r', res = .ok (r', old) ∧ Stopped r r' n

/-- A checked integer read refines the decoder of a field. -/
theorem doRead_refines (r : BitStreamReader) (h : r.Synced e) (hf : r.fail = false) (t : IntType)
    (data min max : t.Value) (hs : min.val < max.val → r.SumSound (t.rangeBits min max)) :
    Refines e r (r.doRead e true t data min max) (decodeInt t min max (r.logicalRest e)) data := by
  rw [decodeInt]
  simp only [doRead, hf, Bool.false_eq_true, and_false, if_false, true_and]
  by_cases hrange : max.val ≤ min.val
  · rw [if_pos hrange, if_pos hrange]
    exact ⟨_, rfl, Stopped.setFail h⟩
  · rw [if_neg hrange, if_neg hrange, ← t.rangeBits_eq min max (by omega)]
    have hlack := lack_iff r h (BitVec.toNat_ofNat _ 32) (hs (by omega))
    by_cases hshort : (r.logicalRest e).length < t.rangeBits min max
    · rw [if_pos (hlack.mpr hshort), Bits.split_of_lt hshort]
      exact ⟨_, rfl, Stopped.setFail h⟩
    · have hn : t.rangeBits min max ≤ (r.logicalRest e).length := by omega
      have hbits := t.rangeBits_le min max
      obtain ⟨hlen, htake⟩ := take_ahead r h _ hn
      obtain ⟨r₁, v, hr₁, hv, ht⟩ := takeValue_spec (e := e) r h.toWindowed t _ hbits hlen
      rw [htake] at hv
      rw [if_neg (fun hlt => hshort (hlack.mp hlt)), Bits.split_of_le hn, hr₁]
      simp only [Run.bind_ok]
      rw [restore_take t _ hbits _ v hv]
      split_ifs with hmax
      · have hw := ht.windowed
        refine ⟨_, rfl, ⟨⟨hw.1, hw.2, hw.3, hw.4⟩, ?_, ?_, ht.words, ht.total, ht.initFail, rfl⟩⟩
        · dsimp only
          rw [ht.used, Nat.add_zero]
        · dsimp only
          rw [ht.used, ht.total]
          exact h.used_le
      · exact ⟨_, rfl, Takes.advanced h ht hn⟩

end Nalchi.BitStreamReader
