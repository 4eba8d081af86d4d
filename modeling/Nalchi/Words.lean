import Nalchi.Bits
import Mathlib.Tactic.SplitIfs

/-! Buffer words, their bytes in memory on either kind of host, and the bits
those bytes stand for. -/
namespace Nalchi

abbrev WordType := BitVec 32
abbrev ScratchType := BitVec 64
abbrev SizeType := BitVec 32

/-- `k_cbMaxSteamNetworkingSocketsMessageSizeSend`, from the header of the network library. -/
def kCbMaxSteamNetworkingSocketsMessageSizeSend : Nat := 512 * 1024

def gnsMaxMsgRecvSize : Nat := 2 * kCbMaxSteamNetworkingSocketsMessageSizeSend

/-- `std::endian::native`; mixed hosts are rejected by a `static_assert`. -/
inductive Endian where
  | little | big
deriving DecidableEq, Repr

/-- `std::byteswap`. -/
def byteswap (w : WordType) : WordType :=
  w.extractLsb' 0 8 ++ w.extractLsb' 8 8 ++ w.extractLsb' 16 8 ++ w.extractLsb' 24 8

/-- The swap both streams make between a buffer word and their scratch. -/
def Endian.swap (e : Endian) (w : WordType) : WordType :=
  match e with
  | .little => w
  | .big => byteswap w

/-- The bytes of a native word, in address order. -/
def Endian.bytes (e : Endian) (w : WordType) : List (BitVec 8) :=
  match e with
  | .little => [w.extractLsb' 0 8, w.extractLsb' 8 8, w.extractLsb' 16 8, w.extractLsb' 24 8]
  | .big => [w.extractLsb' 24 8, w.extractLsb' 16 8, w.extractLsb' 8 8, w.extractLsb' 0 8]

/-- Byte `j` of a buffer as it lies in memory. -/
def memoryBytes (e : Endian) (ws : List WordType) : List (BitVec 8) := ws.flatMap e.bytes

def byteBits (bs : List (BitVec 8)) : List Bool := bs.flatMap fun b => Bits.ofNat 8 b.toNat

/-- Bit `8 * j + i` of a buffer is bit `i` of its byte `j`. -/
def memoryBits (e : Endian) (ws : List WordType) : List Bool := byteBits (memoryBytes e ws)

/-- A `std::span` of words: its `data()` may be null whatever its size says. -/
structure WordSpan where
  isNull : Bool
  words : List WordType
deriving DecidableEq, Repr

def WordSpan.sizeBytes (b : WordSpan) : Nat := 4 * b.words.length

/-- The places where the C++ execution would be undefined. -/
inductive Fault where
  | wordIndex (i : Int)
  | shift (n : Int)
  | invalidPointer (ptr : Nat)
  | unreachable
deriving DecidableEq, Repr

/-- `_words[i]` as a load. -/
def loadWord (ws : List WordType) (i : Int) : Except Fault WordType :=
  if 0 ≤ i then
    match ws[i.toNat]? with
    | some w => .ok w
    | none => .error (.wordIndex i)
  else .error (.wordIndex i)

/-- `_words[i] = w`. -/
def storeWord (ws : List WordType) (i : Int) (w : WordType) : Except Fault (List WordType) :=
  if 0 ≤ i ∧ i < ws.length then .ok (ws.set i.toNat w) else .error (.wordIndex i)

/-- `x << n` on the scratch, for an amount held in an `int`. -/
def shiftScratch (x : ScratchType) (n : Int) : Except Fault ScratchType :=
  if 0 ≤ n ∧ n < 64 then .ok (x <<< n.toNat) else .error (.shift n)

theorem getLsbD_byteswap (w : WordType) (i : Nat) (h : i < 32) :
    (byteswap w).getLsbD i = w.getLsbD (24 - 8 * (i / 8) + i % 8) := by
  rw [byteswap]
  simp only [BitVec.getLsbD_append, BitVec.getLsbD_extractLsb']
  split_ifs
  all_goals
    simp (disch := omega) only [decide_eq_true, Bool.true_and]
    congr 1
    omega

@[simp] theorem byteswap_byteswap (w : WordType) : byteswap (byteswap w) = w := by
  apply BitVec.eq_of_getLsbD_eq
  intro i h
  rw [getLsbD_byteswap _ _ h, getLsbD_byteswap _ _ (by omega)]
  congr 1
  omega

@[simp] theorem Endian.swap_swap (e : Endian) (w : WordType) : e.swap (e.swap w) = w := by
  cases e <;> simp [swap]

/-- Whatever the host, memory holds the swapped word least significant byte first. -/
theorem Endian.bytes_eq (e : Endian) (w : WordType) :
    e.bytes w = Endian.little.bytes (e.swap w) := by
  cases e with
  | little => rfl
  | big =>
    have h (k : Nat) (hk : k < 4) :
        (byteswap w).extractLsb' (8 * k) 8 = w.extractLsb' (24 - 8 * k) 8 := by
      apply BitVec.eq_of_getLsbD_eq
      intro i hi
      simp only [BitVec.getLsbD_extractLsb', hi, decide_true, Bool.true_and]
      rw [getLsbD_byteswap _ _ (by omega)]
      congr 1
      omega
    simp only [bytes, swap]
    rw [← h 0 (by omega), ← h 1 (by omega), ← h 2 (by omega), ← h 3 (by omega)]

theorem toNat_extract_byte (w : WordType) (k : Nat) :
    (w.extractLsb' k 8).toNat = w.toNat / 2 ^ k % 2 ^ 8 := by
  rw [BitVec.extractLsb'_toNat, Nat.shiftRight_eq_div_pow]

/-- The 32 bits a word contributes to the stream. -/
theorem byteBits_bytes (e : Endian) (w : WordType) :
    byteBits (e.bytes w) = Bits.ofNat 32 (e.swap w).toNat := by
  rw [e.bytes_eq]
  generalize e.swap w = v
  have h : ∀ a b c d x, Bits.ofNat (a + (b + (c + d))) x = Bits.ofNat a x ++
      (Bits.ofNat b (x / 2 ^ a) ++ (Bits.ofNat c (x / 2 ^ a / 2 ^ b) ++
        Bits.ofNat d (x / 2 ^ a / 2 ^ b / 2 ^ c))) := by
    intro a b c d x
    rw [Bits.ofNat_add, Bits.ofNat_add, Bits.ofNat_add]
  have h32 := h 8 8 8 8 v.toNat
  simp only [Nat.div_div_eq_div_mul] at h32
  simp only [byteBits, Endian.bytes, List.flatMap_cons, List.flatMap_nil, toNat_extract_byte,
    Bits.ofNat_mod, List.append_nil, pow_zero, Nat.div_one]
  exact h32.symm

theorem byteBits_append (as bs : List (BitVec 8)) :
    byteBits (as ++ bs) = byteBits as ++ byteBits bs := by
  simp [byteBits]

@[simp] theorem length_byteBits (bs : List (BitVec 8)) : (byteBits bs).length = 8 * bs.length := by
  induction bs with
  | nil => rfl
  | cons b bs ih =>
    simp only [byteBits, List.flatMap_cons, List.length_append, Bits.length_ofNat,
      List.length_cons] at *
    omega

theorem byteBits_take (bs : List (BitVec 8)) (n : Nat) :
    byteBits (bs.take n) = (byteBits bs).take (8 * n) := by
  rcases Nat.le_total n bs.length with h | h
  · have hlen : (byteBits (bs.take n)).length = 8 * n := by
      rw [length_byteBits, List.length_take, Nat.min_eq_left h]
    have happ := byteBits_append (bs.take n) (bs.drop n)
    rw [List.take_append_drop] at happ
    rw [happ, List.take_left' hlen]
  · have hlen := length_byteBits bs
    rw [List.take_of_length_le h, List.take_of_length_le (by omega)]

@[simp] theorem memoryBits_nil (e : Endian) : memoryBits e [] = [] := rfl

@[simp] theorem memoryBits_cons (e : Endian) (w : WordType) (ws : List WordType) :
    memoryBits e (w :: ws) = Bits.ofNat 32 (e.swap w).toNat ++ memoryBits e ws := by
  rw [memoryBits, memoryBytes, List.flatMap_cons, byteBits_append, byteBits_bytes]
  rfl

@[simp] theorem memoryBits_append (e : Endian) (us vs : List WordType) :
    memoryBits e (us ++ vs) = memoryBits e us ++ memoryBits e vs := by
  induction us with
  | nil => rfl
  | cons u us ih => simp [ih]

@[simp] theorem length_memoryBytes (e : Endian) (ws : List WordType) :
    (memoryBytes e ws).length = 4 * ws.length := by
  induction ws with
  | nil => rfl
  | cons w ws ih =>
    have hw : (e.bytes w).length = 4 := by cases e <;> rfl
    simp only [memoryBytes, List.flatMap_cons, List.length_append, List.length_cons] at *
    omega

@[simp] theorem length_memoryBits (e : Endian) (ws : List WordType) :
    (memoryBits e ws).length = 32 * ws.length := by
  simp [memoryBits]
  omega

/-- The bytes that so many bits fill, on no host in particular. -/
def packBytes : Nat → List Bool → List (BitVec 8)
  | 0, _ => []
  | n + 1, bs => BitVec.ofNat 8 (Bits.toNat (bs.take 8)) :: packBytes n (bs.drop 8)

/-- The byte view and the bit view carry the same data. -/
theorem packBytes_byteBits (bs : List (BitVec 8)) : packBytes bs.length (byteBits bs) = bs := by
  induction bs with
  | nil => rfl
  | cons b bs ih =>
    have hb : BitVec.ofNat 8 (Bits.toNat (Bits.ofNat 8 b.toNat)) = b := by
      rw [Bits.toNat_ofNat, Nat.mod_eq_of_lt b.isLt, BitVec.ofNat_toNat, BitVec.setWidth_eq]
    rw [byteBits, List.flatMap_cons, List.length_cons, packBytes, List.take_left' (by simp),
      List.drop_left' (by simp), hb]
    exact congrArg (b :: ·) ih

theorem memoryBytes_eq (e : Endian) (ws : List WordType) :
    memoryBytes e ws = packBytes (4 * ws.length) (memoryBits e ws) := by
  rw [memoryBits, ← length_memoryBytes e, packBytes_byteBits]

theorem memoryBytes_eq_of_bits {e e' : Endian} {us vs : List WordType}
    (h : memoryBits e us = memoryBits e' vs) : memoryBytes e us = memoryBytes e' vs := by
  have hlen := congrArg List.length h
  rw [length_memoryBits, length_memoryBits] at hlen
  rw [memoryBytes_eq, memoryBytes_eq, h, Nat.eq_of_mul_eq_mul_left (by decide) hlen]

theorem memoryBytes_take (e : Endian) (ws : List WordType) (k : Nat) :
    memoryBytes e (ws.take k) = (memoryBytes e ws).take (4 * k) := by
  obtain hk | hk := Nat.le_total k ws.length
  · conv_rhs => rw [← List.take_append_drop k ws, memoryBytes, List.flatMap_append]
    rw [List.take_left' (by rw [← memoryBytes, length_memoryBytes, List.length_take]; omega)]
    rfl
  · rw [List.take_of_length_le hk, List.take_of_length_le (by simp; omega)]

theorem toNat_high_half (v : ScratchType) : (v >>> 32).toNat = v.toNat / 2 ^ 32 := by
  rw [BitVec.toNat_ushiftRight, Nat.shiftRight_eq_div_pow]

theorem toNat_low_half (x : ScratchType) : ((x <<< 32) >>> 32).toNat = x.toNat % 2 ^ 32 := by
  rw [BitVec.toNat_ushiftRight, BitVec.toNat_shiftLeft, Nat.shiftLeft_eq,
    Nat.shiftRight_eq_div_pow]
  omega

theorem toNat_low_half_lt (x : ScratchType) {n : Nat} (hx : x.toNat < 2 ^ n) :
    ((x <<< 32) >>> 32).toNat < 2 ^ min n 32 := by
  rw [toNat_low_half]
  obtain hle | hle := Nat.le_total n 32
  · rw [Nat.min_eq_left hle]
    exact lt_of_le_of_lt (Nat.mod_le _ _) hx
  · rw [Nat.min_eq_right hle]
    exact Nat.mod_lt _ (Nat.two_pow_pos 32)

theorem toNat_high_half_lt (x : ScratchType) {n : Nat} (hx : x.toNat < 2 ^ (32 + n)) :
    (x >>> 32).toNat < 2 ^ n := by
  rw [toNat_high_half]
  apply Nat.div_lt_of_lt_mul
  rwa [← pow_add]

/-- OR-ing a value in above the index is adding it there. -/
theorem toNat_or_shift (x v : ScratchType) (i n : Nat) (hi : i + n ≤ 64)
    (hx : x.toNat < 2 ^ i) (hv : v.toNat < 2 ^ n) :
    (x ||| v <<< i).toNat = x.toNat + 2 ^ i * v.toNat := by
  have hs : v.toNat <<< i < 2 ^ 64 := by
    rw [Nat.shiftLeft_eq]
    calc v.toNat * 2 ^ i < 2 ^ n * 2 ^ i := Nat.mul_lt_mul_of_pos_right hv (Nat.two_pow_pos i)
      _ = 2 ^ (i + n) := by rw [← pow_add, Nat.add_comm]
      _ ≤ 2 ^ 64 := Nat.pow_le_pow_right (by omega) hi
  rw [BitVec.toNat_or, BitVec.toNat_shiftLeft, Nat.mod_eq_of_lt hs, Nat.or_comm,
    ← Nat.shiftLeft_add_eq_or_of_lt hx, Nat.shiftLeft_eq]
  ring

theorem pack_lt {x v i n : Nat} (hx : x < 2 ^ i) (hv : v < 2 ^ n) :
    x + 2 ^ i * v < 2 ^ (i + n) := by
  have h : 2 ^ i * (v + 1) ≤ 2 ^ i * 2 ^ n := Nat.mul_le_mul_left _ hv
  rw [pow_add]
  rw [Nat.mul_add] at h
  omega

/-- `_logical_used_bits + n` in 32 bits against the logical total. -/
theorem lt_add_iff (used total : SizeType) (n : SizeType) :
    total < used + n ↔ total.toNat < (used.toNat + n.toNat) % 2 ^ 32 := by
  rw [BitVec.lt_def, BitVec.toNat_add]

theorem toNat_eight_mul (n : SizeType) : (8 * n).toNat = 8 * n.toNat % 2 ^ 32 :=
  BitVec.toNat_mul 8 n

theorem not_lt_add {used total : SizeType} {n : Nat} (h : used.toNat + n ≤ total.toNat) :
    ¬ total < used + BitVec.ofNat 32 n := by
  have ht := total.isLt
  rw [lt_add_iff, BitVec.toNat_ofNat]
  omega

end Nalchi
