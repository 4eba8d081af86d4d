import Mathlib.Data.Nat.Bits
import Mathlib.Tactic.Ring
import Mathlib.Tactic.Linarith

/-! Fixed-width numerals as bit lists, least significant bit first. Independent
namespace; nothing here knows about streams, words or machine integers. -/
namespace Bits

/-- The low `width` bits of a number. -/
def ofNat : Nat → Nat → List Bool
  | 0, _ => []
  | width + 1, v => v.testBit 0 :: ofNat width (v / 2)

def toNat : List Bool → Nat
  | [] => 0
  | b :: bs => b.toNat + 2 * toNat bs

@[simp] theorem ofNat_zero_width (v : Nat) : ofNat 0 v = [] := rfl

@[simp] theorem length_ofNat (width v : Nat) : (ofNat width v).length = width := by
  induction width generalizing v with
  | zero => rfl
  | succ width ih => simp [ofNat, ih]

theorem toNat_testBit_zero (v : Nat) : (v.testBit 0).toNat = v % 2 := by
  obtain h | h := Nat.mod_two_eq_zero_or_one v <;> simp [Nat.testBit_zero, h]

@[simp] theorem toNat_ofNat (width v : Nat) : toNat (ofNat width v) = v % 2 ^ width := by
  induction width generalizing v with
  | zero => simp [toNat, Nat.mod_one]
  | succ width ih =>
    rw [ofNat, toNat, ih, toNat_testBit_zero, pow_succ', Nat.mod_mul]

theorem toNat_lt (bs : List Bool) : toNat bs < 2 ^ bs.length := by
  induction bs with
  | nil => simp [toNat]
  | cons b bs ih =>
    have hb := Bool.toNat_le b
    rw [toNat, List.length_cons, pow_succ]
    omega

theorem toNat_append (as bs : List Bool) :
    toNat (as ++ bs) = toNat as + 2 ^ as.length * toNat bs := by
  induction as with
  | nil => simp [toNat]
  | cons a as ih =>
    rw [List.cons_append, toNat, ih, toNat, List.length_cons, pow_succ]
    ring

@[simp] theorem ofNat_toNat (bs : List Bool) : ofNat bs.length (toNat bs) = bs := by
  induction bs with
  | nil => rfl
  | cons b bs ih =>
    have hdiv : (b.toNat + 2 * toNat bs) / 2 = toNat bs := by
      have hb := Bool.toNat_le b
      omega
    rw [List.length_cons, toNat, ofNat, hdiv, ih]
    cases b <;> simp [Nat.testBit_zero]

/-- A numeral of `m + n` bits is its low `m` bits followed by the next `n`. -/
theorem ofNat_add (m n v : Nat) : ofNat (m + n) v = ofNat m v ++ ofNat n (v / 2 ^ m) := by
  induction m generalizing v with
  | zero => simp
  | succ m ih =>
    rw [Nat.add_right_comm, ofNat, ih, ofNat, List.cons_append, Nat.div_div_eq_div_mul,
      pow_succ']

@[simp] theorem ofNat_mod (width v : Nat) : ofNat width (v % 2 ^ width) = ofNat width v := by
  induction width generalizing v with
  | zero => rfl
  | succ width ih =>
    have hdiv : v % 2 ^ (width + 1) / 2 = v / 2 % 2 ^ width := by
      rw [pow_succ', Nat.mod_mul, Nat.add_mul_div_left _ _ (by omega)]
      omega
    rw [ofNat, ofNat, hdiv, ih, Nat.testBit_mod_two_pow]
    simp

/-- Packing: a numeral `b` placed above `m` bits already holding `a`. -/
theorem ofNat_pack (m n a b : Nat) (ha : a < 2 ^ m) :
    ofNat (m + n) (a + 2 ^ m * b) = ofNat m a ++ ofNat n b := by
  have hdiv : (a + 2 ^ m * b) / 2 ^ m = b := by
    rw [Nat.add_mul_div_left _ _ (Nat.two_pow_pos m), Nat.div_eq_of_lt ha, Nat.zero_add]
  rw [ofNat_add, hdiv, ← ofNat_mod m, Nat.add_mul_mod_self_left, Nat.mod_eq_of_lt ha]

@[simp] theorem ofNat_zero (width : Nat) : ofNat width 0 = List.replicate width false := by
  induction width with
  | zero => rfl
  | succ width ih => simp [ofNat, ih, List.replicate_succ]

/-- Cut a numeral of `width` bits off the front, if there are that many. -/
def split (width : Nat) (bs : List Bool) : Option (Nat × List Bool) :=
  if bs.length < width then none else some (toNat (bs.take width), bs.drop width)

theorem split_of_lt {width : Nat} {bs : List Bool} (h : bs.length < width) :
    split width bs = none := if_pos h

theorem split_of_le {width : Nat} {bs : List Bool} (h : width ≤ bs.length) :
    split width bs = some (toNat (bs.take width), bs.drop width) := if_neg (by omega)

/-- What is cut off is what was put in front. -/
theorem split_append (width v : Nat) (bs : List Bool) (h : v < 2 ^ width) :
    split width (ofNat width v ++ bs) = some (v, bs) := by
  rw [split_of_le (by simp), List.take_left' (by simp), List.drop_left' (by simp), toNat_ofNat,
    Nat.mod_eq_of_lt h]

end Bits
