import Nalchi.Reader

/-! The wire format, stated on its own: what each call appends to a list of
bits and what it takes off the front of one, and that the second undoes the
first. The streams are related to it in `Packing` and `Cursor`. -/
namespace Nalchi

/-- A number of a range, as its distance from the low end. -/
def fieldBits (data min max : Int) : List Bool :=
  Bits.ofNat (bitWidth (max - min).toNat) (data - min).toNat

/-- The prefix of a length prefix. -/
def lengthKind (len : Nat) : Nat :=
  if len < 2 ^ 8 then 0 else if len < 2 ^ 16 then 1 else if len < 2 ^ 32 then 2 else 3

def lengthWidth (kind : Nat) : Nat := 8 * 2 ^ kind

def lengthBits (len : Nat) : List Bool :=
  Bits.ofNat 2 (lengthKind len) ++ Bits.ofNat (lengthWidth (lengthKind len)) len

/-- The bits of a value over the whole range of its type. -/
def fullWidth (t : IntType) : Nat := bitWidth (t.highest - t.lowest).toNat

def fullBits (t : IntType) (x : t.Value) : List Bool := fieldBits x.val t.lowest t.highest

def WriteCall.encode : WriteCall → List Bool
  | .int _ data min max => fieldBits data.val min.val max.val
  | .float data => Bits.ofNat 32 data.toNat
  | .double data => Bits.ofNat 64 data.toNat
  | .block data size => (List.range size.toNat).flatMap fun i => fullBits .uint8 (data i)
  | .string c str => lengthBits str.length ++ str.flatMap (fullBits c.intType)

/-- How many bits that is, without making the list. -/
def WriteCall.cost : WriteCall → Nat
  | .int _ _ min max => bitWidth (max.val - min.val).toNat
  | .float _ => 32
  | .double _ => 64
  | .block _ size => 8 * size.toNat
  | .string c str => 2 + lengthWidth (lengthKind str.length) + 8 * (str.length * c.size)

/-- The calls the writer has no reason of its own to reject. -/
def WriteCall.Valid : WriteCall → Prop
  | .int _ data min max => min.val < max.val ∧ min.val ≤ data.val ∧ data.val ≤ max.val
  | _ => True

instance (call : WriteCall) : Decidable call.Valid := by
  cases call <;> unfold WriteCall.Valid <;> infer_instance

def encodeAll (calls : List WriteCall) : List Bool := calls.flatMap WriteCall.encode

/-- `n` values of a type, each over its whole range, from the front of the bits. -/
def takeValues (t : IntType) : Nat → List Bool → List t.Value
  | 0, _ => []
  | n + 1, bs =>
    t.cast (t.lowest + Bits.toNat (bs.take (fullWidth t))) ::
      takeValues t n (bs.drop (fullWidth t))

/-- Memory after its first elements are overwritten. -/
def overlay {α : Type} (mem : Nat → α) (vs : List α) (i : Nat) : α := vs[i]?.getD (mem i)

/- A decoder returns what it read and the bits left. On failure it returns how
   many bits it had stepped over by then: not every failing read leaves the
   position alone. -/
abbrev Decoder (α : Type) := List Bool → Except Nat (α × List Bool)

def decodeInt (t : IntType) (min max : t.Value) : Decoder t.Value := fun bs =>
  if max.val ≤ min.val then .error 0
  else match Bits.split (bitWidth (max.val - min.val).toNat) bs with
    | none => .error 0
    | some (raw, rest) =>
      let x := t.cast (min.val + raw)
      if max.val < x.val then .error 0 else .ok (x, rest)

/-- The length prefix of a string, before the cast to a signed 32-bit number. -/
def decodeLength : Decoder Nat := fun bs =>
  match Bits.split 2 bs with
  | none => .error 0
  | some (kind, rest) =>
    match Bits.split (lengthWidth kind) rest with
    | none => .error 2
    | some (len, rest) => .ok (len, rest)

/-- The characters of a string whose length prefix gave `len`. -/
def decodeChars (c : CharType) (maxLength : SizeType) (len : Int) (bs : List Bool) :
    Option (List c.Value × List Bool) :=
  if len < 0 ∨ maxLength.toNat < len.toNat ∨ bs.length < 8 * (len.toNat * c.size) then none
  else some (takeValues c.intType len.toNat bs, bs.drop (8 * (len.toNat * c.size)))

def decodeString (c : CharType) (maxLength : SizeType) : Decoder (List c.Value) := fun bs =>
  match decodeLength bs with
  | .error n => .error n
  | .ok (raw, rest) =>
    (decodeChars c maxLength (BitStreamReader.castSsize raw) rest).elim
      (.error (bs.length - rest.length)) .ok

def ReadCall.decode : ReadCall → Decoder ReadCall
  | .int t _ min max => fun bs =>
    (decodeInt t min max bs).map fun (x, rest) => (.int t x min max, rest)
  | .float _ => fun bs => match Bits.split 32 bs with
    | none => .error 0
    | some (raw, rest) => .ok (.float (BitVec.ofNat 32 raw), rest)
  | .double _ => fun bs => match Bits.split 64 bs with
    | none => .error 0
    | some (raw, rest) => .ok (.double (BitVec.ofNat 64 raw), rest)
  | .block data size => fun bs =>
    if bs.length < 8 * size.toNat then .error 0
    else .ok (.block (overlay data (takeValues .uint8 size.toNat bs)) size,
      bs.drop (8 * size.toNat))
  | .string c _ maxLength => fun bs =>
    (decodeString c maxLength bs).map fun (str, rest) => (.string c str maxLength, rest)
  | .cstring c mem maxLength => fun bs =>
    (decodeString c maxLength bs).map fun (str, rest) =>
      (.cstring c (overlay mem (str ++ [c.intType.cast 0])) maxLength, rest)

/-- Decode a sequence of reads from the front of the bits. -/
def decodeAll : List ReadCall → Decoder (List ReadCall)
  | [], bs => .ok ([], bs)
  | call :: calls, bs => do
    let (done, rest) ← call.decode bs
    let (dones, rest) ← decodeAll calls rest
    return (done :: dones, rest)

/-- `Delivers write before after`: the read `before` asks for what `write` wrote,
into any destination, and `after` is that read with the written data delivered. -/
inductive Delivers : WriteCall → ReadCall → ReadCall → Prop where
  | int (t : IntType) (data dest min max : t.Value) :
    Delivers (.int t data min max) (.int t dest min max) (.int t data min max)
  | float (data dest : BitVec 32) : Delivers (.float data) (.float dest) (.float data)
  | double (data dest : BitVec 64) : Delivers (.double data) (.double dest) (.double data)
  | block (data dest : Nat → IntType.uint8.Value) (size : SizeType) :
    Delivers (.block data size) (.block dest size)
      (.block (fun i => if i < size.toNat then data i else dest i) size)
  | string (c : CharType) (str dest : List c.Value) (maxLength : SizeType)
      (h : str.length ≤ maxLength.toNat) :
    Delivers (.string c str) (.string c dest maxLength) (.string c str maxLength)
  | cstring (c : CharType) (str : List c.Value) (dest : Nat → c.Value) (maxLength : SizeType)
      (h : str.length ≤ maxLength.toNat) :
    Delivers (.string c str) (.cstring c dest maxLength)
      (.cstring c (overlay dest (str ++ [c.intType.cast 0])) maxLength)

theorem fullWidth_eq (t : IntType) : fullWidth t = t.rangeBits t.minValue t.maxValue :=
  (t.rangeBits_eq t.minValue t.maxValue t.lowest_le_highest).symm

theorem fullWidth_of_ne (t : IntType) (h : t ≠ .bool) : fullWidth t = t.bits :=
  (fullWidth_eq t).trans (t.rangeBits_full h)

@[simp] theorem length_fieldBits (data min max : Int) :
    (fieldBits data min max).length = bitWidth (max - min).toNat := by
  simp [fieldBits]

@[simp] theorem length_fullBits (t : IntType) (x : t.Value) :
    (fullBits t x).length = fullWidth t := by
  simp [fullBits, fullWidth]

theorem length_flatMap_const {α β : Type*} (f : α → List β) (n : Nat) (xs : List α)
    (h : ∀ x ∈ xs, (f x).length = n) : (xs.flatMap f).length = xs.length * n := by
  induction xs with
  | nil => simp
  | cons x xs ih =>
    rw [List.flatMap_cons, List.length_append, h x (by simp), ih fun y hy => h y (by simp [hy]),
      List.length_cons, Nat.succ_mul, Nat.add_comm]

theorem length_encode (call : WriteCall) : call.encode.length = call.cost := by
  cases call with
  | int t data min max => simp [WriteCall.encode, WriteCall.cost]
  | float data => simp [WriteCall.encode, WriteCall.cost]
  | double data => simp [WriteCall.encode, WriteCall.cost]
  | block data size =>
    rw [WriteCall.encode, length_flatMap_const _ 8 _ fun i _ => ?_, List.length_range,
      WriteCall.cost, Nat.mul_comm]
    rw [length_fullBits, fullWidth_of_ne _ (by decide)]
    rfl
  | string c str =>
    have hc := c.intType_spec
    rw [WriteCall.encode, List.length_append, length_flatMap_const _ (8 * c.size) _ fun x _ => ?_,
      WriteCall.cost, lengthBits, List.length_append, Bits.length_ofNat, Bits.length_ofNat,
      Nat.mul_left_comm]
    rw [length_fullBits, fullWidth_of_ne _ hc.1, hc.2.1]

theorem fieldBits_lt {data min max : Int} (h2 : data ≤ max) :
    (data - min).toNat < 2 ^ bitWidth (max - min).toNat :=
  lt_of_le_of_lt (by omega) (lt_two_pow_bitWidth (max - min).toNat)

/-- An integer comes back as it was written. -/
theorem decodeInt_append (t : IntType) (data min max : t.Value) (h : min.val < max.val)
    (h1 : min.val ≤ data.val) (h2 : data.val ≤ max.val) (rest : List Bool) :
    decodeInt t min max (fieldBits data.val min.val max.val ++ rest) = .ok (data, rest) := by
  have hx : t.cast (min.val + ((data.val - min.val).toNat : Nat)) = data := by
    rw [Int.toNat_of_nonneg (by omega), add_sub_cancel, t.cast_val]
  rw [decodeInt, if_neg (by omega), fieldBits, Bits.split_append _ _ _ (fieldBits_lt h2)]
  simp only [hx]
  rw [if_neg (by omega)]

/-- So does any sequence of values over their whole ranges. -/
theorem takeValues_append (t : IntType) (xs : List t.Value) (rest : List Bool) :
    takeValues t xs.length (xs.flatMap (fullBits t) ++ rest) = xs := by
  induction xs with
  | nil => rfl
  | cons x xs ih =>
    have hx := x.property
    have hv : t.cast (t.lowest + (Bits.toNat (fullBits t x) : Nat)) = x := by
      rw [fullBits, fieldBits, Bits.toNat_ofNat, Nat.mod_eq_of_lt (fieldBits_lt hx.2),
        Int.toNat_of_nonneg (by omega), add_sub_cancel, t.cast_val]
    rw [List.flatMap_cons, List.append_assoc, List.length_cons, takeValues,
      List.take_left' (length_fullBits t x), List.drop_left' (length_fullBits t x), hv, ih]

theorem lengthKind_lt (len : Nat) : lengthKind len < 2 ^ 2 := by
  unfold lengthKind
  split_ifs <;> omega

theorem lt_lengthWidth (len : Nat) (h : len < 2 ^ 64) : len < 2 ^ lengthWidth (lengthKind len) := by
  unfold lengthKind
  split_ifs <;> simpa [lengthWidth]

theorem decodeLength_append (len : Nat) (h : len < 2 ^ 64) (rest : List Bool) :
    decodeLength (lengthBits len ++ rest) = .ok (len, rest) := by
  rw [decodeLength, lengthBits, List.append_assoc, Bits.split_append _ _ _ (lengthKind_lt len)]
  simp only
  rw [Bits.split_append _ _ _ (lt_lengthWidth len h)]

theorem castSsize_of_lt (n : Nat) (h : n < 2 ^ 31) : BitStreamReader.castSsize n = n :=
  IntType.wrap_of_mem _ _ (by simp only [IntType.lowest, Width.bits]; omega)
    (by simp only [IntType.highest, Width.bits]; omega)

theorem decodeString_of_length {bs rest : List Bool} {raw : Nat} {len : Int}
    (hraw : decodeLength bs = .ok (raw, rest)) (hlen : BitStreamReader.castSsize raw = len)
    (c : CharType) (maxLength : SizeType) :
    decodeString c maxLength bs = (decodeChars c maxLength len rest).elim
      (.error (bs.length - rest.length)) .ok := by
  rw [← hlen, decodeString, hraw]

/-- A string comes back if the reader allows its length. -/
theorem decodeString_append (c : CharType) (str : List c.Value) (maxLength : SizeType)
    (h : str.length ≤ maxLength.toNat) (h31 : str.length < 2 ^ 31) (rest : List Bool) :
    decodeString c maxLength (WriteCall.encode (.string c str) ++ rest) = .ok (str, rest) := by
  have hc := c.intType_spec
  have hlen : (str.flatMap (fullBits c.intType)).length = 8 * (str.length * c.size) := by
    rw [length_flatMap_const _ (8 * c.size) _ fun x _ => by
      rw [length_fullBits, fullWidth_of_ne _ hc.1, hc.2.1], Nat.mul_left_comm]
  rw [WriteCall.encode, List.append_assoc,
    decodeString_of_length (decodeLength_append _ (by omega) _) (castSsize_of_lt _ h31), decodeChars,
    Int.toNat_natCast, if_neg (by rw [List.length_append, hlen]; omega), takeValues_append,
    List.drop_left' hlen]
  rfl

theorem overlay_append_range {α : Type} (mem data : Nat → α) (n : Nat) :
    overlay mem ((List.range n).map data) = fun i => if i < n then data i else mem i := by
  funext i
  unfold overlay
  by_cases h : i < n
  · simp [h]
  · simp [h]

/-- Each read undoes the write it answers, and leaves the bits behind it alone. -/
theorem decode_encode {write : WriteCall} {before after : ReadCall}
    (h : Delivers write before after) (hv : write.Valid) (hlen : write.cost < 2 ^ 31)
    (rest : List Bool) : before.decode (write.encode ++ rest) = .ok (after, rest) := by
  cases h with
  | int t data dest min max =>
    simp only [ReadCall.decode, WriteCall.encode]
    rw [decodeInt_append t data min max hv.1 hv.2.1 hv.2.2]
    rfl
  | float data dest =>
    simp only [ReadCall.decode, WriteCall.encode]
    rw [Bits.split_append _ _ _ data.isLt]
    simp
  | double data dest =>
    simp only [ReadCall.decode, WriteCall.encode]
    rw [Bits.split_append _ _ _ data.isLt]
    simp
  | block data dest size =>
    have hl : WriteCall.encode (.block data size) =
        ((List.range size.toNat).map data).flatMap (fullBits .uint8) := by
      rw [WriteCall.encode, List.flatMap_map]
    have hn := length_encode (.block data size)
    have ht := takeValues_append .uint8 ((List.range size.toNat).map data) rest
    rw [List.length_map, List.length_range] at ht
    rw [WriteCall.cost] at hn
    simp only [ReadCall.decode]
    rw [if_neg (by rw [List.length_append, hn]; omega), List.drop_left' hn, hl, ht,
      overlay_append_range]
  | string c str dest maxLength hm =>
    have hs := c.intType_spec.2.2.1
    have h31 : str.length ≤ str.length * c.size := Nat.le_mul_of_pos_right _ hs
    simp only [WriteCall.cost] at hlen
    simp only [ReadCall.decode]
    rw [decodeString_append c str maxLength hm (by omega)]
    rfl
  | cstring c str dest maxLength hm =>
    have hs := c.intType_spec.2.2.1
    have h31 : str.length ≤ str.length * c.size := Nat.le_mul_of_pos_right _ hs
    simp only [WriteCall.cost] at hlen
    simp only [ReadCall.decode]
    rw [decodeString_append c str maxLength hm (by omega)]
    rfl

/-- Round trip of the format: the reads of a whole message, in order. -/
theorem decodeAll_encodeAll (plan : List (WriteCall × ReadCall × ReadCall))
    (h : ∀ p ∈ plan, Delivers p.1 p.2.1 p.2.2 ∧ p.1.Valid ∧ p.1.cost < 2 ^ 31)
    (rest : List Bool) :
    decodeAll (plan.map fun p => p.2.1) (encodeAll (plan.map fun p => p.1) ++ rest) =
      .ok (plan.map fun p => p.2.2, rest) := by
  induction plan with
  | nil => rfl
  | cons p plan ih =>
    obtain ⟨hd, hv, hl⟩ := h p (by simp)
    simp only [List.map_cons, decodeAll, encodeAll, List.flatMap_cons, List.append_assoc]
    rw [decode_encode hd hv hl, Run.bind_ok]
    have ih' := ih fun q hq => h q (by simp [hq])
    simp only [encodeAll] at ih'
    rw [ih', Run.bind_ok]
    rfl

end Nalchi
