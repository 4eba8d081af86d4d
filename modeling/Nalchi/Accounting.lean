import Nalchi.Relay

/-! What a message can make a program take in. However a program reads it, what the
reads deliver is paid for, bit by bit, out of the logical length of the message. -/
namespace Nalchi
open BitStreamReader

variable {e : Endian}

/-- The length a string read here is told to take. -/
def BitStreamReader.lengthRead (e : Endian) (r : BitStreamReader) : Nat :=
  match r.readStringLength e with
  | .ok (_, len) => len.toNat
  | .error _ => 0

def stringBits (c : CharType) (n : Nat) : Nat := 2 + lengthWidth (lengthKind n) + 8 * (n * c.size)

/-- The bits that what a read has stored takes when written. All the characters of a C string
count, those behind a NUL too. -/
def ReadCall.storedBits (call done : ReadCall) (len : Nat) : Nat :=
  match call with
  | .cstring c _ _ => stringBits c len
  | _ => done.relay.cost

/-- A read that succeeds, and the bits of its data. -/
def ReadCall.delivered (e : Endian) (call : ReadCall) (r : BitStreamReader) : Nat :=
  match call.exec e r with
  | .ok (r', done) => if r'.fail then 0 else call.storedBits done (r.lengthRead e)
  | .error _ => 0

/-- A block of no bytes is read off nothing. -/
def ReadCall.isEmpty : ReadCall → Bool
  | .block _ size => size == 0
  | _ => false

def ReadCall.succeeds (e : Endian) (call : ReadCall) (r : BitStreamReader) : Nat :=
  match call.exec e r with
  | .ok (r', _) => if r'.fail || call.isEmpty then 0 else 1
  | .error _ => 0

namespace ReaderOp

def delivered (e : Endian) (op : ReaderOp) (r : BitStreamReader) : Nat :=
  match op with
  | .read call => call.delivered e r
  | _ => 0

def succeeds (e : Endian) (op : ReaderOp) (r : BitStreamReader) : Nat :=
  match op with
  | .read call => call.succeeds e r
  | _ => 0

/-- Only a restart hands out the same bits again. -/
def again (n : Nat) : ReaderOp → Nat
  | .restart => n
  | _ => 0

end ReaderOp

/-- A string that is read has as many characters as its prefix says. -/
theorem BitStreamReader.lengthRead_eq {r : BitStreamReader} (h : r.Synced e) (hf : r.fail = false)
    (hs : r.LengthSound e) {c : CharType} {maxLength : SizeType} {str : List c.Value}
    {rest : List Bool} (hdec : decodeString c maxLength (r.logicalRest e) = .ok (str, rest)) :
    r.lengthRead e = str.length := by
  have href := readStringLength_refines r h hf hs
  cases hlen : decodeLength (r.logicalRest e) with
  | error n =>
    rw [decodeString, hlen] at hdec
    cases hdec
  | ok p =>
    rw [hlen] at href
    obtain ⟨r', hr', -⟩ := href
    rw [decodeString_of_length hlen rfl, decodeChars] at hdec
    split_ifs at hdec with hbad
    · cases hdec
    obtain ⟨rfl, -⟩ := Prod.mk.inj (Except.ok.inj hdec)
    rw [lengthRead, hr', length_takeValues]

/-- What a read stored took at least the bits its writing takes. -/
theorem ReadCall.storedBits_le {call done : ReadCall} {r : BitStreamReader} (h : r.Synced e)
    (hf : r.fail = false) (hs : call.CheckSound e r) {rest : List Bool}
    (hdec : call.decode (r.logicalRest e) = .ok (done, rest)) :
    call.storedBits done (r.lengthRead e) + rest.length ≤ (r.logicalRest e).length := by
  cases call with
  | cstring c mem maxLength =>
    obtain ⟨p, hstr, heq⟩ := Run.map_eq_ok.mp hdec
    obtain ⟨-, rfl⟩ := Prod.mk.inj heq
    rw [ReadCall.storedBits, BitStreamReader.lengthRead_eq h hf (hs hf) hstr]
    exact (decodeString_ok hstr).2
  | int | float | double | block | string => exact ReadCall.relay_cost_le hdec

/-- Delivering takes the cursor over what is delivered. -/
theorem ReadCall.delivered_le {call : ReadCall} {r r' : BitStreamReader} {done : ReadCall}
    (h : r.Sound e) (hs : call.CheckSound e r) (hr : call.exec e r = .ok (r', done)) :
    call.delivered e r + r.logicalUsedBits.toNat ≤ r'.logicalUsedBits.toNat := by
  by_cases hf : r.fail = true
  · obtain ⟨rfl, rfl⟩ := Run.ok_unique_pair (call.exec_of_fail r hf) hr
    rw [ReadCall.delivered, hr]
    simp [hf]
  have hf : r.fail = false := by simpa using hf
  have href := call.exec_refines r (h.synced hf) hf hs
  rw [ReadCall.delivered, hr]
  cases hdec : call.decode (r.logicalRest e) with
  | error n =>
    rw [hdec] at href
    obtain ⟨r₁, hr₁, hstop⟩ := href
    obtain ⟨rfl, rfl⟩ := Run.ok_unique_pair hr₁ hr
    have hu := hstop.used
    simp only [hstop.fail, if_true]
    omega
  | ok p =>
    rw [hdec] at href
    obtain ⟨r₁, hr₁, ha⟩ := href
    obtain ⟨rfl, rfl⟩ := Run.ok_unique_pair hr₁ hr
    have hcost := ReadCall.storedBits_le (h.synced hf) hf hs hdec
    have hu := ha.used
    have hle := h.used_le
    rw [length_logicalRest r (h.synced hf)] at hcost
    simp only [ha.fail, hf, Bool.false_eq_true, if_false]
    omega

-- "AB" behind a NUL, read as a C string
example : ReadCall.delivered .little (.cstring .char8 (fun _ => ⟨0, by decide⟩) 3)
    ((default : BitStreamReader).resetWith ⟨false, [0x0904000c, 1]⟩ 8) = 34 := by decide

/-- A read that goes through has something to deliver. -/
theorem ReadCall.storedBits_pos {call done : ReadCall} {bs rest : List Bool} (len : Nat)
    (hne : call.isEmpty = false) (h : call.decode bs = .ok (done, rest)) :
    0 < call.storedBits done len := by
  cases call with
  | int t data min max =>
    simp only [ReadCall.decode] at h
    obtain ⟨p, hdec, h⟩ := Run.map_eq_ok.mp h
    obtain ⟨rfl, rfl⟩ := Prod.mk.inj h
    rw [decodeInt] at hdec
    split_ifs at hdec with hrange
    have hpos := lt_two_pow_bitWidth (max.val - min.val).toNat
    simp only [ReadCall.storedBits, ReadCall.relay, WriteCall.cost]
    rw [Nat.pos_iff_ne_zero]
    intro h0
    rw [h0] at hpos
    omega
  | float data =>
    simp only [ReadCall.decode] at h
    split at h
    · cases h
    · obtain ⟨rfl, rfl⟩ := Prod.mk.inj (Except.ok.inj h)
      exact Nat.zero_lt_succ _
  | double data =>
    simp only [ReadCall.decode] at h
    split at h
    · cases h
    · obtain ⟨rfl, rfl⟩ := Prod.mk.inj (Except.ok.inj h)
      exact Nat.zero_lt_succ _
  | block data size =>
    simp only [ReadCall.decode] at h
    split_ifs at h
    obtain ⟨rfl, rfl⟩ := Prod.mk.inj (Except.ok.inj h)
    have hsize : size ≠ 0 := by simpa [ReadCall.isEmpty] using hne
    have hnat : size.toNat ≠ 0 := fun h0 => hsize (BitVec.eq_of_toNat_eq h0)
    simp only [ReadCall.storedBits, ReadCall.relay, WriteCall.cost]
    omega
  | string c str maxLength =>
    simp only [ReadCall.decode] at h
    obtain ⟨p, -, h⟩ := Run.map_eq_ok.mp h
    obtain ⟨rfl, rfl⟩ := Prod.mk.inj h
    simp only [ReadCall.storedBits, ReadCall.relay, WriteCall.cost]
    omega
  | cstring c mem maxLength =>
    rw [ReadCall.storedBits, stringBits]
    omega

theorem ReadCall.succeeds_le_delivered {call : ReadCall} {r : BitStreamReader} (h : r.Sound e)
    (hs : call.CheckSound e r) : call.succeeds e r ≤ call.delivered e r := by
  by_cases hf : r.fail = true
  · rw [ReadCall.succeeds, ReadCall.delivered, call.exec_of_fail r hf]
    simp [hf]
  have hf : r.fail = false := by simpa using hf
  have href := call.exec_refines r (h.synced hf) hf hs
  rw [ReadCall.succeeds, ReadCall.delivered]
  cases hdec : call.decode (r.logicalRest e) with
  | error n =>
    rw [hdec] at href
    obtain ⟨r', hr', hstop⟩ := href
    rw [hr']
    simp [hstop.fail]
  | ok p =>
    rw [hdec] at href
    obtain ⟨r', hr', ha⟩ := href
    rw [hr']
    by_cases hne : call.isEmpty = true
    · simp [hne]
    · have hpos := ReadCall.storedBits_pos (r.lengthRead e) (by simpa using hne) hdec
      simp only [ha.fail, hf, hne, Bool.false_or, Bool.false_eq_true, if_false]
      omega

/-- A reader over `n` bits that is used within the limits. -/
def BitStreamReader.Bounded (e : Endian) (n : Nat) (r : BitStreamReader) : Prop :=
  r.Sound e ∧ r.logicalTotalBits.toNat = n ∧ n ≤ 8 * gnsMaxMsgRecvSize

/-- One operation: what it delivers, the cursor passes over, unless it starts again. -/
theorem ReaderOp.delivered_le {n : Nat} {op : ReaderOp} (hop : op.WithinLimits)
    {r r' : BitStreamReader} (h : r.Bounded e n) (hr : op.exec e r = .ok r') :
    r'.Bounded e n ∧
      op.delivered e r + r.logicalUsedBits.toNat ≤ r'.logicalUsedBits.toNat + op.again n := by
  obtain ⟨hsound, hn, hlimit⟩ := h
  obtain ⟨r₁, hr₁, hsound₁, -⟩ := op.exec_withinLimits hop r ⟨hsound, by omega⟩
  obtain rfl := Run.ok_unique hr₁ hr
  have hkeep := runOps_follows [op] (by rw [runOps, Run.run_singleton, hr₁]) hsound.windowed
  refine ⟨⟨hsound₁, by rw [hkeep.2.2.1]; exact hn, hlimit⟩, ?_⟩
  cases op with
  | read call =>
    obtain ⟨⟨r₂, done⟩, hcall, hfst⟩ := Run.map_eq_ok.mp hr
    obtain rfl : r₂ = r₁ := hfst
    exact ReadCall.delivered_le hsound
      (call.checkSound_of_withinLimits r hsound (by omega) hop) hcall
  | peekStringLength =>
    obtain ⟨⟨r₂, len⟩, hpeek, hfst⟩ := Run.map_eq_ok.mp hr
    obtain rfl : r₂ = r₁ := hfst
    obtain ⟨⟨r₃, len'⟩, -, heq⟩ := Run.bind_eq_ok.mp hpeek
    obtain ⟨rfl, -⟩ := Prod.mk.inj (Except.ok.inj heq)
    exact le_of_eq (Nat.zero_add _)
  | setFail =>
    obtain rfl := Except.ok.inj hr
    exact le_of_eq (Nat.zero_add _)
  | restart =>
    have hle := hsound.used_le
    simp only [ReaderOp.delivered, ReaderOp.again]
    omega

theorem ReaderOp.succeeds_le_delivered {n : Nat} {op : ReaderOp} (hop : op.WithinLimits)
    {r : BitStreamReader} (h : r.Bounded e n) : op.succeeds e r ≤ op.delivered e r := by
  obtain ⟨hsound, hn, hlimit⟩ := h
  cases op with
  | read call =>
    exact ReadCall.succeeds_le_delivered hsound
      (call.checkSound_of_withinLimits r hsound (by omega) hop)
  | peekStringLength => exact Nat.zero_le _
  | setFail => exact Nat.zero_le _
  | restart => exact Nat.zero_le _

theorem sum_again (n : Nat) (ops : List ReaderOp) :
    (ops.map (ReaderOp.again n)).sum = n * (ops.map (ReaderOp.again 1)).sum := by
  induction ops with
  | nil => simp
  | cons op ops ih =>
    rw [List.map_cons, List.map_cons, List.sum_cons, List.sum_cons, ih, Nat.mul_add]
    cases op <;> simp [ReaderOp.again]

/-- Whatever bytes arrive and whatever calls are made on them, the reads that succeed deliver
no more data than the message has bits, each time the program starts from the front; and there
are no more of them, blocks of no bytes apart. -/
theorem reads_never_amplify (e : Endian) (r₀ : BitStreamReader) (span : WordSpan) (L : SizeType)
    (hb : (r₀.resetWith span L).fail = false) (hL : L.toNat ≤ gnsMaxMsgRecvSize)
    (ops : List ReaderOp) (hops : ∀ op ∈ ops, op.WithinLimits) :
    ∃ r, runOps e ops (r₀.resetWith span L) = .ok r ∧ r.usedBits.toNat ≤ 8 * L.toNat ∧
      Run.total (ReaderOp.exec e) (ReaderOp.delivered e) ops (r₀.resetWith span L) ≤
        r.usedBits.toNat + 8 * L.toNat * (ops.map (ReaderOp.again 1)).sum ∧
      Run.total (ReaderOp.exec e) (ReaderOp.succeeds e) ops (r₀.resetWith span L) ≤
        r.usedBits.toNat + 8 * L.toNat * (ops.map (ReaderOp.again 1)).sum := by
  obtain ⟨r, hr, -, -⟩ := runOps_ok (e := e) hb hL hops
  have ht := total_resetWith r₀ span hL
  have hstart : (r₀.resetWith span L).Bounded e (8 * L.toNat) :=
    ⟨BitStreamReader.resetWith_sound r₀ span L hb, ht, by omega⟩
  have hstep (op : ReaderOp) (hop : op ∈ ops) (s s' : BitStreamReader)
      (hs : s.Bounded e (8 * L.toNat)) (hs' : op.exec e s = .ok s') :=
    ReaderOp.delivered_le (hops op hop) hs hs'
  have hend := Run.run_invariant ops (fun op hop s s' hs hs' => (hstep op hop s s' hs hs').1)
    hstart hr
  have hbits := Run.total_le ops hstep hstart hr
  have hpaid (op : ReaderOp) (hop : op ∈ ops) (s s' : BitStreamReader)
      (hs : s.Bounded e (8 * L.toNat)) (hs' : op.exec e s = .ok s') :
      s'.Bounded e (8 * L.toNat) ∧ op.succeeds e s + s.logicalUsedBits.toNat ≤
        s'.logicalUsedBits.toNat + op.again (8 * L.toNat) := by
    have hle := ReaderOp.succeeds_le_delivered (hops op hop) hs
    obtain ⟨hs₁, hpay⟩ := hstep op hop s s' hs hs'
    exact ⟨hs₁, le_trans (Nat.add_le_add_right hle _) hpay⟩
  have hreads := Run.total_le ops hpaid hstart hr
  rw [sum_again] at hbits hreads
  have hused := hend.1.used_le
  rw [hend.2.1] at hused
  have hzero : (r₀.resetWith span L).logicalUsedBits.toNat = 0 := rfl
  rw [hzero, Nat.add_zero] at hbits hreads
  exact ⟨r, hr, hused, hbits, hreads⟩

/-- A bool read twice over, and then a string there are not enough bits for. -/
theorem reads_never_amplify_restart :
    ∃ r, runOps .little [.read (.int .bool ⟨0, by decide⟩ ⟨0, by decide⟩ ⟨1, by decide⟩), .restart,
        .read (.int .bool ⟨0, by decide⟩ ⟨0, by decide⟩ ⟨1, by decide⟩), .read (.string .char8 [] 9)]
      ((default : BitStreamReader).resetWith ⟨false, [0xff]⟩ 1) = .ok r ∧ r.usedBits.toNat ≤ 8 ∧
      2 ≤ r.usedBits.toNat + 8 := by
  obtain ⟨r, hr, hused, hbits, -⟩ := reads_never_amplify .little default ⟨false, [0xff]⟩ 1
    (by decide) (by decide)
    [.read (.int .bool ⟨0, by decide⟩ ⟨0, by decide⟩ ⟨1, by decide⟩), .restart,
      .read (.int .bool ⟨0, by decide⟩ ⟨0, by decide⟩ ⟨1, by decide⟩), .read (.string .char8 [] 9)]
    (by decide)
  exact ⟨r, hr, hused, hbits⟩

end Nalchi
