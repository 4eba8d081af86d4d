import Nalchi.Measuring
import Nalchi.Relay
import Nalchi.WriterFailure

/-! The C API. Its functions forward to the streams, and its strings are arrays in which
the streams look for the end themselves. -/
namespace Nalchi
open BitStreamWriter

/-- The integers the C API has functions for, beside `bool`. -/
inductive FlatInt where
  | s8 | u8 | s16 | u16 | s32 | u32 | s64 | u64
deriving DecidableEq, Repr

def FlatInt.intType : FlatInt → IntType
  | .s8 => .signed .w8
  | .u8 => .uint8
  | .s16 => .signed .w16
  | .u16 => .uint16
  | .s32 => .signed .w32
  | .u32 => .uint32
  | .s64 => .signed .w64
  | .u64 => .uint64

/-- A call of one of `nalchi_bit_stream_writer_write_*`, or of the measurer's. A string lies
in an array of `n` elements. -/
inductive FlatWrite where
  | bytes (data : Nat → IntType.uint8.Value) (size : SizeType)
  | bool (data : IntType.bool.Value)
  | int (t : FlatInt) (data min max : t.intType.Value)
  | float (data : BitVec 32)
  | double (data : BitVec 64)
  | string (c : CharType) (str : Nat → c.Value) (n : Nat)

/-- A call of one of `nalchi_bit_stream_reader_read_*`, with what its destination holds. -/
inductive FlatRead where
  | bytes (data : Nat → IntType.uint8.Value) (size : SizeType)
  | bool (data : IntType.bool.Value)
  | int (t : FlatInt) (data min max : t.intType.Value)
  | float (data : BitVec 32)
  | double (data : BitVec 64)
  | string (c : CharType) (str : Nat → c.Value) (maxLength : SizeType)

namespace FlatWrite

def exec (e : Endian) (put : FlatWrite) (w : BitStreamWriter) : Except Fault BitStreamWriter :=
  match put with
  | .bytes data size => w.writeBlock e data size
  | .bool data => w.writeInt e .bool data IntType.bool.minValue IntType.bool.maxValue
  | .int t data min max => w.writeInt e t.intType data min max
  | .float data => w.writeFloat e data
  | .double data => w.writeDouble e data
  | .string c str n => w.writeCString e c str n

def measure (put : FlatWrite) (m : BitStreamMeasurer) : Except Fault BitStreamMeasurer :=
  match put with
  | .bytes _ size => .ok (m.writeBlock size)
  | .bool _ => .ok (m.writeInt .bool IntType.bool.minValue IntType.bool.maxValue)
  | .int t _ min max => .ok (m.writeInt t.intType min max)
  | .float _ => .ok m.writeFloat
  | .double _ => .ok m.writeDouble
  | .string c str n => m.writeCString c str n

/-- The write of the C++ API this is, if its string has an end. -/
def call : FlatWrite → WriteCall
  | .bytes data size => .block data size
  | .bool data => .int .bool data IntType.bool.minValue IntType.bool.maxValue
  | .int t data min max => .int t.intType data min max
  | .float data => .float data
  | .double data => .double data
  | .string c str n => .string c (cstr str n)

def Terminated : FlatWrite → Prop
  | .string _ str n => Nalchi.Terminated str n
  | _ => True

end FlatWrite

/-- The read of the C++ API this is. -/
def FlatRead.call : FlatRead → ReadCall
  | .bytes data size => .block data size
  | .bool data => .int .bool data IntType.bool.minValue IntType.bool.maxValue
  | .int t data min max => .int t.intType data min max
  | .float data => .float data
  | .double data => .double data
  | .string c str maxLength => .cstring c str maxLength

/-- Any call a C program can make on a writer. -/
inductive FlatOp where
  | write (put : FlatWrite)
  | flushFinal
  | setFail
  | restart

namespace FlatOp

def exec (e : Endian) (op : FlatOp) (w : BitStreamWriter) : Except Fault BitStreamWriter :=
  match op with
  | .write put => put.exec e w
  | .flushFinal => w.flushFinal e
  | .setFail => .ok w.setFail
  | .restart => .ok w.restart

def op : FlatOp → WriterOp
  | .write put => .write put.call
  | .flushFinal => .flushFinal
  | .setFail => .setFail
  | .restart => .restart

def Terminated : FlatOp → Prop
  | .write put => put.Terminated
  | _ => True

end FlatOp

/-- The read that answers a write, into an array that is long enough. -/
inductive Answers : FlatWrite → FlatRead → Prop where
  | bytes (data dest : Nat → IntType.uint8.Value) (size : SizeType) :
    Answers (.bytes data size) (.bytes dest size)
  | bool (data dest : IntType.bool.Value) : Answers (.bool data) (.bool dest)
  | int (t : FlatInt) (data dest min max : t.intType.Value) :
    Answers (.int t data min max) (.int t dest min max)
  | float (data dest : BitVec 32) : Answers (.float data) (.float dest)
  | double (data dest : BitVec 64) : Answers (.double data) (.double dest)
  | string (c : CharType) (str dest : Nat → c.Value) (n : Nat) (maxLength : SizeType)
      (h : (cstr str n).length ≤ maxLength.toNat) :
    Answers (.string c str n) (.string c dest maxLength)

/-- What arrived: the same bytes and numbers, and the same string, ended within the array and
with what lies behind its end as it was. -/
inductive Arrives : FlatWrite → FlatRead → ReadCall → Prop where
  | bytes (data dest : Nat → IntType.uint8.Value) (size : SizeType) :
    Arrives (.bytes data size) (.bytes dest size)
      (.block (fun i => if i < size.toNat then data i else dest i) size)
  | bool (data dest : IntType.bool.Value) : Arrives (.bool data) (.bool dest)
      (.int .bool data IntType.bool.minValue IntType.bool.maxValue)
  | int (t : FlatInt) (data dest min max : t.intType.Value) :
    Arrives (.int t data min max) (.int t dest min max) (.int t.intType data min max)
  | float (data dest : BitVec 32) : Arrives (.float data) (.float dest) (.float data)
  | double (data dest : BitVec 64) : Arrives (.double data) (.double dest) (.double data)
  | string (c : CharType) (str dest after : Nat → c.Value) (n : Nat) (maxLength : SizeType)
      (hstr : ∀ k, maxLength.toNat < k → Terminated after k ∧ cstr after k = cstr str n)
      (hkept : ∀ i, (cstr str n).length < i → after i = dest i) :
    Arrives (.string c str n) (.string c dest maxLength) (.cstring c after maxLength)

section
variable {e : Endian}

namespace FlatWrite

variable {put : FlatWrite}

theorem exec_eq (h : put.Terminated) (w : BitStreamWriter) :
    put.exec e w = put.call.exec e w := by
  cases put with
  | string c str n =>
    simp only [exec, writeCString, viewOf_eq h, Run.bind_ok]
    rfl
  | _ => rfl

theorem measure_eq (h : put.Terminated) (m : BitStreamMeasurer) :
    put.measure m = .ok (put.call.measure m) := by
  cases put with
  | string c str n =>
    simp only [measure, BitStreamMeasurer.writeCString, viewOf_eq h, Run.bind_ok]
    rfl
  | _ => rfl

/-- Without an end the stream goes on behind the array. -/
theorem terminated_of_exec {w w' : BitStreamWriter} (h : put.exec e w = .ok w') :
    put.Terminated := by
  cases put with
  | string c str n =>
    by_contra hno
    have hno : ¬ Nalchi.Terminated str n := hno
    simp only [exec, writeCString, viewOf_of_not_terminated hno, Run.bind_error] at h
    cases h
  | _ => trivial

end FlatWrite

namespace FlatOp

variable {op : FlatOp}

theorem exec_eq (h : op.Terminated) (w : BitStreamWriter) : op.exec e w = op.op.exec e w := by
  cases op with
  | write put => exact FlatWrite.exec_eq h w
  | _ => rfl

theorem terminated_of_exec {w w' : BitStreamWriter} (h : op.exec e w = .ok w') :
    op.Terminated := by
  cases op with
  | write put => exact FlatWrite.terminated_of_exec h
  | _ => trivial

end FlatOp

/-- What a C program has to see to. Whatever else it does with a writer, and whether or not
there is room for its strings, the stream stays within the arrays of all of them exactly if
each has a null in it. -/
theorem flat_run_ok_iff (e : Endian) (w₀ : BitStreamWriter) (span : WordSpan) (L : SizeType)
    (hb : (w₀.resetWith span L).fail = false) (hL : L.toNat ≤ gnsMaxMsgRecvSize)
    (ops : List FlatOp) (hops : ∀ op ∈ ops, op.op.WithinLimits) :
    (∃ w, Run.run (FlatOp.exec e) ops (w₀.resetWith span L) = .ok w) ↔
      ∀ op ∈ ops, op.Terminated := by
  constructor
  · rintro ⟨w, hw⟩
    generalize w₀.resetWith span L = s at hw
    clear hops
    induction ops generalizing s with
    | nil => simp
    | cons op ops ih =>
      obtain ⟨s', hs', hw⟩ := Run.bind_eq_ok.mp hw
      intro op' hmem
      obtain rfl | hmem := List.mem_cons.mp hmem
      · exact FlatOp.terminated_of_exec hs'
      · exact ih s' hw op' hmem
  · intro hterm
    obtain ⟨w, hw, -⟩ := runOps_withinLimits (e := e) hb hL (ops.map FlatOp.op) (by simpa using hops)
    refine ⟨w, ?_⟩
    rw [runOps, Run.run_map] at hw
    rw [← hw]
    exact Run.run_congr ops (Run.along_of_forall ops
      (fun op hop w => FlatOp.exec_eq (hterm op hop) w) _)

/-- The stream looks for the end of a string even when it has already failed. -/
theorem flat_run_ok_iff_failed :
    ¬ ∃ w, Run.run (FlatOp.exec .little)
        [.setFail, .write (.string .char8 (fun _ => ⟨65, by decide⟩) 3)]
        ((default : BitStreamWriter).resetWith ⟨false, [0]⟩ 4) = .ok w := by
  intro h
  have hterm := (flat_run_ok_iff .little default ⟨false, [0]⟩ 4 (by decide) (by decide)
    [.setFail, .write (.string .char8 (fun _ => ⟨65, by decide⟩) 3)] (by
      intro op hop
      simp only [List.mem_cons, List.not_mem_nil, or_false] at hop
      obtain rfl | rfl := hop
      · trivial
      · exact lt_of_le_of_lt (length_cstr_le _ 3) (by decide))).mp h
  obtain ⟨i, -, hi⟩ := hterm _ (List.mem_cons_of_mem _ (List.mem_singleton_self _))
  exact absurd hi (show ¬ (65 : Int) = 0 by decide)

/-- The writes of a C program whose strings have ends, counted and made. -/
theorem flat_writes_eq {writes : List FlatWrite} (h : ∀ put ∈ writes, put.Terminated)
    (w : BitStreamWriter) (m : BitStreamMeasurer) :
    Run.run (FlatWrite.exec e) writes w = writeAll e (writes.map FlatWrite.call) w ∧
      Run.run FlatWrite.measure writes m =
        .ok (BitStreamMeasurer.measureAll (writes.map FlatWrite.call) m) := by
  constructor
  · rw [writeAll, Run.run_map]
    exact Run.run_congr writes (Run.along_of_forall writes
      (fun put hput w => FlatWrite.exec_eq (h put hput) w) w)
  · induction writes generalizing m with
    | nil => rfl
    | cons put writes ih =>
      rw [Run.run, FlatWrite.measure_eq (h put (by simp)), Run.bind_ok,
        ih fun put' hput => h put' (by simp [hput])]
      rfl

/-- A read that answers delivers, and what it delivers has arrived. -/
theorem Answers.delivers {put : FlatWrite} {get : FlatRead} (h : Answers put get) :
    ∃ after, Delivers put.call get.call after ∧ Arrives put get after := by
  cases h with
  | bytes data dest size => exact ⟨_, .block _ _ _, .bytes _ _ _⟩
  | bool data dest => exact ⟨_, .int _ _ _ _ _, .bool _ _⟩
  | int t data dest min max => exact ⟨_, .int _ _ _ _ _, .int _ _ _ _ _⟩
  | float data dest => exact ⟨_, .float _ _, .float _ _⟩
  | double data dest => exact ⟨_, .double _ _, .double _ _⟩
  | string c str dest n maxLength h =>
    refine ⟨_, .cstring c (cstr str n) dest maxLength h, .string _ _ _ _ _ _ (fun k hk => ?_) ?_⟩
    · have hlt : (cstr str n).length < k := by omega
      refine ⟨terminated_overlay dest _ hlt, ?_⟩
      rw [cstr_overlay dest _ hlt]
      exact List.takeWhile_idem
    · intro i hi
      rw [overlay, List.getElem?_eq_none (by simp; omega)]
      rfl

/-- The reads of a C program, as the calls they are and with what they deliver. -/
theorem flat_plan (calls : List (FlatWrite × FlatRead)) (h : ∀ q ∈ calls, Answers q.1 q.2) :
    ∃ plan : List (WriteCall × ReadCall × ReadCall),
      (plan.map fun q => q.1) = calls.map (fun q => q.1.call) ∧
      (plan.map fun q => q.2.1) = calls.map (fun q => q.2.call) ∧
      (∀ q ∈ plan, Delivers q.1 q.2.1 q.2.2) ∧
      List.Forall₂ (fun q after => Arrives q.1 q.2 after) calls (plan.map fun q => q.2.2) := by
  induction calls with
  | nil => exact ⟨[], rfl, rfl, by simp, .nil⟩
  | cons q calls ih =>
    obtain ⟨after, hd, ha⟩ := (h q (by simp)).delivers
    obtain ⟨plan, hwrites, hreads, hall, harrive⟩ := ih fun q' hq => h q' (by simp [hq])
    refine ⟨(q.1.call, q.2.call, after) :: plan, ?_, ?_, ?_, .cons ha harrive⟩
    · rw [List.map_cons, List.map_cons, hwrites]
    · rw [List.map_cons, List.map_cons, hreads]
    · intro q' hq
      obtain rfl | hq := List.mem_cons.mp hq
      · exact hd
      · exact hall q' hq

/-- Round trip through the C API. What a C program writes, out of arrays that have ends, and
flushes un-failed, the measurer has counted to the bit, and another reads into arrays of more
than `max_length` elements: the same bytes and numbers, and the same strings. -/
theorem flat_round_trip (e₁ e₂ : Endian) (w₀ : BitStreamWriter) (span : WordSpan) (L : SizeType)
    (hb : (w₀.resetWith span L).fail = false) (hL : L.toNat ≤ gnsMaxMsgRecvSize)
    (m₀ : BitStreamMeasurer) (calls : List (FlatWrite × FlatRead))
    (hc : ∀ q ∈ calls, q.1.call.WithinLimits ∧ q.1.Terminated ∧ Answers q.1 q.2) :
    ∃ m w₁, Run.run FlatWrite.measure (calls.map fun q => q.1) m₀.restart = .ok m ∧
      Run.run (FlatWrite.exec e₁) (calls.map fun q => q.1) (w₀.resetWith span L) = .ok w₁ ∧
      (w₁.fail = false → ∃ w₂, w₁.flushFinal e₁ = .ok w₂ ∧ w₂.usedBits = m.usedBits ∧
        ∀ (k : Nat) (r₀ : BitStreamReader) (span' : WordSpan) (L' : SizeType),
          wordsFor w₂.usedBits.toNat ≤ k →
          memoryBytes e₂ span'.words = memoryBytes e₁ (w₂.words.take k) →
          (r₀.resetWith span' L').fail = false → L'.toNat ≤ gnsMaxMsgRecvSize →
          w₂.usedBytes.toNat ≤ L'.toNat →
          ∃ r afters, (r₀.resetWith span' L').readAll e₂ (calls.map fun q => q.2.call) =
              .ok (r, afters) ∧ r.fail = false ∧ r.usedBits = m.usedBits ∧
            List.Forall₂ (fun q after => Arrives q.1 q.2 after) calls afters) := by
  have h23 : 8 * gnsMaxMsgRecvSize = 2 ^ 23 := by decide
  have hterm : ∀ put ∈ calls.map fun q => q.1, put.Terminated := by
    intro put hput
    obtain ⟨q, hq, rfl⟩ := List.mem_map.mp hput
    exact (hc q hq).2.1
  obtain ⟨hwrites, hmeasure⟩ := flat_writes_eq (e := e₁) hterm (w₀.resetWith span L) m₀.restart
  obtain ⟨plan, hplan, hreads, hd, harrive⟩ := flat_plan calls fun q hq => (hc q hq).2.2
  have hmap : (calls.map fun q => q.1).map FlatWrite.call = plan.map fun q => q.1 := by
    rw [hplan, List.map_map]
    rfl
  rw [hmap] at hwrites hmeasure
  have hlimits : ∀ call ∈ plan.map fun q => q.1, call.WithinLimits := by
    intro call hcall
    rw [hplan] at hcall
    obtain ⟨q, hq, rfl⟩ := List.mem_map.mp hcall
    exact (hc q hq).1
  obtain ⟨w₁, hw₁, h⟩ := writeAll_flushFinal (e := e₁) _ hlimits _
    (resetWith_sound w₀ span L hb) hb rfl (written_restart _) (total_le_limit hL)
  refine ⟨_, w₁, hmeasure, hwrites.trans hw₁, fun hf => ?_⟩
  obtain ⟨⟨hv, hfit⟩, w₂, hw₂, hflushed⟩ := h hf
  have hlen : (encodeAll (plan.map fun q => q.1)).length ≤ 2 ^ 23 := by
    have ht := total_le_limit hL
    change 0 + _ ≤ (8 * L).toNat at hfit
    omega
  have hu : w₂.usedBits.toNat = (encodeAll (plan.map fun q => q.1)).length := hflushed.used
  have hm := toNat_measureAll_restart _ m₀ hv (by omega)
  have hcounted := BitVec.eq_of_toNat_eq (hu.trans hm.symm)
  refine ⟨w₂, hw₂, hcounted, fun k r₀ span' L' hk hbytes hb' hL' hused => ?_⟩
  obtain ⟨r, hr, hf', hru⟩ := readAll_flushed hflushed (fun q hq =>
    ⟨hlimits _ (List.mem_map_of_mem hq), hv _ (List.mem_map_of_mem hq), hd q hq⟩) (by omega) hk r₀
    hbytes hb' hL' hused
  rw [hreads] at hr
  exact ⟨r, _, hr, hf', hru.trans hcounted, harrive⟩

/-- A flag and an array that holds "A", with something else behind the null. -/
theorem flat_round_trip_small :
    ∃ r flag str, ((default : BitStreamReader).resetWith ⟨false, [0x09080200]⟩ 3).readAll .big
        [.int .bool ⟨0, by decide⟩ IntType.bool.minValue IntType.bool.maxValue,
          .cstring .char8 (fun _ => ⟨7, by decide⟩) 9] =
          .ok (r, [flag, .cstring .char8 str 9]) ∧ r.fail = false ∧ r.usedBits = 19 ∧
      cstr str 10 = [⟨65, by decide⟩] := by
  obtain ⟨m, w₁, hm, hw₁, h⟩ := flat_round_trip .little .big default ⟨false, [0]⟩ 4 (by decide)
    (by decide) {} [(.bool ⟨1, by decide⟩, .bool ⟨0, by decide⟩),
      (.string .char8 (fun i => if i = 1 then ⟨0, by decide⟩ else ⟨65, by decide⟩) 4,
        .string .char8 (fun _ => ⟨7, by decide⟩) 9)] (by
      intro q hq
      simp only [List.mem_cons, List.not_mem_nil, or_false] at hq
      obtain rfl | rfl := hq
      · exact ⟨trivial, trivial, .bool _ _⟩
      · exact ⟨lt_of_le_of_lt (length_cstr_le _ 4) (by decide), ⟨1, by decide, by decide⟩,
          .string _ _ _ _ _ (by decide)⟩)
  have hcount : Run.run FlatWrite.measure [.bool ⟨1, by decide⟩,
      .string .char8 (fun i => if i = 1 then ⟨0, by decide⟩ else ⟨65, by decide⟩) 4]
      (BitStreamMeasurer.restart {}) = .ok ⟨19⟩ := by decide
  obtain rfl := Run.ok_unique hm hcount
  have hcalls : Run.run (FlatWrite.exec .little) [.bool ⟨1, by decide⟩,
      .string .char8 (fun i => if i = 1 then ⟨0, by decide⟩ else ⟨65, by decide⟩) 4]
      ((default : BitStreamWriter).resetWith ⟨false, [0]⟩ 4) =
    .ok (BitStreamWriter.mk 0x20809 [0] 19 0 32 19 false false false) := by decide
  obtain rfl := Run.ok_unique hw₁ hcalls
  obtain ⟨w₂, hw₂, -, h⟩ := h rfl
  have hflush : (BitStreamWriter.mk 0x20809 [0] 19 0 32 19 false false false).flushFinal .little =
    .ok (BitStreamWriter.mk 0 [0x20809] 0 1 32 19 false false true) := by decide
  obtain rfl := Run.ok_unique hw₂ hflush
  obtain ⟨r, afters, hr, hf, hu, harrive⟩ := h 1 default ⟨false, [0x09080200]⟩ 3 (by decide)
    (by decide) (by decide) (by decide) (by decide)
  obtain ⟨⟩ | ⟨-, ⟨⟩ | ⟨hstr, ⟨⟩⟩⟩ := harrive
  cases hstr with
  | string c str dest after n maxLength hstr hkept =>
    exact ⟨r, _, after, hr, hf, hu, (hstr 10 (by decide)).2⟩

end
end Nalchi
