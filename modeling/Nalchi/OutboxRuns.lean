import Nalchi.Outbox

/-! Whole runs of the outbox: no message in the making gets anything from another, and
one in flight arrives as it was made. -/
namespace Nalchi
open SharedPayload SocketExtensions Ownership
open Function (update)

namespace Store

variable {s s' : Store} {ptr : Nat}

/-- A step of a thread leaves the payloads the program holds alone. -/
theorem Sound.threadStep_frame (h : s.Sound) {i : Nat} {action : Action}
    (ha : Allowed (.thread i action) s) (hs' : s.threadStep i action = .ok s')
    (hptr : ptr ∈ s.held) : s'.held = s.held ∧ s'.heap ptr = s.heap ptr := by
  obtain ⟨send, hi, hen⟩ := ha
  have hmem := List.mem_of_getElem? hi
  have hsend := h.sends send hmem
  obtain ⟨w, hw, -, hcase⟩ := hsend.exec hen
  have hstep : s.threadStep i action = .ok { s with
      heap := update s.heap (send.pointer action) w.memory
      sends := s.sends.set i (send.after w) } := by
    rw [Store.threadStep, hi]
    simp only [hw]
    rfl
  obtain rfl := Run.ok_unique hstep hs'
  refine ⟨rfl, ?_⟩
  obtain ⟨hown, -⟩ | ⟨-, hmemory, -⟩ := hcase
  · refine Function.update_of_ne ?_ _ _
    rintro rfl
    rw [hsend.pointer hen] at hptr
    exact (List.nodup_append.mp h.owned.nodup).2.2 _ hptr _ (mem_ownedBy hmem hown) rfl
  · change update s.heap (send.pointer action) w.memory ptr = s.heap ptr
    rw [hmemory, Function.update_eq_self]

/-- Whatever happens leaves a payload the program holds alone, if it is not about it. -/
theorem Sound.exec_frame (h : s.Sound) {event : Event} (ha : Allowed event s)
    (hs' : Store.exec event s = .ok s') (hptr : ptr ∈ s.held) (hne : event.target ≠ some ptr) :
    ptr ∈ s'.held ∧ s'.heap ptr = s.heap ptr := by
  have hne' {a : Nat} (heq : event.target = some a) : ptr ≠ a := by
    rintro rfl
    exact hne heq
  cases event with
  | allocate size raw =>
    cases hp : SharedPayload.allocate (fun _ => raw) size with
    | none =>
      simp only [Store.exec, hp] at hs'
      obtain rfl := Except.ok.inj hs'
      exact ⟨hptr, rfl⟩
    | some p =>
      simp only [Store.exec, hp] at hs'
      obtain rfl := Except.ok.inj hs'
      refine ⟨List.mem_cons_of_mem _ hptr, Function.update_of_ne ?_ _ _⟩
      rintro rfl
      obtain ⟨q, hq, hqp, -⟩ := h.live hptr
      exact apart_ptr_ne (ha p hp _ q hq) hqp
  | resetWith a =>
    obtain ⟨p, -, hs'⟩ := Run.bind_eq_ok.mp hs'
    obtain rfl := Except.ok.inj hs'
    exact ⟨hptr, Function.update_of_ne (hne' rfl) _ _⟩
  | storeWord a i word =>
    obtain ⟨p, -, hs'⟩ := Run.bind_eq_ok.mp hs'
    split_ifs at hs'
    obtain rfl := Except.ok.inj hs'
    exact ⟨hptr, Function.update_of_ne (hne' rfl) _ _⟩
  | forceDeallocate a =>
    obtain ⟨p, -, hs'⟩ := Run.bind_eq_ok.mp hs'
    obtain rfl := Except.ok.inj hs'
    exact ⟨(List.mem_erase_of_ne (hne' rfl)).mpr hptr, Function.update_of_ne (hne' rfl) _ _⟩
  | multicast a call =>
    obtain ⟨p, -, hs'⟩ := Run.bind_eq_ok.mp hs'
    obtain rfl := Except.ok.inj hs'
    exact ⟨(List.mem_erase_of_ne (hne' rfl)).mpr hptr, rfl⟩
  | unicast a call =>
    obtain ⟨p, -, hs'⟩ := Run.bind_eq_ok.mp hs'
    obtain rfl := Except.ok.inj hs'
    exact ⟨(List.mem_erase_of_ne (hne' rfl)).mpr hptr, rfl⟩
  | thread i action =>
    obtain ⟨hheld, hheap⟩ := h.threadStep_frame ha hs' hptr
    exact ⟨by rw [hheld]; exact hptr, hheap⟩

end Store

variable {e : Endian}

theorem WriterOp.exec_of_fail (op : WriterOp) (w : BitStreamWriter) (hf : w.fail = true) :
    ∃ w', op.exec e w = .ok w' := by
  cases op with
  | write call => exact ⟨_, call.exec_of_closed w (.inl hf)⟩
  | flushFinal => exact ⟨w, by simp [WriterOp.exec, BitStreamWriter.flushFinal, hf]⟩
  | setFail => exact ⟨_, rfl⟩
  | restart => exact ⟨_, rfl⟩

namespace Bound

variable {b : Bound} {p : SharedPayload}

theorem Sound.initial_fail (h : b.Sound e p) (hf : b.writer.fail = false) :
    b.initial.fail = false := by
  by_contra hno
  have hno : b.initial.fail = true := by simpa using hno
  have hfail := (BitStreamWriter.unbound_of_runOps hno h.runs).1
  exact absurd (hf.symm.trans hfail) (by simp)

/-- A writer over a payload never stores beyond it, bound successfully or not. -/
theorem Sound.exec (h : b.Sound e p) {op : WriterOp} (hop : op.WithinLimits) :
    ∃ w, op.exec e (b.onto p.words) = .ok w ∧ w.words.length = p.words.length := by
  obtain ⟨w, hw⟩ : ∃ w, op.exec e (b.onto p.words) = .ok w := by
    by_cases hf : (b.onto p.words).fail = true
    · exact op.exec_of_fail _ hf
    have hf : (b.onto p.words).fail = false := by simpa using hf
    have hb := h.initial_fail hf
    have hL := resetWithPayload_length b.object b.payload b.length hb
    have hceil := b.payload.wordCeiledSize_le
    have hlimit : gnsMaxMsgRecvSize = 2 * gnsMaxMsgSendSize := rfl
    obtain ⟨hsound, ht⟩ := BitStreamWriter.sound_of_runOps (by omega) h.withinLimits h.runs hf
    obtain ⟨w, hw, -⟩ := op.exec_sound (e := e) _ hsound
      (op.checkSound_of_withinLimits _ hsound ht hop)
    exact ⟨w, hw⟩
  exact ⟨w, hw, (op.exec_keeps hw).length⟩

/-- One more call, in the outbox and alone. -/
theorem Sound.step (h : b.Sound e p) {op : WriterOp} (hop : op.WithinLimits) {w : BitStreamWriter}
    (hw : op.exec e (b.onto p.words) = .ok w) (hlen : w.words.length = p.words.length) :
    Bound.Sound e (p.withWords w.words hlen) { b with ops := b.ops ++ [op], writer := w } := by
  refine ⟨h.usedBitStream, h.size, fun op' hmem => ?_, ?_⟩
  · obtain hmem | hmem := List.mem_append.mp hmem
    · exact h.withinLimits op' hmem
    · rw [List.mem_singleton.mp hmem]
      exact hop
  · change Run.run (WriterOp.exec e) (b.ops ++ [op]) b.initial = _
    have hruns : Run.run (WriterOp.exec e) b.ops b.initial = _ := h.runs
    rw [Run.run_append, hruns, Run.bind_ok, Run.run_singleton, hw]
    rfl

/-- Fresh from `reset_with`. -/
theorem sound_resetWith (object : BitStreamWriter) (p : SharedPayload) (L : SizeType) :
    Bound.Sound e (p.setUsedBitStream true)
      ⟨object, p, L, [], (object.resetWithPayload p L).1⟩ := by
  refine ⟨usedBitStream_setUsedBitStream p, size_setUsedBitStream p true, by simp, ?_⟩
  have hwords : (object.resetWithPayload p L).1.words = p.words :=
    words_span (p.setUsedBitStream true)
  change Except.ok (object.resetWithPayload p L).1 = .ok { (object.resetWithPayload p L).1 with
    words := p.words }
  rw [← hwords]

end Bound

namespace Outbox

variable {o : Outbox}

theorem forget_eq_some {writers : Nat → Option Bound} {target : Option Nat} {ptr : Nat} {b : Bound}
    (h : forget writers target ptr = some b) : writers ptr = some b ∧ target ≠ some ptr := by
  cases target with
  | none => exact ⟨h, by simp⟩
  | some a =>
    by_cases he : ptr = a
    · simp [forget, he] at h
    · exact ⟨by simpa [forget, he] using h, by simpa using fun heq : a = ptr => he heq.symm⟩

/-- Storing to one held payload, with its writer moved on. -/
theorem Sound.store_writer (h : o.Sound e) {ptr : Nat} (hptr : ptr ∈ o.store.held)
    {p : SharedPayload} (hp : p.ptr = ptr) (hc : p.refCount = 0) {b : Bound} (hb : b.Sound e p) :
    Outbox.Sound e ⟨{ o.store with heap := update o.store.heap ptr (some p) },
      update o.writers ptr (some b)⟩ := by
  refine ⟨h.store.store hptr hp hc, fun a b' hb' => ?_⟩
  by_cases he : a = ptr
  · subst he
    obtain rfl : b = b' := by simpa using hb'
    exact ⟨hptr, fun q hq => by
      obtain rfl : p = q := by simpa using hq
      exact hb⟩
  · obtain ⟨ha, hsound⟩ := h.writers a b' (by simpa [he] using hb')
    exact ⟨ha, fun q hq => hsound q (by simpa [he] using hq)⟩

theorem Sound.exec (h : o.Sound e) {event : OutboxEvent} (ha : Allowed event o) :
    ∃ o', Outbox.exec e event o = .ok o' ∧ o'.Sound e := by
  cases event with
  | store event =>
    obtain ⟨s', hs', hsound⟩ := h.store.exec ha.1
    refine ⟨⟨s', forget o.writers event.target⟩, by rw [Outbox.exec, hs']; rfl, hsound,
      fun ptr b hb => ?_⟩
    obtain ⟨hb, hne⟩ := forget_eq_some hb
    obtain ⟨hheld, hbsound⟩ := h.writers ptr b hb
    obtain ⟨hheld', hheap⟩ := h.store.exec_frame ha.1 hs' hheld hne
    exact ⟨hheld', fun p hp => hbsound p (hheap ▸ hp)⟩
  | resetWith object ptr L =>
    obtain ⟨p, hp, hpp, hc⟩ := h.store.live ha
    exact ⟨_, by rw [Outbox.exec, Store.access_of_heap hp]; rfl,
      h.store_writer ha (p := p.setUsedBitStream true) hpp hc (Bound.sound_resetWith object p L)⟩
  | write ptr op =>
    obtain ⟨hsome, hop⟩ := ha
    obtain ⟨b, hb⟩ := Option.isSome_iff_exists.mp hsome
    obtain ⟨hptr, hbsound⟩ := h.writers ptr b hb
    obtain ⟨p, hp, hpp, hc⟩ := h.store.live hptr
    obtain ⟨w, hw, hlen⟩ := (hbsound p hp).exec hop
    refine ⟨_, ?_, h.store_writer hptr (p := p.withWords w.words hlen) hpp hc
      ((hbsound p hp).step hop hw hlen)⟩
    rw [Outbox.exec, hb]
    simp only [Store.access_of_heap hp, Run.bind_ok, hw, dif_pos hlen, Run.pure_ok]

theorem empty_sound : empty.Sound e :=
  ⟨Store.empty_sound, fun _ _ h => by cases h⟩

theorem run_sound {events : List OutboxEvent}
    (ha : Run.Along (Outbox.exec e) Allowed events empty) :
    ∃ o, Run.run (Outbox.exec e) events empty = .ok o ∧ o.Sound e :=
  Run.run_ok events (fun _ _ hs hallowed => hs.exec hallowed) empty_sound ha

end Outbox

namespace Store

/-- Sends are never taken back: the list grows, and what was handed over is as it was. -/
def SameSends (s s' : Store) : Prop :=
  ∀ (i : Nat) (send : Send), s.sends[i]? = some send →
    ∃ send' : Send, s'.sends[i]? = some send' ∧ send'.payload = send.payload ∧ send'.call = send.call

theorem SameSends.refl (s : Store) : SameSends s s := fun _ send h => ⟨send, h, rfl, rfl⟩

theorem SameSends.trans {s t u : Store} (h : SameSends s t) (h' : SameSends t u) :
    SameSends s u := by
  intro i send hi
  obtain ⟨send₁, hi₁, hp₁, hc₁⟩ := h i send hi
  obtain ⟨send₂, hi₂, hp₂, hc₂⟩ := h' i send₁ hi₁
  exact ⟨send₂, hi₂, hp₂.trans hp₁, hc₂.trans hc₁⟩

theorem SameSends.append {s : Store} {sends : List Send} {s' : Store}
    (h : s'.sends = s.sends ++ sends) : SameSends s s' := by
  intro i send hi
  have hlt := (List.getElem?_eq_some_iff.mp hi).1
  exact ⟨send, by rw [h, List.getElem?_append_left hlt, hi], rfl, rfl⟩

theorem exec_sends (event : Event) : Run.Keeps SameSends (Store.exec event) := by
  intro s s' hs'
  cases event with
  | allocate size raw =>
    simp only [Store.exec] at hs'
    split at hs' <;> rw [← Except.ok.inj hs'] <;> exact SameSends.refl s
  | resetWith a =>
    obtain ⟨p, -, hs'⟩ := Run.bind_eq_ok.mp hs'
    rw [← Except.ok.inj hs']
    exact SameSends.refl s
  | storeWord a i word =>
    obtain ⟨p, -, hs'⟩ := Run.bind_eq_ok.mp hs'
    split_ifs at hs'
    rw [← Except.ok.inj hs']
    exact SameSends.refl s
  | forceDeallocate a =>
    obtain ⟨p, -, hs'⟩ := Run.bind_eq_ok.mp hs'
    rw [← Except.ok.inj hs']
    exact SameSends.refl s
  | multicast a call =>
    obtain ⟨p, -, hs'⟩ := Run.bind_eq_ok.mp hs'
    rw [← Except.ok.inj hs']
    exact SameSends.append rfl
  | unicast a call =>
    obtain ⟨p, -, hs'⟩ := Run.bind_eq_ok.mp hs'
    rw [← Except.ok.inj hs']
    exact SameSends.append rfl
  | thread i action =>
    simp only [Store.exec, Store.threadStep] at hs'
    split at hs'
    · rw [← Except.ok.inj hs']
      exact SameSends.refl s
    · rename_i send hi
      obtain ⟨w, -, hs'⟩ := Run.bind_eq_ok.mp hs'
      rw [← Except.ok.inj hs']
      intro j send' hj
      by_cases hij : i = j
      · subst hij
        obtain rfl := Option.some.inj (hi.symm.trans hj)
        have hlt := (List.getElem?_eq_some_iff.mp hi).1
        exact ⟨send.after w, by simp [hlt], rfl, rfl⟩
      · exact ⟨send', by simp [hij, hj], rfl, rfl⟩

end Store

namespace Outbox

variable {o o' : Outbox}

theorem exec_sends (event : OutboxEvent) :
    Run.Keeps (fun o o' => Store.SameSends o.store o'.store) (Outbox.exec e event) := by
  intro o o' ho'
  cases event with
  | store event =>
    obtain ⟨s', hs', ho'⟩ := Run.bind_eq_ok.mp ho'
    rw [← Except.ok.inj ho']
    exact Store.exec_sends event hs'
  | resetWith object ptr L =>
    obtain ⟨p, -, ho'⟩ := Run.bind_eq_ok.mp ho'
    rw [← Except.ok.inj ho']
    exact Store.SameSends.refl _
  | write ptr op =>
    simp only [Outbox.exec] at ho'
    split at ho'
    · cases ho'
    · obtain ⟨p, -, ho'⟩ := Run.bind_eq_ok.mp ho'
      obtain ⟨w, -, ho'⟩ := Run.bind_eq_ok.mp ho'
      split_ifs at ho'
      rw [← Except.ok.inj ho']
      exact Store.SameSends.refl _

theorem run_sends (events : List OutboxEvent) (h : Run.run (Outbox.exec e) events o = .ok o') :
    Store.SameSends o.store o'.store := by
  refine Run.Keeps.run (R := fun o o' => Store.SameSends o.store o'.store) ?_ ?_ ?_ events h
  · exact fun o => Store.SameSends.refl o.store
  · intro s t u hst htu
    exact hst.trans htu
  · exact fun event => exec_sends event

/-- What a bound writer that was only written to and flushed has put into its payload. -/
theorem flushed_of_ops {b : Bound} {p : SharedPayload} (h : b.Sound e p) {calls : List WriteCall}
    (hops : b.ops = calls.map WriterOp.write ++ [.flushFinal]) (hf : b.writer.fail = false) :
    (∀ call ∈ calls, call.WithinLimits ∧ call.Valid) ∧
      BitStreamWriter.Flushed e b.initial (b.onto p.words) (encodeAll calls) := by
  have hb := h.initial_fail hf
  have hL := resetWithPayload_length b.object b.payload b.length hb
  have hceil := b.payload.wordCeiledSize_le
  have hlimit : gnsMaxMsgRecvSize = 2 * gnsMaxMsgSendSize := rfl
  have hcalls : ∀ call ∈ calls, call.WithinLimits := fun call hcall => by
    have hmem : WriterOp.write call ∈ b.ops := by
      rw [hops]
      exact List.mem_append_left _ (List.mem_map_of_mem hcall)
    exact h.withinLimits _ hmem
  obtain ⟨w₁, hw₁, hflush⟩ := writeAll_flushFinal (e := e) calls hcalls b.initial
    (BitStreamWriter.resetWith_sound b.object _ b.length hb) hb rfl
    (BitStreamWriter.written_restart _) (total_le_limit (by omega))
  have hruns : Run.run (WriterOp.exec e) b.ops b.initial = _ := h.runs
  have hwrites : Run.run (WriterOp.exec e) (calls.map WriterOp.write) b.initial = .ok w₁ := by
    rw [Run.run_map]
    exact hw₁
  rw [hops, Run.run_append, hwrites, Run.bind_ok, Run.run_singleton] at hruns
  have hruns : w₁.flushFinal e = .ok (b.onto p.words) := hruns
  have hf₁ : w₁.fail = false := by
    by_contra hno
    have hno : w₁.fail = true := by simpa using hno
    rw [BitStreamWriter.flushFinal, if_pos hno] at hruns
    obtain rfl := Except.ok.inj hruns
    exact absurd (hf.symm.trans hno) (by simp)
  obtain ⟨⟨hv, -⟩, w₂, hw₂, hd⟩ := hflush hf₁
  obtain rfl := Run.ok_unique hruns hw₂
  exact ⟨fun call hcall => ⟨hcalls call hcall, hv call hcall⟩, hd⟩

/-- No writer notices another. Whatever else the program fills, sends and releases meanwhile,
nothing faults, and a writer and the words of its payload are where the calls made on it would
have taken them alone. -/
theorem writers_isolated (e : Endian) (events : List OutboxEvent)
    (ha : Run.Along (Outbox.exec e) Allowed events empty) :
    ∃ o, Run.run (Outbox.exec e) events empty = .ok o ∧
      ∀ ptr b, o.writers ptr = some b → ∃ p, o.store.heap ptr = some p ∧
        p.usedBitStream ∧ p.size = b.payload.size ∧
        b.initial.runOps e b.ops = .ok (b.onto p.words) := by
  obtain ⟨o, ho, hsound⟩ := run_sound ha
  refine ⟨o, ho, fun ptr b hb => ?_⟩
  obtain ⟨hptr, hbsound⟩ := hsound.writers ptr b hb
  obtain ⟨p, hp, -, -⟩ := hsound.store.live hptr
  have hbp := hbsound p hp
  exact ⟨p, hp, hbp.usedBitStream, hbp.size, hbp.runs⟩

/-- Two payloads filled in turns. -/
theorem writers_isolated_two :
    ∃ o, Run.run (Outbox.exec .big) [.store (.allocate 4 (some ⟨0x1000, fun _ => 0⟩)),
        .resetWith default 0x1008 4, .store (.allocate 4 (some ⟨0x2000, fun _ => 0⟩)),
        .resetWith default 0x2008 4, .write 0x1008 (.write (.float 1)), .write 0x2008 .flushFinal,
        .write 0x1008 .flushFinal] empty = .ok o ∧
      ∀ ptr b, o.writers ptr = some b → ∃ p, o.store.heap ptr = some p ∧
        p.usedBitStream ∧ p.size = b.payload.size ∧
        b.initial.runOps .big b.ops = .ok (b.onto p.words) := by
  refine writers_isolated .big _ (.cons ⟨fun p _ ptr q hq => ?_, by simp⟩ rfl ?_)
  · cases hq
  refine .cons (show (0x1008 : Nat) ∈ [0x1008] by decide) rfl
    (.cons ⟨fun p hp ptr q hq => ?_, by simp⟩ rfl
      (.cons (show (0x2008 : Nat) ∈ [0x2008, 0x1008] by decide) rfl ?_))
  · obtain rfl := Option.some.inj hp
    by_cases he : ptr = 0x1008
    · subst he
      obtain rfl := Option.some.inj hq
      exact .inr (by decide)
    · iterate 2 have hq := of_update (a := 0x1008) he hq
      cases hq
  · iterate 3 refine .cons ⟨rfl, by decide⟩ rfl ?_
    trivial

/-- What happens to a payload once it is sent is up to its send alone. -/
theorem send_step {event : OutboxEvent} {ptr : Nat} {call : SendCall}
    (hevent : event = .store (.multicast ptr call) ∨ event = .store (.unicast ptr call))
    {p : SharedPayload} (hp : o.store.heap ptr = some p)
    (h : Outbox.exec e event o = .ok o') :
    ∃ send, o'.store.sends[o.store.sends.length]? = some send ∧ send.payload = p ∧
      send.call = call := by
  have hacc := Store.access_of_heap hp
  obtain rfl | rfl := hevent
  · obtain ⟨s', hs', ho'⟩ := Run.bind_eq_ok.mp h
    obtain ⟨p', hp', hs'⟩ := Run.bind_eq_ok.mp hs'
    obtain rfl := Run.ok_unique hacc hp'
    rw [← Except.ok.inj ho', ← Except.ok.inj hs']
    exact ⟨_, List.getElem?_concat_length, rfl, rfl⟩
  · obtain ⟨s', hs', ho'⟩ := Run.bind_eq_ok.mp h
    obtain ⟨p', hp', hs'⟩ := Run.bind_eq_ok.mp hs'
    obtain rfl := Run.ok_unique hacc hp'
    rw [← Except.ok.inj ho', ← Except.ok.inj hs']
    exact ⟨_, List.getElem?_concat_length, rfl, rfl⟩

/-- Any number of messages at once. A program fills a payload with a writer and flushes it,
sends it, and goes on: however it then fills and sends other payloads, and however the threads
of all sends take turns, each message of the send is, as long as it is in flight, what was
written, and whoever receives it reads that. -/
theorem messages_arrive (e₁ : Endian) (before after : List OutboxEvent) (o : Outbox)
    (hbefore : Run.Along (Outbox.exec e₁) Allowed before empty)
    (ho : Run.run (Outbox.exec e₁) before empty = .ok o) (ptr : Nat) (b : Bound)
    (hb : o.writers ptr = some b) (plan : List (WriteCall × ReadCall × ReadCall))
    (hp : ∀ q ∈ plan, Delivers q.1 q.2.1 q.2.2)
    (hops : b.ops = (plan.map fun q => q.1).map WriterOp.write ++ [.flushFinal])
    (hf : b.writer.fail = false) (hpos : 0 < b.writer.usedBits.toNat) (call : SendCall)
    (hcall : call.args.logicalBytesLength = IntType.int32.cast b.writer.usedBytes.toNat)
    (event : OutboxEvent)
    (hevent : event = .store (.multicast ptr call) ∨ event = .store (.unicast ptr call))
    (hafter : Run.Along (Outbox.exec e₁) Allowed (event :: after) o) :
    ∃ o' send, Run.run (Outbox.exec e₁) (event :: after) o = .ok o' ∧
      o'.store.sends[o.store.sends.length]? = some send ∧ send.call = call ∧
      ∀ m ∈ send.messages, m.flight.holds = true → ∃ q, o'.store.heap m.message.pData = some q ∧
        m.message.cbSize.val ≤ 4 * q.words.length ∧
        ∀ (e₂ : Endian) (r₀ : BitStreamReader) (span : WordSpan), Received e₁ e₂ q m.message span →
          (r₀.resetWith span (BitVec.ofInt 32 m.message.cbSize.val)).fail = false ∧
          ∃ r, (r₀.resetWith span (BitVec.ofInt 32 m.message.cbSize.val)).readAll e₂
                (plan.map fun q => q.2.1) = .ok (r, plan.map fun q => q.2.2) ∧
            r.fail = false ∧ r.usedBits = b.writer.usedBits := by
  obtain ⟨o₀, ho₀, hsound⟩ := run_sound hbefore
  obtain rfl := Run.ok_unique ho ho₀
  obtain ⟨hptr, hbsound⟩ := hsound.writers ptr b hb
  obtain ⟨p, hheap, -, -⟩ := hsound.store.live hptr
  have hbp := hbsound p hheap
  obtain ⟨hcalls, hd⟩ := flushed_of_ops hbp hops hf
  obtain ⟨o', ho', hsound'⟩ := Run.run_ok (event :: after) (fun _ _ hs hallowed => hs.exec hallowed)
    hsound hafter
  obtain ⟨o₁, ho₁, hrest⟩ := Run.bind_eq_ok.mp ho'
  obtain ⟨send₁, hi₁, hp₁, hc₁⟩ := send_step hevent hheap ho₁
  obtain ⟨send, hi, hsp, hsc⟩ := run_sends after hrest _ send₁ hi₁
  refine ⟨o', send, ho', hi, hsc.trans hc₁, fun m hm hflight => ?_⟩
  obtain ⟨hc, c, hq⟩ := hsound'.store.in_flight (List.mem_of_getElem? hi) hm hflight
  rw [hsp, hp₁] at hc hq
  rw [hsc, hc₁] at hc
  have hwords : 4 * p.words.length = p.wordCeiledSize.toNat := p.words_length
  have hused : (b.onto p.words).usedBits.toNat ≤ 2 ^ 30 := by
    have hu : (b.onto p.words).usedBits.toNat = _ := hd.used
    have hle := hd.wordsFor_le
    have hceil := p.wordCeiledSize_le
    have h19 : gnsMaxMsgSendSize = 2 ^ 19 := by decide
    change _ ≤ p.words.length at hle
    rw [hu]
    unfold BitStreamWriter.wordsFor at hle
    omega
  have hcb : m.message.cbSize.val = 4 * BitStreamWriter.wordsFor (b.onto p.words).usedBits.toNat := by
    rw [hc.cbSize, hcall]
    exact sendSize_usedBytes p hbp.usedBitStream (b.onto p.words) hused
  have hfits := messageFits_of_flushed hd (p := { p with refCount := c }) rfl hcb
  refine ⟨_, hq, ?_, fun e₂ r₀ span hr => ?_⟩
  · have hinside : m.message.cbSize.val ≤ p.wordCeiledSize.toNat := hfits.inside
    change _ ≤ 4 * (p.words.length : Int)
    omega
  · exact received_readAll hd (fun q hmem => ⟨(hcalls _ (List.mem_map_of_mem hmem)).1,
      (hcalls _ (List.mem_map_of_mem hmem)).2, hp q hmem⟩)
      (p := { p with refCount := c }) rfl hfits hpos hr r₀

/-- While the message is on its way another payload is filled. -/
theorem messages_arrive_meanwhile :
    ∃ msg : SteamNetworkingMessage,
      ∃ r, ((default : BitStreamReader).resetWith ⟨false, [0x09080200]⟩
          (BitVec.ofInt 32 msg.cbSize.val)).readAll .big
        [.int .bool ⟨0, by decide⟩ ⟨0, by decide⟩ ⟨1, by decide⟩, .string .char8 [] 9] =
          .ok (r, [.int .bool ⟨1, by decide⟩ ⟨0, by decide⟩ ⟨1, by decide⟩,
            .string .char8 [⟨65, by decide⟩] 9]) ∧ r.fail = false := by
  obtain ⟨o', send, ho', hi, -, h⟩ := messages_arrive .little
    [.store (.allocate 5 (some ⟨0x1000, fun _ => 0⟩)), .resetWith default 0x1008 8,
      .write 0x1008 (.write (.int .bool ⟨1, by decide⟩ ⟨0, by decide⟩ ⟨1, by decide⟩)),
      .write 0x1008 (.write (.string .char8 [⟨65, by decide⟩])), .write 0x1008 .flushFinal]
    ([.store (.thread 0 .sender), .store (.thread 0 .sender), .store (.thread 0 .sender),
      .store (.thread 0 .sender), .store (.thread 0 .sender),
      .store (.allocate 4 (some ⟨0x2000, fun _ => 0⟩)), .resetWith default 0x2008 4,
      .write 0x2008 (.write (.float 0))]) _
    (by
      refine .cons ⟨fun p _ ptr q hq => ?_, by simp⟩ rfl
        (.cons (show (0x1008 : Nat) ∈ [0x1008] by decide) rfl ?_)
      · cases hq
      iterate 3 refine .cons ⟨rfl, by decide⟩ rfl ?_
      trivial)
    rfl 0x1008 _ rfl
    [(.int .bool ⟨1, by decide⟩ ⟨0, by decide⟩ ⟨1, by decide⟩,
        .int .bool ⟨0, by decide⟩ ⟨0, by decide⟩ ⟨1, by decide⟩,
        .int .bool ⟨1, by decide⟩ ⟨0, by decide⟩ ⟨1, by decide⟩),
      (.string .char8 [⟨65, by decide⟩], .string .char8 [] 9, .string .char8 [⟨65, by decide⟩] 9)]
    (by
      intro p hp
      simp only [List.mem_cons, List.not_mem_nil, or_false] at hp
      obtain rfl | rfl := hp
      · exact .int _ _ _ _ _
      · exact .string _ _ _ _ (by decide))
    rfl rfl (by decide)
    ⟨[7], ⟨⟨3, by decide⟩, ⟨8, by decide⟩, 0, 0⟩,
      fun _ => ⟨0, ⟨0, by decide⟩, 0, ⟨0, by decide⟩, 0, 0, none⟩⟩ (by decide) _ (.inl rfl)
    (by
      refine .cons ⟨⟨by decide, by decide⟩, by simp⟩ rfl ?_
      iterate 5 refine .cons ⟨⟨_, rfl, by decide⟩, by simp⟩ rfl ?_
      refine .cons ⟨fun p hp ptr q hq => ?_, by simp⟩ rfl
        (.cons (show (0x2008 : Nat) ∈ [0x2008] by decide) rfl (.cons ⟨rfl, by decide⟩ rfl trivial))
      obtain rfl := Option.some.inj hp
      by_cases he : ptr = 0x1008
      · subst he
        obtain rfl := Option.some.inj hq
        exact .inr (by decide)
      · iterate 10 have hq := of_update (a := 0x1008) he hq
        cases hq)
  obtain rfl := Run.ok_unique ho' rfl
  obtain rfl := Option.some.inj hi
  obtain ⟨q, hq, -, hread⟩ := h _ (List.mem_singleton_self _) rfl
  obtain rfl := Option.some.inj hq
  obtain ⟨-, r, hr, hf, -⟩ := hread .big default ⟨false, [0x09080200]⟩ ⟨rfl, rfl⟩
  exact ⟨_, r, hr, hf⟩

end Outbox
end Nalchi
