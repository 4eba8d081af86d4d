import Nalchi.OutboxRuns

/-! What the program can tell of the threads of its sends, which is nothing, and what they
have made of everything when they are done, however they took turns. -/
namespace Nalchi
open SharedPayload SocketExtensions Ownership
open Function (update)

/-- What was handed over, and by which call. -/
def Send.handed (send : Send) : SharedPayload × SendCall := (send.payload, send.call)

namespace Store

/-- Two stores in which a program that keeps to its own payloads finds the same. -/
structure SameView (s t : Store) : Prop where
  held : t.held = s.held
  heap : ∀ ptr ∈ s.held, t.heap ptr = s.heap ptr
  sends : t.sends.map Send.handed = s.sends.map Send.handed
  allocations : t.allocations = s.allocations
  deallocations : t.deallocations = s.deallocations

variable {s s' t : Store} {ptr : Nat}

theorem SameView.refl (s : Store) : SameView s s := ⟨rfl, fun _ _ => rfl, rfl, rfl, rfl⟩

theorem SameView.symm (hv : SameView s t) : SameView t s :=
  ⟨hv.held.symm, fun ptr hptr => (hv.heap ptr (hv.held ▸ hptr)).symm, hv.sends.symm,
    hv.allocations.symm, hv.deallocations.symm⟩

theorem SameView.trans (hv : SameView s t) (hv' : SameView t s') : SameView s s' :=
  ⟨hv'.held.trans hv.held, fun ptr hptr => (hv'.heap ptr (hv.held.symm ▸ hptr)).trans (hv.heap ptr hptr),
    hv'.sends.trans hv.sends, hv'.allocations.trans hv.allocations,
    hv'.deallocations.trans hv.deallocations⟩

theorem SameView.access (hv : SameView s t) (hptr : ptr ∈ s.held) :
    t.access ptr = s.access ptr := by
  rw [Store.access, Store.access, hv.heap ptr hptr]

theorem SameView.cell (hv : SameView s t) (a : Nat) (cell : Option SharedPayload)
    (hptr : ptr ∈ s.held) : update t.heap a cell ptr = update s.heap a cell ptr := by
  by_cases he : ptr = a
  · simp [he]
  · simp [he, hv.heap ptr hptr]

/-- What the program stores to a payload it holds. -/
theorem SameView.store (hv : SameView s t) (a : Nat) (cell : Option SharedPayload) :
    SameView { s with heap := update s.heap a cell } { t with heap := update t.heap a cell } :=
  ⟨hv.held, fun _ hptr => hv.cell a cell hptr, hv.sends, hv.allocations, hv.deallocations⟩

theorem SameView.send (hv : SameView s t) {call : SendCall}
    {begun : SharedPayload → SendCall → World} (hptr : ptr ∈ s.held)
    (hs' : s.send ptr call begun = .ok s') : ∃ t', t.send ptr call begun = .ok t' ∧ SameView s' t' := by
  obtain ⟨p, hp, hs'⟩ := Run.bind_eq_ok.mp hs'
  obtain rfl := Except.ok.inj hs'
  refine ⟨_, by rw [Store.send, hv.access hptr, hp]; rfl, ?_⟩
  refine ⟨by rw [hv.held], fun a ha => hv.heap a (List.mem_of_mem_erase ha), ?_, hv.allocations,
    hv.deallocations⟩
  rw [List.map_append, List.map_append, hv.sends]

end Store

/-- A call the program makes, not a step of a thread. -/
def Event.ofProgram : Event → Bool
  | .thread _ _ => false
  | _ => true

namespace Store

variable {s s' t : Store} {ptr : Nat}

theorem SameView.exec (hv : SameView s t) {event : Event} (hvisible : event.ofProgram = true)
    (ha : Allowed event s) (hs' : Store.exec event s = .ok s') :
    ∃ t', Store.exec event t = .ok t' ∧ SameView s' t' := by
  cases event with
  | allocate size raw =>
    cases hp : SharedPayload.allocate (fun _ => raw) size with
    | none =>
      simp only [Store.exec, hp] at hs'
      obtain rfl := Except.ok.inj hs'
      exact ⟨t, by simp only [Store.exec, hp], hv⟩
    | some p =>
      simp only [Store.exec, hp] at hs'
      obtain rfl := Except.ok.inj hs'
      refine ⟨_, by simp only [Store.exec, hp]; rfl, ?_⟩
      refine ⟨by rw [hv.held], fun a ha => ?_, hv.sends, by rw [hv.allocations], hv.deallocations⟩
      by_cases he : a = p.ptr
      · simp [he]
      · exact hv.cell p.ptr (some p) (by simpa [he] using ha)
  | resetWith a =>
    obtain ⟨p, hp, hs'⟩ := Run.bind_eq_ok.mp hs'
    obtain rfl := Except.ok.inj hs'
    exact ⟨_, by rw [Store.exec, hv.access ha, hp]; rfl, hv.store a _⟩
  | storeWord a i word =>
    obtain ⟨p, hp, hs'⟩ := Run.bind_eq_ok.mp hs'
    split_ifs at hs' with hi
    obtain rfl := Except.ok.inj hs'
    exact ⟨_, by rw [Store.exec, hv.access ha.1, hp, Run.bind_ok, if_pos hi]; rfl, hv.store a _⟩
  | forceDeallocate a =>
    obtain ⟨p, hp, hs'⟩ := Run.bind_eq_ok.mp hs'
    obtain rfl := Except.ok.inj hs'
    refine ⟨_, by rw [Store.exec, hv.access ha, hp]; rfl, ?_⟩
    exact ⟨by rw [hv.held], fun b hb => hv.cell a none (List.mem_of_mem_erase hb), hv.sends,
      hv.allocations, by rw [hv.deallocations]⟩
  | multicast a call => exact hv.send ha.1 hs'
  | unicast a call => exact hv.send ha.1 hs'
  | thread i action => cases hvisible

/-- A step of a thread shows nowhere in what the program holds or has sent. -/
theorem Sound.threadStep_view (h : s.Sound) {i : Nat} {action : Action}
    (ha : Allowed (.thread i action) s) (hs' : s.threadStep i action = .ok s') :
    SameView s s' := by
  have hframe {ptr : Nat} (hptr : ptr ∈ s.held) := h.threadStep_frame ha hs' hptr
  obtain ⟨send, hi, -⟩ := ha
  rw [Store.threadStep, hi] at hs'
  obtain ⟨w, -, hs'⟩ := Run.bind_eq_ok.mp hs'
  obtain rfl := Except.ok.inj hs'
  refine ⟨rfl, fun ptr hptr => (hframe hptr).2, ?_, rfl, rfl⟩
  obtain ⟨sends₁, sends₂, hsplit, hset⟩ := exists_split hi
  change (s.sends.set i (send.after w)).map Send.handed = s.sends.map Send.handed
  rw [hset, hsplit, List.map_append, List.map_append, List.map_cons, List.map_cons]
  rfl

/-- The calls of the program alone take it to where the whole run takes it. -/
theorem Sound.run_view (h : s.Sound) (hv : SameView s t) {events : List Event}
    (ha : Run.Along Store.exec Allowed events s) (hs' : Run.run Store.exec events s = .ok s') :
    ∃ t', Run.run Store.exec (events.filter Event.ofProgram) t = .ok t' ∧ SameView s' t' := by
  refine Run.run_visible (I := Sound) (P := Allowed) (R := SameView) Event.ofProgram ?_ ?_ ?_ events
    h ha hv hs'
  · intro event s s' t hvisible _ ha hv hs'
    exact hv.exec hvisible ha hs'
  · intro event s s' t hhidden h ha hv hs'
    cases event with
    | thread i action => exact (h.threadStep_view ha hs').symm.trans hv
    | _ => cases hhidden
  · intro event s s' h ha hs'
    obtain ⟨s₁, hs₁, hsound⟩ := h.exec ha
    obtain rfl := Run.ok_unique hs' hs₁
    exact hsound

/-- A send whose payload is freed handed over what the loop of `multicast` makes in one go. -/
theorem Sound.messages_of_freed (h : s.Sound) {send : Send} (hsend : send ∈ s.sends)
    (hd : send.deallocations = 1) : send.messages.map InFlight.message =
      (multicast send.call.allocateMessage send.call.args send.call.connections
        send.payload).messages := by
  obtain ⟨hinv, hn⟩ := h.sends send hsend
  rw [multicast_messages _ _ _ _ hn]
  obtain ⟨hno, -⟩ | ⟨-, -, hfreed⟩ := hinv.phase
  · exact absurd (hno.symm.trans hd) (by decide)
  · exact hfreed.messages

/-- What the threads leave is settled when they start. After any history, in whatever order
they run to their ends, each send has handed over the messages it would have in one go, the
payloads the program holds are as they were, and there are no others. -/
theorem schedules_agree (events : List Event) (ha : Run.Along exec Allowed events empty)
    (s : Store) (hs : Run.run exec events empty = .ok s) (threads : List (Nat × Action))
    (ht : Run.Along exec Allowed (threads.map fun t => Event.thread t.1 t.2) s)
    (hall : threads.length = s.pending) :
    ∃ s', Run.run exec (threads.map fun t => Event.thread t.1 t.2) s = .ok s' ∧
      s'.held = s.held ∧ (∀ ptr, s'.heap ptr = if ptr ∈ s.held then s.heap ptr else none) ∧
      s'.sends.map Send.handed = s.sends.map Send.handed ∧
      ∀ send ∈ s'.sends, send.messages.map InFlight.message =
        (multicast send.call.allocateMessage send.call.args send.call.connections
          send.payload).messages := by
  obtain ⟨s₁, hs₁, hsound⟩ := run_sound ha
  obtain rfl := Run.ok_unique hs hs₁
  obtain ⟨s', hs', hsound', hlen⟩ := hsound.run_threads threads ht
  obtain ⟨hfreed, hlive, -⟩ := hsound'.rest (by omega)
  obtain ⟨t', ht', hview⟩ := hsound.run_view (SameView.refl s) ht hs'
  have hnone : (threads.map fun t => Event.thread t.1 t.2).filter Event.ofProgram = [] := by
    rw [List.filter_eq_nil_iff]
    intro event hmem
    obtain ⟨t, -, rfl⟩ := List.mem_map.mp hmem
    simp [Event.ofProgram]
  rw [hnone] at ht'
  obtain rfl := Except.ok.inj ht'
  refine ⟨s', hs', hview.held.symm, fun ptr => ?_, hview.sends.symm,
    fun send hsend => hsound'.messages_of_freed hsend (hfreed send hsend)⟩
  rw [hview.held]
  split_ifs with hptr
  · exact (hview.heap ptr hptr).symm
  · exact Option.not_isSome_iff_eq_none.mp fun hsome => hptr ((hlive ptr).mp hsome)

/-- Two sends in turns, while the program keeps a payload. -/
theorem schedules_agree_two :
    ∃ s' : Store, s'.held = [0x3008] ∧ (∀ ptr, (s'.heap ptr).isSome → ptr = 0x3008) ∧
      ∀ send ∈ s'.sends, send.messages.map InFlight.message =
        (multicast send.call.allocateMessage send.call.args send.call.connections
          send.payload).messages := by
  have ha : Run.Along exec Allowed
      [.allocate 4 (some ⟨0x1000, fun _ => 0⟩), .allocate 4 (some ⟨0x2000, fun _ => 0⟩),
        .allocate 4 (some ⟨0x3000, fun _ => 0⟩),
        .multicast 0x1008 ⟨[7], ⟨⟨3, by decide⟩, ⟨8, by decide⟩, 0, 0⟩,
          fun _ => ⟨0, ⟨0, by decide⟩, 0, ⟨0, by decide⟩, 0, 0, none⟩⟩,
        .unicast 0x2008 ⟨[9], ⟨⟨3, by decide⟩, ⟨8, by decide⟩, 0, 0⟩,
          fun _ => ⟨0, ⟨0, by decide⟩, 0, ⟨0, by decide⟩, 0, 0, none⟩⟩] empty := by
    refine .cons (fun p _ ptr q hq => absurd hq (by simp [empty])) rfl
      (.cons (fun p hp ptr q hq => ?_) rfl (.cons (fun p hp ptr q hq => ?_) rfl
        (.cons ⟨by decide, by decide⟩ rfl (.cons ⟨by decide, by decide⟩ rfl trivial))))
    · obtain rfl := Option.some.inj hp
      by_cases he : ptr = 0x1008
      · subst he
        obtain rfl := Option.some.inj hq
        exact .inr (by decide)
      · cases of_update (a := 0x1008) he hq
    · obtain rfl := Option.some.inj hp
      by_cases he : ptr = 0x2008
      · subst he
        obtain rfl := Option.some.inj hq
        exact .inr (by decide)
      have hq := of_update (a := 0x2008) he hq
      by_cases he : ptr = 0x1008
      · subst he
        obtain rfl := Option.some.inj hq
        exact .inr (by decide)
      · cases of_update (a := 0x1008) he hq
  obtain ⟨s', -, hheld, hheap, -, hmessages⟩ := schedules_agree _ ha _ rfl
    [(0, .sender), (1, .sender), (1, .sender), (0, .sender), (0, .sender), (1, .sender),
      (1, .sender), (1, .callback 0), (0, .sender), (0, .sender), (0, .callback 0),
      (1, .callback 0), (0, .callback 0)]
    (by
      iterate 13 refine .cons ⟨_, rfl, by decide⟩ rfl ?_
      trivial) (by decide)
  refine ⟨s', hheld, fun ptr hsome => ?_, hmessages⟩
  have hmem : ptr ∈ s'.held := by
    by_contra hno
    rw [hheap, if_neg (hheld ▸ hno)] at hsome
    cases hsome
  have hone : s'.held = [0x3008] := hheld
  rw [hone] at hmem
  exact List.mem_singleton.mp hmem

end Store

def OutboxEvent.ofProgram : OutboxEvent → Bool
  | .store event => event.ofProgram
  | .resetWith _ _ _ | .write _ _ => true

namespace Outbox

variable {e : Endian} {o o' q : Outbox}

structure SameView (o q : Outbox) : Prop where
  store : o.store.SameView q.store
  writers : q.writers = o.writers

theorem SameView.exec (hv : SameView o q) (h : o.Sound e) {event : OutboxEvent}
    (hvisible : event.ofProgram = true) (ha : Allowed event o)
    (ho' : Outbox.exec e event o = .ok o') :
    ∃ q', Outbox.exec e event q = .ok q' ∧ SameView o' q' := by
  cases event with
  | store event =>
    obtain ⟨s', hs', ho'⟩ := Run.bind_eq_ok.mp ho'
    obtain rfl := Except.ok.inj ho'
    obtain ⟨t', ht', hview⟩ := hv.store.exec hvisible ha.1 hs'
    exact ⟨⟨t', forget q.writers event.target⟩, by rw [Outbox.exec, ht']; rfl, hview,
      by rw [hv.writers]⟩
  | resetWith object ptr L =>
    obtain ⟨p, hp, ho'⟩ := Run.bind_eq_ok.mp ho'
    obtain rfl := Except.ok.inj ho'
    refine ⟨_, by rw [Outbox.exec, hv.store.access ha, hp]; rfl, hv.store.store ptr _, ?_⟩
    rw [hv.writers]
  | write ptr op =>
    obtain ⟨b, hb⟩ := Option.isSome_iff_exists.mp ha.1
    have hptr := (h.writers ptr b hb).1
    simp only [Outbox.exec, hb] at ho'
    obtain ⟨p, hp, ho'⟩ := Run.bind_eq_ok.mp ho'
    obtain ⟨w, hw, ho'⟩ := Run.bind_eq_ok.mp ho'
    split_ifs at ho' with hlen
    obtain rfl := Except.ok.inj ho'
    refine ⟨⟨{ q.store with heap := update q.store.heap ptr (some (p.withWords w.words hlen)) },
      update q.writers ptr (some { b with ops := b.ops ++ [op], writer := w })⟩, ?_,
      hv.store.store ptr _, by rw [hv.writers]⟩
    simp only [Outbox.exec, hv.writers, hb, hv.store.access hptr, hp, Run.bind_ok, hw, dif_pos hlen,
      Run.pure_ok]

theorem Sound.run_view (h : o.Sound e) (hv : SameView o q) {events : List OutboxEvent}
    (ha : Run.Along (Outbox.exec e) Allowed events o)
    (ho' : Run.run (Outbox.exec e) events o = .ok o') :
    ∃ q', Run.run (Outbox.exec e) (events.filter OutboxEvent.ofProgram) q = .ok q' ∧
      SameView o' q' := by
  refine Run.run_visible (I := Sound e) (P := Allowed) (R := SameView) OutboxEvent.ofProgram ?_ ?_ ?_
    events h ha hv ho'
  · intro event o o' q hvisible h ha hv ho'
    exact hv.exec h hvisible ha ho'
  · intro event o o' q hhidden h ha hv ho'
    cases event with
    | store event =>
      obtain ⟨s', hs', ho'⟩ := Run.bind_eq_ok.mp ho'
      obtain rfl := Except.ok.inj ho'
      cases event with
      | thread i action =>
        exact ⟨(h.store.threadStep_view ha.1 hs').symm.trans hv.store, hv.writers⟩
      | _ => cases hhidden
    | _ => cases hhidden
  · intro event o o' h ha ho'
    obtain ⟨o₁, ho₁, hsound⟩ := h.exec ha
    obtain rfl := Run.ok_unique ho' ho₁
    exact hsound

/-- The threads of its sends are nothing to the program. However they run in between, the
writers, the payloads it holds and what it has sent are as they are when only its own calls
are made. -/
theorem threads_unobservable (e : Endian) (events : List OutboxEvent)
    (ha : Run.Along (Outbox.exec e) Allowed events empty) :
    ∃ o q, Run.run (Outbox.exec e) events empty = .ok o ∧
      Run.run (Outbox.exec e) (events.filter OutboxEvent.ofProgram) empty = .ok q ∧
      q.writers = o.writers ∧ q.store.held = o.store.held ∧
      (∀ ptr ∈ o.store.held, q.store.heap ptr = o.store.heap ptr) ∧
      q.store.sends.map Send.handed = o.store.sends.map Send.handed := by
  obtain ⟨o, ho, -⟩ := run_sound ha
  obtain ⟨q, hq, hv⟩ := empty_sound.run_view ⟨Store.SameView.refl _, rfl⟩ ha ho
  exact ⟨o, q, ho, hq, hv.writers, hv.store.held, hv.store.heap, hv.store.sends⟩

/-- A payload is filled where an earlier one lay. Without the threads that one is never freed. -/
theorem threads_unobservable_reuse :
    ∃ o q, Run.run (Outbox.exec .little)
        ([.store (.allocate 4 (some ⟨0x1000, fun _ => 0⟩)),
          .store (.multicast 0x1008 ⟨[7], ⟨⟨3, by decide⟩, ⟨8, by decide⟩, 0, 0⟩,
            fun _ => ⟨0, ⟨0, by decide⟩, 0, ⟨0, by decide⟩, 0, 0, none⟩⟩)] ++
          List.replicate 5 (.store (.thread 0 .sender)) ++
          List.replicate 2 (.store (.thread 0 (.callback 0))) ++
          [.store (.allocate 4 (some ⟨0x1000, fun _ => 0⟩)), .resetWith default 0x1008 4,
            .write 0x1008 (.write (.float 1))]) empty = .ok o ∧
      Run.run (Outbox.exec .little)
        [.store (.allocate 4 (some ⟨0x1000, fun _ => 0⟩)),
          .store (.multicast 0x1008 ⟨[7], ⟨⟨3, by decide⟩, ⟨8, by decide⟩, 0, 0⟩,
            fun _ => ⟨0, ⟨0, by decide⟩, 0, ⟨0, by decide⟩, 0, 0, none⟩⟩),
          .store (.allocate 4 (some ⟨0x1000, fun _ => 0⟩)), .resetWith default 0x1008 4,
          .write 0x1008 (.write (.float 1))] empty = .ok q ∧
      q.writers 0x1008 = o.writers 0x1008 ∧ q.store.heap 0x1008 = o.store.heap 0x1008 := by
  have ha : Run.Along (Outbox.exec .little) Allowed
      ([.store (.allocate 4 (some ⟨0x1000, fun _ => 0⟩)),
        .store (.multicast 0x1008 ⟨[7], ⟨⟨3, by decide⟩, ⟨8, by decide⟩, 0, 0⟩,
          fun _ => ⟨0, ⟨0, by decide⟩, 0, ⟨0, by decide⟩, 0, 0, none⟩⟩)] ++
        List.replicate 5 (.store (.thread 0 .sender)) ++
        List.replicate 2 (.store (.thread 0 (.callback 0))) ++
        [.store (.allocate 4 (some ⟨0x1000, fun _ => 0⟩)), .resetWith default 0x1008 4,
          .write 0x1008 (.write (.float 1))]) empty := by
    refine .cons ⟨fun p _ ptr q hq => absurd hq (by simp [empty, Store.empty]), by simp⟩ rfl
      (.cons ⟨⟨by decide, by decide⟩, by simp⟩ rfl ?_)
    iterate 7 refine .cons ⟨⟨_, rfl, by decide⟩, by simp⟩ rfl ?_
    refine .cons ⟨fun p hp ptr q hq => ?_, by simp⟩ rfl
      (.cons (show (0x1008 : Nat) ∈ [0x1008] by decide) rfl (.cons ⟨rfl, by decide⟩ rfl trivial))
    -- by now nothing lies at the address, nor anywhere else
    have hnone : (none : Option SharedPayload) = some q := by
      by_cases he : ptr = 0x1008
      · subst he
        exact hq
      · iterate 8 have hq := of_update (a := 0x1008) he hq
        exact hq
    cases hnone
  obtain ⟨o, q, ho, hq, hwriters, -, hheap, -⟩ := threads_unobservable .little _ ha
  obtain rfl := Run.ok_unique ho rfl
  exact ⟨_, q, ho, hq, congrFun hwriters 0x1008, hheap 0x1008 (by decide)⟩

end Outbox
end Nalchi
