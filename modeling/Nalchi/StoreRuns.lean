import Nalchi.StoreInvariant

/-! Whole runs of the store, in any order of calls, threads and reuse of memory. -/
namespace Nalchi
open SharedPayload SocketExtensions Ownership
open Function (update)

namespace Store

variable {s : Store} {send : Send} {sends₁ sends₂ : List Send} {w : World}

theorem mem_split {other : Send} (hmem : other ∈ sends₁ ++ send :: sends₂) :
    other = send ∨ other ∈ sends₁ ++ sends₂ := by
  simp only [List.mem_append, List.mem_cons] at hmem ⊢
  tauto

/-- A send that has its payload stores to it, or deallocates it. -/
theorem Sound.step_owning (h : s.Sound) (hsplit : s.sends = sends₁ ++ send :: sends₂)
    (hown : send.owns = true) (hinv : World.Inv send.payload send.call w) :
    Sound { s with
      heap := update s.heap send.payload.ptr w.memory
      sends := sends₁ ++ send.after w :: sends₂ } := by
  have howned := h.owned
  rw [Store.owners, hsplit] at howned
  have howned := howned.perm (owners_perm s.held hown)
  have hno := (List.nodup_cons.mp howned.nodup).1
  have hlen := (h.sends send (by simp [hsplit])).length
  have hb := h.balance
  have hmemory : (send.after w).memory (update s.heap send.payload.ptr w.memory) = w.memory := by
    obtain ⟨hd, -⟩ | ⟨hd, hnone, -⟩ := hinv.phase
    · rw [Send.memory, if_pos (Send.owns_iff.mpr hd)]
      exact Function.update_self _ _ _
    · have hown' : (send.after w).owns = false := Send.not_owns hd
      rw [Send.memory, if_neg (by simp [hown']), hnone]
  refine ⟨?_, fun a q hq => ?_, fun a ha q hq => ?_, fun other hmem => ?_, ?_⟩
  · obtain ⟨hd, c, hc⟩ | ⟨hd, hnone, -⟩ := hinv.phase
    · rw [hc]
      have hown' : (send.after w).owns = true := Send.owns_iff.mpr hd
      exact (howned.store (List.mem_cons_self ..) _).perm (owners_perm s.held hown').symm
    · rw [hnone]
      have hown' : (send.after w).owns = false := Send.not_owns hd
      have howners : ownedBy (sends₁ ++ send.after w :: sends₂) = ownedBy (sends₁ ++ sends₂) := by
        rw [ownedBy_append, ownedBy_cons, if_neg (by simp [hown']), ← ownedBy_append]
      rw [Store.owners, howners]
      exact howned.free
  · by_cases he : a = send.payload.ptr
    · have hq : w.memory = some q := by simpa [he] using hq
      obtain ⟨-, c, hc⟩ | ⟨-, hnone, -⟩ := hinv.phase
      · obtain rfl := Option.some.inj (hc.symm.trans hq)
        exact he.symm
      · simp [hnone] at hq
    · exact h.addressed a q (by simpa [he] using hq)
  · have hne : a ≠ send.payload.ptr := by
      rintro rfl
      exact hno (List.mem_append_left _ ha)
    exact h.held a ha q (by simpa [hne] using hq)
  · obtain rfl | hother := mem_split hmem
    · exact ⟨by rw [hmemory]; exact hinv, hlen⟩
    · refine (h.sends other ?_).frame fun hown' => ?_
      · rw [hsplit]
        simp only [List.mem_append, List.mem_cons] at hother ⊢
        tauto
      · refine Function.update_of_ne (fun heq => hno ?_) _ _
        rw [← heq]
        exact List.mem_append_right _ (mem_ownedBy hother hown')
  · rw [hsplit, List.length_append, List.length_cons] at hb
    simp only [List.length_append, List.length_cons]
    exact hb

/-- A send whose payload is freed touches nothing. -/
theorem Sound.step_freed (h : s.Sound) (hsplit : s.sends = sends₁ ++ send :: sends₂)
    (hown : send.owns = false) (hd : w.deallocations = 1)
    (hinv : World.Inv send.payload send.call { w with memory := none }) :
    Sound { s with sends := sends₁ ++ send.after w :: sends₂ } := by
  have hlen := (h.sends send (by simp [hsplit])).length
  have hb := h.balance
  have hown' : (send.after w).owns = false := Send.not_owns hd
  have howners : Store.owners { s with sends := sends₁ ++ send.after w :: sends₂ } = s.owners := by
    rw [Store.owners, Store.owners, hsplit, ownedBy_append, ownedBy_append, ownedBy_cons,
      ownedBy_cons, if_neg (by simp [hown']), if_neg (by simp [hown])]
  refine ⟨by rw [howners]; exact h.owned, h.addressed, h.held, fun other hmem => ?_, ?_⟩
  · obtain rfl | hother := mem_split hmem
    · exact ⟨by rw [Send.memory, if_neg (by simp [hown'])]; exact hinv, hlen⟩
    · refine h.sends other ?_
      rw [hsplit]
      simp only [List.mem_append, List.mem_cons] at hother ⊢
      tauto
  · rw [hsplit, List.length_append, List.length_cons] at hb
    simp only [List.length_append, List.length_cons]
    exact hb

/-- One step of one thread: its send goes on alone, and is one step nearer to the end. -/
theorem Sound.threadStep (h : s.Sound) {i : Nat} {action : Action} (hi : s.sends[i]? = some send)
    (hen : World.Enabled action (send.seeing none)) :
    ∃ s', s.threadStep i action = .ok s' ∧ s'.Sound ∧ s'.pending + 1 = s.pending := by
  obtain ⟨sends₁, sends₂, hsplit, hset⟩ := exists_split hi
  have hsend := h.sends send (List.mem_of_getElem? hi)
  obtain ⟨w, hw, hpending, hcase⟩ := hsend.exec hen
  refine ⟨{ s with
      heap := update s.heap (send.pointer action) w.memory
      sends := s.sends.set i (send.after w) }, by rw [Store.threadStep, hi]; simp only [hw]; rfl, ?_, ?_⟩
  · rw [hset]
    obtain ⟨hown, hinv⟩ | ⟨hown, hmemory, hd, hinv⟩ := hcase
    · rw [hsend.pointer hen]
      exact h.step_owning hsplit hown hinv
    · rw [hmemory, Function.update_eq_self]
      exact h.step_freed hsplit hown hd hinv
  · rw [Store.pending, Store.pending, hset]
    simp only [hsplit, List.map_append, List.map_cons, List.sum_append, List.sum_cons]
    omega

theorem Sound.exec (h : s.Sound) {event : Event} (ha : Allowed event s) :
    ∃ s', exec event s = .ok s' ∧ s'.Sound := by
  cases event with
  | allocate size raw =>
    cases hp : SharedPayload.allocate (fun _ => raw) size with
    | none => exact ⟨s, by simp only [Store.exec, hp], h⟩
    | some p => exact ⟨_, by simp only [Store.exec, hp], h.allocate hp (ha p hp)⟩
  | resetWith ptr =>
    obtain ⟨p, hp, hpp, hc⟩ := h.live ha
    exact ⟨_, by rw [Store.exec, access_of_heap hp]; rfl,
      h.store ha (p := p.setUsedBitStream true) hpp hc⟩
  | storeWord ptr i word =>
    obtain ⟨p, hp, hpp, hc⟩ := h.live ha.1
    have hi := ha.2 p hp
    exact ⟨_, by rw [Store.exec, access_of_heap hp]; simp only [Run.bind_ok, if_pos hi, Run.pure_ok],
      h.store ha.1 (p := p.withWords (p.words.set i word) (by simp)) hpp hc⟩
  | forceDeallocate ptr =>
    obtain ⟨p, hp, -, -⟩ := h.live ha
    exact ⟨_, by rw [Store.exec, access_of_heap hp]; rfl, h.forceDeallocate ha⟩
  | multicast ptr call =>
    exact h.send ha.1 ha.2 fun p hc => .inl (World.multicasting_sending hc)
  | unicast ptr call =>
    have hlen := ha.2
    exact h.send ha.1 (by omega) fun p hc =>
      .inl (World.unicasting_sending hc (by rw [← List.length_pos_iff]; omega))
  | thread i action =>
    obtain ⟨send, hi, hen⟩ := ha
    obtain ⟨s', hs', hsound, -⟩ := h.threadStep hi hen
    exact ⟨s', hs', hsound⟩

theorem empty_sound : empty.Sound :=
  ⟨owned_nil, by simp [empty], by simp [empty], by simp [empty], rfl⟩

theorem run_sound {events : List Event} (ha : Run.Along exec Allowed events empty) :
    ∃ s, Run.run exec events empty = .ok s ∧ s.Sound :=
  Run.run_ok events (fun _ _ hs hallowed => hs.exec hallowed) empty_sound ha

end Store

/-- A payload in flight is as it was handed over, but for the references that are left. -/
theorem World.Inv.pinned {p : SharedPayload} {call : SendCall} {s : World}
    (h : World.Inv p call s) (halive : s.sender ≠ .returned ∨ 0 < s.unreleased) :
    s.memory = some { p with refCount := BitVec.ofNat 32 s.unreleased } := by
  obtain h | h | h := h
  · have hu : s.unreleased = s.messages.length := World.count_of_all h.attached
    rw [hu]
    exact h.memory
  · exact h.memory
  · obtain hs | hu := halive
    · exact absurd h.sender hs
    · exact absurd h.unreleased (by omega)

theorem World.Inv.unreleased_lt {p : SharedPayload} {call : SendCall} {s : World}
    (h : World.Inv p call s) (hn : call.connections.length < 2 ^ 31) : s.unreleased < 2 ^ 31 := by
  have hle : s.unreleased ≤ s.messages.length := List.countP_le_length
  obtain h | h | h := h
  · have hlen := h.length_le
    omega
  · have hlen := h.length
    omega
  · have hlen := h.length
    omega

namespace Store

/-- How many references the messages of a send still hold. -/
def unreleased (send : Send) : Nat := (send.seeing none).unreleased

/-- What the program and the network library rely on, whatever else is going on. -/
structure Safe (s : Store) : Prop where
  held : ∀ ptr ∈ s.held, ∃ p, s.heap ptr = some p ∧ p.refCount = 0
  pinned : ∀ send ∈ s.sends, send.sender ≠ .returned ∨ 0 < unreleased send →
    ∃ p, s.heap send.payload.ptr = some p ∧ p.refCount.toNat = unreleased send ∧
      p = { send.payload with refCount := p.refCount }
  messages : ∀ send ∈ s.sends, ∀ m ∈ send.messages, m.message.pData = send.payload.ptr
  distinct : s.owners.Nodup
  live : ∀ ptr, (s.heap ptr).isSome ↔ ptr ∈ s.owners
  once : ∀ send ∈ s.sends, send.deallocations ≤ 1
  freed : ∀ send ∈ s.sends, send.deallocations = 1 →
    send.sender = .returned ∧ unreleased send = 0

theorem Sound.safe {s : Store} (h : s.Sound) : s.Safe where
  held ptr hptr := by
    obtain ⟨p, hp, -, hc⟩ := h.live hptr
    exact ⟨p, hp, hc⟩
  pinned send hsend halive := by
    obtain ⟨hinv, hn⟩ := h.sends send hsend
    have hmem := hinv.pinned halive
    have hlt := hinv.unreleased_lt hn
    change send.memory s.heap = _ at hmem
    unfold Send.memory at hmem
    split_ifs at hmem with hown
    refine ⟨_, hmem, ?_, rfl⟩
    exact Nat.mod_eq_of_lt (show unreleased send < 2 ^ 32 by change unreleased send < _ at hlt; omega)
  messages send hsend m hm := ((h.sends send hsend).inv.carries hm).pData
  distinct := h.owned.nodup
  live := h.owned.live
  once send hsend := by
    obtain ⟨hd, -⟩ | ⟨hd, -⟩ := (h.sends send hsend).inv.phase
    · exact le_of_eq_of_le hd (by decide)
    · exact le_of_eq hd
  freed send hsend hd := by
    obtain ⟨hno, -⟩ | ⟨-, -, hfreed⟩ := (h.sends send hsend).inv.phase
    · exact absurd (hno.symm.trans hd) (by decide)
    · exact ⟨hfreed.sender, hfreed.unreleased⟩

/-- Safety of all payloads together. Whatever is allocated, filled and sent, whichever memory
is handed out again, and however the threads of the sends take turns, nobody uses a payload
that is gone, and a payload in flight keeps what it was sent with. -/
theorem payloads_safe (events : List Event) (ha : Run.Along exec Allowed events empty) :
    ∃ s, Run.run exec events empty = .ok s ∧ s.Safe := by
  obtain ⟨s, hs, hsound⟩ := run_sound ha
  exact ⟨s, hs, hsound.safe⟩

/-- A callback has yet to return when the memory its payload had is handed out again. -/
theorem payloads_safe_reused :
    ∃ s, Run.run exec
      ([.allocate 5 (some ⟨0x1000, fun _ => 0⟩), .storeWord 0x1008 0 17,
        .multicast 0x1008 ⟨[7, 9], ⟨⟨3, by decide⟩, ⟨8, by decide⟩, 0, 0⟩,
          fun _ => ⟨0, ⟨0, by decide⟩, 0, ⟨0, by decide⟩, 0, 0, none⟩⟩] ++
        List.replicate 8 (.thread 0 .sender) ++
        [.thread 0 (.callback 0), .thread 0 (.callback 1), .thread 0 (.callback 1),
          .allocate 5 (some ⟨0x1000, fun _ => 0⟩), .thread 0 (.callback 0)]) empty = .ok s ∧
      s.Safe := by
  refine payloads_safe _ (.cons (fun p _ ptr q hq => absurd hq (by simp [empty])) rfl ?_)
  refine .cons ⟨by decide, fun p hp => ?_⟩ rfl (.cons ⟨by decide, by decide⟩ rfl ?_)
  · obtain rfl := Option.some.inj hp
    decide
  iterate 11 refine .cons ⟨_, rfl, by decide⟩ rfl ?_
  refine .cons (fun p hp ptr q hq => ?_) rfl (.cons ⟨_, rfl, by decide⟩ rfl trivial)
  -- by now nothing lies at the address, nor anywhere else
  have hnone : (none : Option SharedPayload) = some q := by
    by_cases he : ptr = 0x1008
    · subst he
      exact hq
    · iterate 13 have hq := of_update (a := 0x1008) he hq
      exact hq
  cases hnone

/-- A message in flight carries what its payload was sent with. -/
theorem Sound.in_flight {s : Store} (h : s.Sound) {send : Send} (hsend : send ∈ s.sends)
    {m : InFlight} (hm : m ∈ send.messages) (hflight : m.flight.holds = true) :
    Carries send.call.args send.payload m.message ∧
      ∃ c, s.heap m.message.pData = some { send.payload with refCount := c } := by
  have hc := (h.sends send hsend).inv.carries hm
  have halive : 0 < unreleased send := List.countP_pos_iff.mpr ⟨m, hm, hflight⟩
  obtain ⟨p, hp, -, heq⟩ := h.safe.pinned send hsend (.inr halive)
  refine ⟨hc, p.refCount, ?_⟩
  rw [hc.pData, hp, ← heq]

/-- What the lengths of the sends have to be. At any time, a message that holds a reference has
a payload behind it that is not freed, and lies inside that payload exactly if the length it was
sent with is no more than its words, and not negative, but for what rounding up makes good. -/
theorem messages_inside_iff (events : List Event) (ha : Run.Along exec Allowed events empty) :
    ∃ s, Run.run exec events empty = .ok s ∧
      ∀ send ∈ s.sends, ∀ m ∈ send.messages, m.flight.holds = true →
        ∃ p, s.heap m.message.pData = some p ∧
          ((0 ≤ m.message.cbSize.val ∧ m.message.cbSize.val ≤ 4 * p.words.length) ↔
            (if p.usedBitStream then -3 else 0) ≤ send.call.args.logicalBytesLength.val ∧
              send.call.args.logicalBytesLength.val ≤ 4 * p.words.length) := by
  obtain ⟨s, hs, hsound⟩ := run_sound ha
  refine ⟨s, hs, fun send hsend m hm hflight => ?_⟩
  obtain ⟨hc, c, hp⟩ := hsound.in_flight hsend hm hflight
  refine ⟨_, hp, ?_⟩
  rw [hc.cbSize]
  exact send.payload.sendSize_inside_iff send.call.args.logicalBytesLength

/-- Five bytes are sent as nine, which is more than the two words there are. -/
theorem messages_inside_iff_beyond :
    ∃ s, Run.run exec [.allocate 5 (some ⟨0x1000, fun _ => 0⟩),
        .multicast 0x1008 ⟨[7], ⟨⟨9, by decide⟩, ⟨8, by decide⟩, 0, 0⟩,
          fun _ => ⟨0, ⟨0, by decide⟩, 0, ⟨0, by decide⟩, 0, 0, none⟩⟩,
        .thread 0 .sender, .thread 0 .sender, .thread 0 .sender, .thread 0 .sender,
        .thread 0 .sender] empty = .ok s ∧
      ∃ send ∈ s.sends, ∃ m ∈ send.messages, m.flight.holds = true ∧
        ∃ p, s.heap m.message.pData = some p ∧ ¬ m.message.cbSize.val ≤ 4 * p.words.length := by
  have ha : Run.Along exec Allowed [.allocate 5 (some ⟨0x1000, fun _ => 0⟩),
      .multicast 0x1008 ⟨[7], ⟨⟨9, by decide⟩, ⟨8, by decide⟩, 0, 0⟩,
        fun _ => ⟨0, ⟨0, by decide⟩, 0, ⟨0, by decide⟩, 0, 0, none⟩⟩,
      .thread 0 .sender, .thread 0 .sender, .thread 0 .sender, .thread 0 .sender,
      .thread 0 .sender] empty := by
    refine .cons (fun p _ ptr q hq => absurd hq (by simp [empty])) rfl
      (.cons ⟨by decide, by decide⟩ rfl ?_)
    iterate 5 refine .cons ⟨_, rfl, by decide⟩ rfl ?_
    trivial
  obtain ⟨s, hs, h⟩ := messages_inside_iff _ ha
  obtain rfl := Run.ok_unique hs rfl
  obtain ⟨p, hp, hiff⟩ := h _ (List.mem_singleton_self _) _ (List.mem_singleton_self _) rfl
  refine ⟨_, hs, _, List.mem_singleton_self _, _, List.mem_singleton_self _, rfl, p, hp, fun hle => ?_⟩
  obtain rfl := Option.some.inj hp
  exact absurd (hiff.mp ⟨by decide, hle⟩).2 (by decide)

end Store

namespace Store

variable {s : Store}

/-- When every send has come to its end, only what the program holds is left. -/
theorem Sound.rest (h : s.Sound) (h0 : s.pending = 0) :
    (∀ send ∈ s.sends, send.deallocations = 1) ∧
      (∀ ptr, (s.heap ptr).isSome ↔ ptr ∈ s.held) ∧
      s.allocations =
        s.deallocations + (s.sends.map Send.deallocations).sum + s.held.length := by
  have hfreed : ∀ send ∈ s.sends, send.deallocations = 1 := by
    intro send hsend
    obtain ⟨hinv, hn⟩ := h.sends send hsend
    have hzero : send.pending = 0 :=
      List.sum_eq_zero_iff_forall_eq_nat.mp h0 _ (List.mem_map_of_mem hsend)
    exact (hinv.freed_of_pending hn hzero).deallocations
  have hnone : ownedBy s.sends = [] := by
    rw [ownedBy, List.filter_eq_nil_iff.mpr, List.map_nil]
    intro send hsend
    simp [Send.not_owns (hfreed send hsend)]
  refine ⟨hfreed, fun ptr => ?_, ?_⟩
  · rw [h.owned.live ptr, owners, hnone, List.append_nil]
  · have hsum : (s.sends.map Send.deallocations).sum = s.sends.length := by
      rw [List.map_congr_left hfreed]
      simp
    have hb := h.balance
    omega

/-- Steps of threads only, from any state: each counts. -/
theorem Sound.run_threads (h : s.Sound) (threads : List (Nat × Action))
    (ha : Run.Along Store.exec Allowed (threads.map fun t => Event.thread t.1 t.2) s) :
    ∃ s', Run.run Store.exec (threads.map fun t => Event.thread t.1 t.2) s = .ok s' ∧ s'.Sound ∧
      s'.pending + threads.length = s.pending := by
  rw [Run.run_map]
  refine Run.run_counted (I := Store.Sound) threads (fun t s hs hallowed => ?_) h ha.of_map
  obtain ⟨send, hi, hen⟩ := hallowed
  exact hs.threadStep hi hen

/-- From any state some thread has a step to take until every send has come to its end. -/
theorem Sound.pending_eq_zero_iff (h : s.Sound) :
    s.pending = 0 ↔ ∀ i action, ¬ Allowed (.thread i action) s := by
  constructor
  · rintro h0 i action ⟨send, hi, hen⟩
    obtain ⟨s', -, -, hlt⟩ := h.threadStep hi hen
    omega
  · intro hrest
    refine List.sum_eq_zero_iff_forall_eq_nat.mpr fun n hmem => ?_
    obtain ⟨send, hsend, rfl⟩ := List.mem_map.mp hmem
    obtain ⟨i, hi⟩ := List.mem_iff_getElem?.mp hsend
    obtain ⟨hinv, hn⟩ := h.sends send hsend
    exact (hinv.pending_eq_zero_iff hn).mpr fun action hen => hrest i action ⟨send, hi, hen⟩

/-- Nothing leaks and nothing gets stuck. After any history, the threads of the sends come to
their ends in a number of steps that does not depend on how they take turns, and there every
payload that was given away has been deallocated, once, and no other. -/
theorem sends_drain (events : List Event) (ha : Run.Along exec Allowed events empty) (s : Store)
    (hs : Run.run exec events empty = .ok s) (threads : List (Nat × Action))
    (ht : Run.Along exec Allowed (threads.map fun t => Event.thread t.1 t.2) s) :
    ∃ s', Run.run exec (threads.map fun t => Event.thread t.1 t.2) s = .ok s' ∧
      s'.pending + threads.length = s.pending ∧
      ((∀ i action, ¬ Allowed (.thread i action) s') ↔ threads.length = s.pending) ∧
      (threads.length = s.pending →
        (∀ send ∈ s'.sends, send.deallocations = 1) ∧
        (∀ ptr, (s'.heap ptr).isSome ↔ ptr ∈ s'.held) ∧
        s'.allocations =
          s'.deallocations + (s'.sends.map Send.deallocations).sum + s'.held.length) := by
  obtain ⟨s₁, hs₁, hsound⟩ := run_sound ha
  obtain rfl := Run.ok_unique hs hs₁
  obtain ⟨s', hs', hsound', hlen⟩ := hsound.run_threads threads ht
  have hiff := hsound'.pending_eq_zero_iff
  refine ⟨s', hs', hlen, ?_, fun hall => hsound'.rest (by omega)⟩
  rw [← hiff]
  omega

/-- Two messages, released in the order they were not sent in. -/
theorem sends_drain_two :
    ∃ s', (∀ i action, ¬ Allowed (.thread i action) s') ∧
      (∀ send ∈ s'.sends, send.deallocations = 1) ∧ ∀ ptr, (s'.heap ptr).isSome ↔ ptr ∈ s'.held := by
  obtain ⟨s', -, -, hrest, h⟩ := sends_drain
    [.allocate 5 (some ⟨0x1000, fun _ => 0⟩),
      .multicast 0x1008 ⟨[7, 9], ⟨⟨3, by decide⟩, ⟨8, by decide⟩, 0, 0⟩,
        fun _ => ⟨0, ⟨0, by decide⟩, 0, ⟨0, by decide⟩, 0, 0, none⟩⟩]
    (.cons (fun p _ ptr q hq => absurd hq (by simp [empty])) rfl
      (.cons ⟨by decide, by decide⟩ rfl trivial)) _ rfl
    (List.replicate 8 (0, .sender) ++
      [(0, .callback 1), (0, .callback 0), (0, .callback 0), (0, .callback 1)])
    (by
      iterate 12 refine .cons ⟨_, rfl, by decide⟩ rfl ?_
      trivial)
  obtain ⟨hfreed, hlive, -⟩ := h (by decide)
  exact ⟨s', hrest.mpr (by decide), hfreed, hlive⟩

end Store
end Nalchi
