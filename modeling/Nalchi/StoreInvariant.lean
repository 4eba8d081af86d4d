import Nalchi.Store

/-! The store keeps every payload apart from every other: each send in it runs as it
would alone. -/
namespace Nalchi
open SharedPayload SocketExtensions Ownership
open Function (update)

/-- What lies behind the pointer of a send while its payload is not deallocated. Afterwards
that may be another payload. -/
def Send.memory (heap : Nat → Option SharedPayload) (send : Send) : Option SharedPayload :=
  if send.owns then heap send.payload.ptr else none

structure Send.Sound (heap : Nat → Option SharedPayload) (send : Send) : Prop where
  inv : World.Inv send.payload send.call (send.seeing (send.memory heap))
  length : send.call.connections.length < 2 ^ 31

structure Store.Sound (s : Store) : Prop where
  owned : Owned s.heap s.owners
  addressed : ∀ ptr p, s.heap ptr = some p → p.ptr = ptr
  held : ∀ ptr ∈ s.held, ∀ p, s.heap ptr = some p → p.refCount = 0
  sends : ∀ send ∈ s.sends, send.Sound s.heap
  balance : s.allocations = s.deallocations + s.held.length + s.sends.length

namespace World

variable {p : SharedPayload} {call : SendCall}

/-- Which of the phases a send is in shows in the count of its deallocations. -/
theorem Inv.phase {s : World} (h : Inv p call s) :
    s.deallocations = 0 ∧ (∃ c, s.memory = some { p with refCount := c }) ∨
      s.deallocations = 1 ∧ s.memory = none ∧ Freed p call s := by
  obtain h | h | h := h
  · exact .inl ⟨h.deallocations, _, h.memory⟩
  · exact .inl ⟨h.deallocations, _, h.memory⟩
  · exact .inr ⟨h.deallocations, h.memory, h⟩

/-- The callbacks that have not returned when the payload is freed were not the last. -/
theorem Freed.decreased {s : World} (h : Freed p call s) {i : Nat} {m : InFlight}
    (hi : s.messages[i]? = some m) (hflight : m.flight.inCallback) :
    ∃ old, m.flight = .decreased old ∧ ¬ 1 = old := by
  cases hm : m.flight with
  | attached => exact absurd hflight (by simp [hm, Flight.inCallback])
  | released => exact absurd hflight (by simp [hm, Flight.inCallback])
  | sent =>
    have hpos : 0 < s.unreleased := count_pos hi (by rw [hm]; rfl)
    exact absurd h.unreleased (by omega)
  | decreased old =>
    refine ⟨old, rfl, ?_⟩
    rintro rfl
    have hpos : 0 < s.deallocating := count_pos hi (by rw [hm]; rfl)
    exact absurd h.deallocating (by omega)

/-- Once the payload is freed no step looks at its memory. -/
theorem Freed.exec_any {s : World} (h : Freed p call s) {action : Action}
    (hen : Enabled action s) (memory : Option SharedPayload) :
    ∃ s', World.exec call p.ptr action s = .ok s' ∧ Freed p call s' ∧
      World.exec call p.ptr action { s with memory := memory } = .ok { s' with memory := memory } := by
  cases action with
  | sender => exact absurd h.sender hen
  | callback i =>
    obtain ⟨⟨msg, flight⟩, hi, hflight⟩ := (Option.any_eq_true _ _).mp hen
    obtain ⟨s', hs', hfreed⟩ := h.callback hi hflight
    obtain ⟨old, rfl, hold⟩ := h.decreased hi hflight
    have hstep (t : World) (ht : t.messages[i]? = some ⟨msg, .decreased old⟩) :
        t.callbackStep i = .ok (t.setFlight i msg (.released false)) := by
      rw [callbackStep, ht]
      simp only [if_neg hold]
    obtain rfl := Run.ok_unique (hstep s hi) hs'
    exact ⟨_, hs', hfreed, hstep { s with memory := memory } hi⟩

end World

namespace Send

variable {heap : Nat → Option SharedPayload} {send : Send}

theorem owns_iff : send.owns = true ↔ send.deallocations = 0 := by
  simp [owns]

theorem not_owns (h : send.deallocations = 1) : send.owns = false := by
  simp [owns, h]

theorem Sound.pointer (h : send.Sound heap) {action : Action}
    (hen : World.Enabled action (send.seeing none)) : send.pointer action = send.payload.ptr := by
  cases action with
  | sender => rfl
  | callback i =>
    obtain ⟨m, hi, hflight⟩ := (Option.any_eq_true _ _).mp hen
    have hi : send.messages[i]? = some m := hi
    have hc : Carries send.call.args send.payload m.message := h.inv.carries (List.mem_of_getElem? hi)
    rw [Send.pointer, hi]
    exact hc.pData

/-- A step of a thread in the store is a step of the send alone. Once the payload is freed
the step leaves alone whatever lies behind the pointer by then. -/
theorem Sound.exec (h : send.Sound heap) {action : Action}
    (hen : World.Enabled action (send.seeing none)) :
    ∃ w, World.exec send.call send.payload.ptr action
        (send.seeing (heap (send.pointer action))) = .ok w ∧
      (send.after w).pending + 1 = send.pending ∧
      (send.owns = true ∧ World.Inv send.payload send.call w ∨
        send.owns = false ∧ w.memory = heap (send.pointer action) ∧ w.deallocations = 1 ∧
          World.Inv send.payload send.call { w with memory := none }) := by
  have hptr := h.pointer hen
  obtain ⟨hinv, hlen⟩ := h
  by_cases hown : send.owns = true
  · rw [Send.memory, if_pos hown] at hinv
    rw [hptr]
    obtain ⟨w, hw, hinv', hpending⟩ := hinv.advance hlen hen
    exact ⟨w, hw, hpending, .inl ⟨hown, hinv'⟩⟩
  · rw [Send.memory, if_neg hown] at hinv
    obtain ⟨hd, -⟩ | ⟨-, -, hfreed⟩ := hinv.phase
    · exact absurd (owns_iff.mpr hd) hown
    obtain ⟨w, hw, hfreed', hany⟩ := hfreed.exec_any hen (heap (send.pointer action))
    have hpending := hinv.exec_pending hen hw
    have hnone : { w with memory := none } = w := by rw [← hfreed'.memory]
    exact ⟨_, hany, hpending,
      .inr ⟨by simpa using hown, rfl, hfreed'.deallocations, .inr (.inr (hnone ▸ hfreed'))⟩⟩

/-- What happens to other memory is nothing to a send. -/
theorem Sound.frame (h : send.Sound heap) {heap' : Nat → Option SharedPayload}
    (hsame : send.owns = true → heap' send.payload.ptr = heap send.payload.ptr) :
    send.Sound heap' := by
  have hmem : send.memory heap' = send.memory heap := by
    unfold Send.memory
    split_ifs with hown
    · exact hsame hown
    · rfl
  exact ⟨by rw [hmem]; exact h.inv, h.length⟩

end Send

theorem exists_split {α : Type*} {l : List α} {i : Nat} {a : α} (h : l[i]? = some a) :
    ∃ l₁ l₂, l = l₁ ++ a :: l₂ ∧ ∀ b, l.set i b = l₁ ++ b :: l₂ := by
  obtain ⟨hi, ha⟩ := List.getElem?_eq_some_iff.mp h
  refine ⟨l.take i, l.drop (i + 1), ?_, fun b => by rw [List.set_eq_take_append_cons_drop, if_pos hi]⟩
  rw [← ha, List.getElem_cons_drop, List.take_append_drop]

namespace Store

variable {s : Store} {ptr : Nat}

theorem access_of_heap {p : SharedPayload} (h : s.heap ptr = some p) : s.access ptr = .ok p := by
  rw [access, h]

theorem ownedBy_append (sends sends' : List Send) :
    ownedBy (sends ++ sends') = ownedBy sends ++ ownedBy sends' := by
  rw [ownedBy, List.filter_append, List.map_append]
  rfl

theorem ownedBy_cons (send : Send) (sends : List Send) : ownedBy (send :: sends) =
    if send.owns then send.payload.ptr :: ownedBy sends else ownedBy sends := by
  rw [ownedBy, List.filter_cons]
  split_ifs <;> rfl

theorem mem_ownedBy {sends : List Send} {send : Send} (h : send ∈ sends) (hown : send.owns = true) :
    send.payload.ptr ∈ ownedBy sends :=
  List.mem_map_of_mem (List.mem_filter.mpr ⟨h, hown⟩)

/-- A send that owns its payload comes first among the owners. -/
theorem owners_perm {sends₁ sends₂ : List Send} {send : Send} (held : List Nat)
    (hown : send.owns = true) : (held ++ ownedBy (sends₁ ++ send :: sends₂)).Perm
      (send.payload.ptr :: (held ++ ownedBy (sends₁ ++ sends₂))) := by
  rw [ownedBy_append, ownedBy_append, ownedBy_cons, if_pos hown, ← List.append_assoc,
    ← List.append_assoc]
  exact List.perm_middle

/-- A cell nobody answers for but the program is no cell of a send. -/
theorem Sound.frame (h : s.Sound) (hptr : ptr ∈ s.held ∨ s.heap ptr = none)
    (cell : Option SharedPayload) : ∀ send ∈ s.sends, send.Sound (update s.heap ptr cell) := by
  intro send hmem
  refine (h.sends send hmem).frame fun hown => ?_
  have hown := mem_ownedBy hmem hown
  refine Function.update_of_ne ?_ _ _
  rintro rfl
  obtain hheld | hnone := hptr
  · exact (List.nodup_append.mp h.owned.nodup).2.2 _ hheld _ hown rfl
  · obtain ⟨p, hp⟩ := h.owned.exists_of_mem (List.mem_append_right _ hown)
    simp [hnone] at hp

theorem Sound.live (h : s.Sound) (hptr : ptr ∈ s.held) :
    ∃ p, s.heap ptr = some p ∧ p.ptr = ptr ∧ p.refCount = 0 := by
  obtain ⟨p, hp⟩ := h.owned.exists_of_mem (List.mem_append_left _ hptr)
  exact ⟨p, hp, h.addressed ptr p hp, h.held ptr hptr p hp⟩

/-- What the program stores to a payload it holds. -/
theorem Sound.store (h : s.Sound) (hptr : ptr ∈ s.held) {p : SharedPayload} (hp : p.ptr = ptr)
    (hc : p.refCount = 0) : Sound { s with heap := update s.heap ptr (some p) } := by
  refine ⟨h.owned.store (List.mem_append_left _ hptr) p, fun a q hq => ?_, fun a ha q hq => ?_,
    h.frame (.inl hptr) _, h.balance⟩
  · by_cases he : a = ptr
    · obtain rfl : p = q := by simpa [he] using hq
      rw [he, hp]
    · exact h.addressed a q (by simpa [he] using hq)
  · by_cases he : a = ptr
    · obtain rfl : p = q := by simpa [he] using hq
      exact hc
    · exact h.held a ha q (by simpa [he] using hq)

theorem apart_ptr_ne {p q : SharedPayload} (h : Apart p q) : q.ptr ≠ p.ptr := by
  intro heq
  have hp := p.toNat_internalAllocSize
  have hq := q.toNat_internalAllocSize
  obtain h | h := h
  · rw [heq] at h
    omega
  · rw [heq] at h
    omega

theorem Sound.allocate (h : s.Sound) {size : AllocSize} {raw : Option RawSpace}
    {p : SharedPayload} (ha : SharedPayload.allocate (fun _ => raw) size = some p)
    (hapart : ∀ ptr q, s.heap ptr = some q → Apart p q) :
    Sound { s with
      heap := update s.heap p.ptr (some p)
      held := p.ptr :: s.held
      allocations := s.allocations + 1 } := by
  have hnone : s.heap p.ptr = none := by
    rw [Option.eq_none_iff_forall_ne_some]
    intro q hq
    exact apart_ptr_ne (hapart _ q hq) (h.addressed _ q hq)
  refine ⟨h.owned.alloc hnone p, fun a q hq => ?_, fun a ha' q hq => ?_,
    h.frame (.inr hnone) _, ?_⟩
  · by_cases he : a = p.ptr
    · obtain rfl : p = q := by simpa [he] using hq
      exact he.symm
    · exact h.addressed a q (by simpa [he] using hq)
  · by_cases he : a = p.ptr
    · obtain rfl : p = q := by simpa [he] using hq
      exact (allocate_spec ha).2.2.1
    · obtain hmem : a ∈ s.held := by simpa [he] using ha'
      exact h.held a hmem q (by simpa [he] using hq)
  · have hb := h.balance
    simp only [List.length_cons]
    omega

theorem Sound.forceDeallocate (h : s.Sound) (hptr : ptr ∈ s.held) :
    Sound { s with
      heap := update s.heap ptr none
      held := s.held.erase ptr
      deallocations := s.deallocations + 1 } := by
  have hperm : s.owners.Perm (ptr :: (s.held.erase ptr ++ ownedBy s.sends)) :=
    (List.perm_cons_erase hptr).append_right _
  refine ⟨(h.owned.perm hperm).free, fun a q hq => ?_, fun a ha q hq => ?_,
    h.frame (.inl hptr) _, ?_⟩
  · by_cases he : a = ptr
    · simp [he] at hq
    · exact h.addressed a q (by simpa [he] using hq)
  · by_cases he : a = ptr
    · simp [he] at hq
    · exact h.held a (List.mem_of_mem_erase ha) q (by simpa [he] using hq)
  · have hb := h.balance
    have hlen := List.length_erase_of_mem hptr
    have hpos := List.length_pos_of_mem hptr
    simp only
    omega

/-- A send takes over the payload as it is. -/
theorem Sound.send (h : s.Sound) (hptr : ptr ∈ s.held) {call : SendCall}
    {begun : SharedPayload → SendCall → World} (hn : call.connections.length < 2 ^ 31)
    (hbegun : ∀ p, p.refCount = 0 →
      World.Inv p call ((Send.begin p call (begun p call)).seeing (some p))) :
    ∃ s', s.send ptr call begun = .ok s' ∧ s'.Sound := by
  obtain ⟨p, hp, hpp, hc⟩ := h.live hptr
  refine ⟨_, by rw [Store.send, access_of_heap hp]; rfl, ?_⟩
  have hnew : ownedBy [Send.begin p call (begun p call)] = [ptr] := by
    rw [← hpp]
    rfl
  have hperm : s.owners.Perm
      (s.held.erase ptr ++ ownedBy (s.sends ++ [Send.begin p call (begun p call)])) := by
    rw [ownedBy_append, hnew, ← List.append_assoc]
    refine ((List.perm_cons_erase hptr).append_right _).trans ?_
    exact (List.perm_append_singleton ptr _).symm
  refine ⟨h.owned.perm hperm, h.addressed,
    fun a ha => h.held a (List.mem_of_mem_erase ha), fun send hmem => ?_, ?_⟩
  · obtain hmem | hmem := List.mem_append.mp hmem
    · exact h.sends send hmem
    · obtain rfl := List.mem_singleton.mp hmem
      have hmemory : (Send.begin p call (begun p call)).memory s.heap = some p :=
        (congrArg s.heap hpp).trans hp
      exact ⟨by rw [hmemory]; exact hbegun p hc, hn⟩
  · have hb := h.balance
    have hlen := List.length_erase_of_mem hptr
    have hpos := List.length_pos_of_mem hptr
    simp only [List.length_append, List.length_singleton]
    omega

end Store
end Nalchi
