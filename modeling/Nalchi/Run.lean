import Mathlib.Algebra.GroupWithZero.Nat
import Mathlib.Algebra.Order.Group.Nat
import Mathlib.Logic.Basic

/-! Runs of a fallible step function over a list of inputs, with the induction
rules that carry an invariant through a run. Independent of what is stepped. -/
namespace Run
universe u

section
variable {ε : Type*} {α β : Type u}

@[simp] theorem bind_ok (a : α) (f : α → Except ε β) : (Except.ok a >>= f) = f a := rfl

@[simp] theorem bind_error (e : ε) (f : α → Except ε β) :
    ((Except.error e : Except ε α) >>= f) = .error e := rfl

@[simp] theorem pure_ok (a : α) : (pure a : Except ε α) = .ok a := rfl

/-- The only way a sequenced computation succeeds. -/
theorem bind_eq_ok {x : Except ε α} {f : α → Except ε β} {b : β} :
    (x >>= f) = .ok b ↔ ∃ a, x = .ok a ∧ f a = .ok b := by
  cases x with
  | error e => simp
  | ok a => simp

theorem map_eq_ok {x : Except ε α} {f : α → β} {b : β} :
    x.map f = .ok b ↔ ∃ a, x = .ok a ∧ f a = b := by
  cases x with
  | error e => simp [Except.map]
  | ok a => simp [Except.map]

/-- A computation has one result. -/
theorem ok_unique {x : Except ε α} {a b : α} (h : x = .ok a) (h' : x = .ok b) : a = b :=
  Except.ok.inj (h.symm.trans h')

theorem ok_unique_pair {x : Except ε (α × β)} {a a' : α} {b b' : β} (h : x = .ok (a, b))
    (h' : x = .ok (a', b')) : a = a' ∧ b = b' :=
  Prod.mk.inj (ok_unique h h')

end

variable {ε σ ι : Type*} (step : ι → σ → Except ε σ)

def run : List ι → σ → Except ε σ
  | [], s => .ok s
  | i :: is, s => step i s >>= run is

theorem run_singleton (i : ι) (s : σ) : run step [i] s = step i s := by
  cases h : step i s with
  | error e => rw [run, h]; rfl
  | ok t => rw [run, h]; rfl

theorem run_append (is js : List ι) (s : σ) :
    run step (is ++ js) s = run step is s >>= run step js := by
  induction is generalizing s with
  | nil => rfl
  | cons i is ih =>
    rw [List.cons_append, run, run]
    cases h : step i s with
    | error e => rfl
    | ok t => exact ih t

/-- `P` holds at every step of the run, of the input and the state it starts from. -/
def Along (P : ι → σ → Prop) : List ι → σ → Prop
  | [], _ => True
  | i :: is, s => P i s ∧ ∀ s', step i s = .ok s' → Along P is s'

/-- On a concrete run the steps can be gone through. -/
instance decidableAlong (P : ι → σ → Prop) [∀ i s, Decidable (P i s)] :
    ∀ is s, Decidable (Along step P is s)
  | [], _ => .isTrue trivial
  | i :: is, s =>
    match h : step i s with
    | .error e => decidable_of_iff (P i s) ⟨fun hp => ⟨hp, fun s' hs' => by simp [h] at hs'⟩, And.left⟩
    | .ok t =>
      have := decidableAlong P is t
      decidable_of_iff (P i s ∧ Along step P is t)
        ⟨fun hp => ⟨hp.1, fun s' hs' => by rw [← Except.ok.inj (h.symm.trans hs')]; exact hp.2⟩,
          fun hp => ⟨hp.1, hp.2 t h⟩⟩

variable {step}

theorem run_map {κ : Type*} (f : κ → ι) (ks : List κ) (s : σ) :
    run step (ks.map f) s = run (fun k => step (f k)) ks s := by
  induction ks generalizing s with
  | nil => rfl
  | cons k ks ih =>
    rw [List.map_cons, run, run]
    exact congrArg (step (f k) s >>= ·) (funext ih)

theorem Along.of_map {κ : Type*} {f : κ → ι} {P : ι → σ → Prop} {ks : List κ} {s : σ}
    (h : Along step P (ks.map f) s) :
    Along (fun k => step (f k)) (fun k => P (f k)) ks s := by
  induction ks generalizing s with
  | nil => trivial
  | cons k ks ih => exact ⟨h.1, fun s' hs' => ih (h.2 s' hs')⟩

theorem Along.cons {P : ι → σ → Prop} {i : ι} {is : List ι} {s t : σ} (hP : P i s)
    (hstep : step i s = .ok t) (h : Along step P is t) : Along step P (i :: is) s :=
  ⟨hP, fun _ hs' => Except.ok.inj (hstep.symm.trans hs') ▸ h⟩

/-- Steps that agree wherever a run comes along give the same run. -/
theorem run_congr {step' : ι → σ → Except ε σ} (is : List ι) {s : σ}
    (h : Along step (fun i s => step' i s = step i s) is s) : run step' is s = run step is s := by
  induction is generalizing s with
  | nil => rfl
  | cons i is ih =>
    rw [run, run, h.1]
    cases hstep : step i s with
    | error e => rfl
    | ok t => exact ih (h.2 t hstep)

/-- An invariant every successful step keeps holds at the end of a successful run. -/
theorem run_invariant {I : σ → Prop} (is : List ι) {s s' : σ}
    (hstep : ∀ i ∈ is, ∀ s s', I s → step i s = .ok s' → I s')
    (hs : I s) (hrun : run step is s = .ok s') : I s' := by
  induction is generalizing s with
  | nil => rwa [← Except.ok.inj hrun]
  | cons i is ih =>
    obtain ⟨t, ht, hrun'⟩ := bind_eq_ok.mp hrun
    exact ih (fun j hj => hstep j (by simp [hj])) (hstep i (by simp) s t hs ht) hrun'

/-- What an invariant of the steps implies holds all along a run. -/
theorem along_of_invariant {I : σ → Prop} {P : ι → σ → Prop} (is : List ι) {s : σ}
    (hP : ∀ i ∈ is, ∀ s, I s → P i s) (hstep : ∀ i ∈ is, ∀ s s', I s → step i s = .ok s' → I s')
    (hs : I s) : Along step P is s := by
  induction is generalizing s with
  | nil => trivial
  | cons i is ih =>
    refine ⟨hP i (by simp) s hs, fun s' hs' => ih (fun j hj => hP j (by simp [hj]))
      (fun j hj => hstep j (by simp [hj])) (hstep i (by simp) s s' hs hs')⟩

/-- What holds of every input in every state holds all along a run. -/
theorem along_of_forall {P : ι → σ → Prop} (is : List ι) (hP : ∀ i ∈ is, ∀ s, P i s) (s : σ) :
    Along step P is s := by
  induction is generalizing s with
  | nil => trivial
  | cons i is ih => exact ⟨hP i (by simp) s, fun s' _ => ih (fun j hj => hP j (by simp [hj])) s'⟩

/-- Progress: if each step from a state satisfying the invariant succeeds and
keeps it whenever `P` holds there, a run along `P` succeeds. -/
theorem run_ok {I : σ → Prop} {P : ι → σ → Prop} (is : List ι) {s : σ}
    (hstep : ∀ i s, I s → P i s → ∃ s', step i s = .ok s' ∧ I s')
    (hs : I s) (hP : Along step P is s) : ∃ s', run step is s = .ok s' ∧ I s' := by
  induction is generalizing s with
  | nil => exact ⟨s, rfl, hs⟩
  | cons i is ih =>
    obtain ⟨t, ht, hit⟩ := hstep i s hs hP.1
    obtain ⟨s', hrun, hs'⟩ := ih hit (hP.2 t ht)
    exact ⟨s', by rw [run, ht, bind_ok, hrun], hs'⟩

/-- Countdown: if each such step also brings the measure down by one, the measure says how
many more steps a run can take. -/
theorem run_counted {I : σ → Prop} {P : ι → σ → Prop} {left : σ → Nat} (is : List ι) {s : σ}
    (hstep : ∀ i s, I s → P i s → ∃ s', step i s = .ok s' ∧ I s' ∧ left s' + 1 = left s)
    (hs : I s) (hP : Along step P is s) :
    ∃ s', run step is s = .ok s' ∧ I s' ∧ left s' + is.length = left s := by
  induction is generalizing s with
  | nil => exact ⟨s, rfl, hs, rfl⟩
  | cons i is ih =>
    obtain ⟨t, ht, hit, hlt⟩ := hstep i s hs hP.1
    obtain ⟨s', hrun, hs', hlen⟩ := ih hit (hP.2 t ht)
    refine ⟨s', by rw [run, ht, bind_ok, hrun], hs', ?_⟩
    rw [List.length_cons]
    omega

/-- What the steps of a run weigh together, each in the state it starts from. -/
def total (step : ι → σ → Except ε σ) (weight : ι → σ → Nat) : List ι → σ → Nat
  | [], _ => 0
  | i :: is, s => weight i s + (match step i s with
    | .error _ => 0
    | .ok t => total step weight is t)

theorem total_cons {weight : ι → σ → Nat} {i : ι} {s t : σ} (h : step i s = .ok t)
    (is : List ι) : total step weight (i :: is) s = weight i s + total step weight is t := by
  rw [total, h]

/-- Amortisation: if every step pays for its weight with the potential it builds up, and
gives back at most its refund, the run weighs no more than the end potential and the refunds. -/
theorem total_le {I : σ → Prop} {weight : ι → σ → Nat} {potential : σ → Nat} {refund : ι → Nat}
    (is : List ι) {s s' : σ}
    (hstep : ∀ i ∈ is, ∀ s s', I s → step i s = .ok s' →
      I s' ∧ weight i s + potential s ≤ potential s' + refund i)
    (hs : I s) (hrun : run step is s = .ok s') :
    total step weight is s + potential s ≤ potential s' + (is.map refund).sum := by
  induction is generalizing s with
  | nil =>
    rw [← Except.ok.inj hrun]
    simp [total]
  | cons i is ih =>
    obtain ⟨t, ht, hrun'⟩ := bind_eq_ok.mp hrun
    obtain ⟨hI, hpay⟩ := hstep i (by simp) s t hs ht
    have hrest := ih (fun j hj => hstep j (by simp [hj])) hI hrun'
    rw [total_cons ht, List.map_cons, List.sum_cons]
    omega

/-- Every result of `f` stands in the relation `R` to the state `f` was applied to. -/
def Keeps {τ : Type*} (R : σ → τ → Prop) (f : σ → Except ε τ) : Prop :=
  ∀ ⦃s t⦄, f s = .ok t → R s t

theorem Keeps.run {R : σ → σ → Prop} (hrefl : ∀ s, R s s)
    (htrans : ∀ {s t u}, R s t → R t u → R s u) (h : ∀ i, Keeps R (step i)) (is : List ι) :
    Keeps R (run step is) := by
  induction is with
  | nil =>
    intro s t hst
    rw [← Except.ok.inj hst]
    exact hrefl s
  | cons i is ih =>
    intro s t hst
    obtain ⟨u, hsu, hut⟩ := bind_eq_ok.mp hst
    exact htrans (h i hsu) (ih hut)

/-- Unwinding: if visible steps go along in two states that look the same, and hidden ones leave
a state looking as it did, then the visible part of a run, taken alone, ends in a state that
looks like the end of the whole run. -/
theorem run_visible {I : σ → Prop} {P : ι → σ → Prop} {R : σ → σ → Prop} (visible : ι → Bool)
    (hvisible : ∀ i s s' t, visible i = true → I s → P i s → R s t → step i s = .ok s' →
      ∃ t', step i t = .ok t' ∧ R s' t')
    (hhidden : ∀ i s s' t, visible i = false → I s → P i s → R s t → step i s = .ok s' → R s' t)
    (hstep : ∀ i s s', I s → P i s → step i s = .ok s' → I s') (is : List ι) {s s' t : σ}
    (hs : I s) (hP : Along step P is s) (hR : R s t) (hrun : run step is s = .ok s') :
    ∃ t', run step (is.filter visible) t = .ok t' ∧ R s' t' := by
  induction is generalizing s t with
  | nil =>
    rw [← Except.ok.inj hrun]
    exact ⟨t, rfl, hR⟩
  | cons i is ih =>
    obtain ⟨u, hu, hrun'⟩ := bind_eq_ok.mp hrun
    have hI := hstep i s u hs hP.1 hu
    by_cases hv : visible i = true
    · obtain ⟨t₁, ht₁, hR₁⟩ := hvisible i s u t hv hs hP.1 hR hu
      obtain ⟨t', ht', hR'⟩ := ih hI (hP.2 u hu) hR₁ hrun'
      refine ⟨t', ?_, hR'⟩
      rw [List.filter_cons_of_pos hv, run, ht₁]
      exact ht'
    · have hv' : visible i = false := by simpa using hv
      rw [List.filter_cons_of_neg hv]
      exact ih hI (hP.2 u hu) (hhidden i s u t hv' hs hP.1 hR hu) hrun'

/-- Simulation of a specification that says for every input what becomes of its state. -/
theorem run_simulates {τ : Type*} {P : ι → Prop} {R : σ → τ → Prop} (spec : ι → τ → τ)
    (hstep : ∀ i s t, P i → R s t → ∃ s', step i s = .ok s' ∧ R s' (spec i t)) (is : List ι)
    (hP : ∀ i ∈ is, P i) {s : σ} {t : τ} (h : R s t) :
    ∃ s', run step is s = .ok s' ∧ R s' (is.foldl (fun t i => spec i t) t) := by
  induction is generalizing s t with
  | nil => exact ⟨s, rfl, h⟩
  | cons i is ih =>
    obtain ⟨u, hu, hR⟩ := hstep i s t (hP i (by simp)) h
    obtain ⟨s', hs', hR'⟩ := ih (fun j hj => hP j (by simp [hj])) hR
    exact ⟨s', by rw [run, hu]; exact hs', hR'⟩

end Run
