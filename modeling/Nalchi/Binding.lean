import Nalchi.Appending

/-! What no operation of the writer touches: the size of the span, the logical
length and the outcome of the binding, through any history whatever. -/
namespace Nalchi.BitStreamWriter
variable {e : Endian}

/-- What binding decides and no later operation changes. -/
structure SameBinding (w w' : BitStreamWriter) : Prop where
  length : w'.words.length = w.words.length
  total : w'.logicalTotalBits = w.logicalTotalBits
  initFail : w'.initFail = w.initFail

theorem SameBinding.refl (w : BitStreamWriter) : SameBinding w w := ⟨rfl, rfl, rfl⟩

theorem SameBinding.trans {u v w : BitStreamWriter} (h : SameBinding u v) (h' : SameBinding v w) :
    SameBinding u w :=
  ⟨h'.length.trans h.length, h'.total.trans h.total, h'.initFail.trans h.initFail⟩

theorem doFlushWordUnchecked_keeps : Run.Keeps SameBinding (doFlushWordUnchecked e) := by
  intro w w' h
  obtain ⟨words, hwords, h⟩ := Run.bind_eq_ok.mp h
  rw [storeWord] at hwords
  split_ifs at hwords
  rw [← Except.ok.inj h, ← Except.ok.inj hwords]
  exact ⟨List.length_set, rfl, rfl⟩

theorem pushScratch_keeps (value : ScratchType) (bits : Nat) :
    Run.Keeps SameBinding (pushScratch e value bits) := by
  intro w w' h
  obtain ⟨shifted, _, h⟩ := Run.bind_eq_ok.mp h
  rw [flushIfScratchOverflow] at h
  split_ifs at h
  · have hk := doFlushWordUnchecked_keeps h
    exact ⟨hk.length, hk.total, hk.initFail⟩
  · rw [← Except.ok.inj h]
    exact ⟨rfl, rfl, rfl⟩

theorem pushValue_keeps (t : IntType) (value : ScratchType) (bits : Nat) :
    Run.Keeps SameBinding (pushValue e t value bits) := by
  intro w w' h
  rw [pushValue] at h
  split_ifs at h
  · obtain ⟨w₁, h₁, h⟩ := Run.bind_eq_ok.mp h
    have hk := pushScratch_keeps _ _ h₁
    dsimp only at h
    split_ifs at h
    · exact hk.trans (pushScratch_keeps _ _ h)
    · rwa [← Except.ok.inj h]
  · exact pushScratch_keeps _ _ h

theorem doWrite_keeps (checked : Bool) (t : IntType) (data min max : t.Value) :
    Run.Keeps SameBinding (doWrite e checked t data min max) := by
  intro w w' h
  simp only [doWrite] at h
  split_ifs at h
  all_goals first
    | (rw [← Except.ok.inj h]; exact ⟨rfl, rfl, rfl⟩)
    | (obtain ⟨w₁, h₁, h⟩ := Run.bind_eq_ok.mp h
       have hk := pushValue_keeps _ _ _ h₁
       rw [← Except.ok.inj h]
       exact ⟨hk.length, hk.total, hk.initFail⟩)

theorem writeBytesFrom_keeps (data : Nat → IntType.uint8.Value) (i n : Nat) :
    Run.Keeps SameBinding (writeBytesFrom e data i n) := by
  induction n generalizing i with
  | zero =>
    intro w w' h
    rw [← Except.ok.inj h]
    exact SameBinding.refl w
  | succ n ih =>
    intro w w' h
    obtain ⟨w₁, h₁, h⟩ := Run.bind_eq_ok.mp h
    exact (doWrite_keeps _ _ _ _ _ h₁).trans (ih _ h)

theorem writeChars_keeps (t : IntType) (str : List t.Value) :
    Run.Keeps SameBinding (writeChars e t str) := by
  induction str with
  | nil =>
    intro w w' h
    rw [← Except.ok.inj h]
    exact SameBinding.refl w
  | cons ch str ih =>
    intro w w' h
    obtain ⟨w₁, h₁, h⟩ := Run.bind_eq_ok.mp h
    exact (doWrite_keeps _ _ _ _ _ h₁).trans (ih h)

theorem writeStringAs_keeps (kind : IntType.uint32.Value) (lenType : IntType) (c : CharType)
    (str : List c.Value) : Run.Keeps SameBinding (writeStringAs e kind lenType c str) := by
  intro w w' h
  rw [writeStringAs] at h
  split_ifs at h
  · rw [← Except.ok.inj h]
    exact ⟨rfl, rfl, rfl⟩
  · obtain ⟨w₁, h₁, h⟩ := Run.bind_eq_ok.mp h
    obtain ⟨w₂, h₂, h⟩ := Run.bind_eq_ok.mp h
    exact ((doWrite_keeps _ _ _ _ _ h₁).trans (doWrite_keeps _ _ _ _ _ h₂)).trans
      (writeChars_keeps _ _ h)

theorem exec_write_keeps (call : WriteCall) : Run.Keeps SameBinding (call.exec e) := by
  intro w w' h
  by_cases hclosed : w.fail = true ∨ w.finalFlushed = true
  · rw [call.exec_of_closed w hclosed] at h
    rw [← Except.ok.inj h]
    exact ⟨rfl, rfl, rfl⟩
  have hf : w.fail = false := by simpa using fun hf => hclosed (.inl hf)
  have hfl : w.finalFlushed = false := by simpa using fun hfl => hclosed (.inr hfl)
  cases call with
  | int t data min max => exact doWrite_keeps _ _ _ _ _ h
  | float data => exact doWrite_keeps _ _ _ _ _ h
  | double data => exact doWrite_keeps _ _ _ _ _ h
  | block data size =>
    simp only [WriteCall.exec, writeBlock, hf, hfl, Bool.false_eq_true, if_false] at h
    split_ifs at h
    · rw [← Except.ok.inj h]
      exact ⟨rfl, rfl, rfl⟩
    · exact writeBytesFrom_keeps _ _ _ h
  | string c str =>
    obtain ⟨kind, lenType, heq, -, -⟩ := writeString_eq (e := e) c str w hf hfl
    rw [WriteCall.exec, heq] at h
    exact writeStringAs_keeps _ _ _ _ h

/-- Any history leaves the binding as it was. -/
theorem runOps_keeps (ops : List WriterOp) : Run.Keeps SameBinding (runOps e ops) := by
  refine Run.Keeps.run SameBinding.refl SameBinding.trans (fun op => ?_) ops
  intro w w' h
  cases op with
  | write call => exact exec_write_keeps call h
  | flushFinal =>
    rw [WriterOp.exec, flushFinal] at h
    split_ifs at h
    · rw [← Except.ok.inj h]
      exact SameBinding.refl w
    · rw [← Except.ok.inj h]
      exact SameBinding.refl w
    · obtain ⟨w₁, h₁, h⟩ := Run.bind_eq_ok.mp h
      have hk := doFlushWordUnchecked_keeps h₁
      rw [← Except.ok.inj h]
      exact ⟨hk.length, hk.total, hk.initFail⟩
    · rw [← Except.ok.inj h]
      exact ⟨rfl, rfl, rfl⟩
  | setFail =>
    rw [← Except.ok.inj h]
    exact ⟨rfl, rfl, rfl⟩
  | restart =>
    rw [← Except.ok.inj h]
    exact ⟨rfl, rfl, rfl⟩

end Nalchi.BitStreamWriter
