import Nalchi.Fetching

/-! What every operation of the reader keeps, through any history: whatever its
parts keep. The binding to the span and the place of the scratch in it are such. -/
namespace Nalchi.BitStreamReader
variable {e : Endian}

/-- A relation between the states before and after, kept by the parts of a read. -/
structure Frame (e : Endian) (R : BitStreamReader → BitStreamReader → Prop) : Prop where
  refl : ∀ r, R r r
  trans : ∀ {u v w}, R u v → R v w → R u w
  setFail : ∀ r, R r { r with fail := true }
  setUsed : ∀ r n, R r { r with logicalUsedBits := n }
  take : ∀ {r r' t n v}, n ≤ IntType.bits t → r.takeValue e t n = .ok (r', v) → R r r'
  peek : ∀ {r r'}, R r r' → R r { r' with
    scratch := r.scratch
    scratchBits := r.scratchBits
    wordsIndex := r.wordsIndex
    logicalUsedBits := r.logicalUsedBits }

theorem fst_map_eq_ok {α : Type} {x : Except Fault (BitStreamReader × α)} {r : BitStreamReader}
    (h : Prod.fst <$> x = .ok r) : ∃ a, x = .ok (r, a) := by
  cases x with
  | error f => cases h
  | ok p => exact ⟨p.2, by rw [← Except.ok.inj h]⟩

section
variable {R : BitStreamReader → BitStreamReader → Prop} (hR : Frame e R)

include hR

theorem doRead_frame (checked : Bool) (t : IntType) (data min max : t.Value) :
    Run.Keeps (fun r p => R r p.1) (doRead e checked t data min max) := by
  intro r p h
  simp only [doRead] at h
  split_ifs at h
  · rw [← Except.ok.inj h]
    exact hR.refl r
  · rw [← Except.ok.inj h]
    exact hR.setFail r
  · rw [← Except.ok.inj h]
    exact hR.setFail r
  · obtain ⟨⟨r₁, v⟩, hr₁, h⟩ := Run.bind_eq_ok.mp h
    have ht := hR.take (t.rangeBits_le min max) hr₁
    dsimp only at h
    split_ifs at h
    · rw [← Except.ok.inj h]
      exact hR.trans ht (hR.setFail r₁)
    · rw [← Except.ok.inj h]
      exact hR.trans ht (hR.setUsed r₁ _)

theorem readArray_frame (t : IntType) (i n : Nat) (data : Nat → t.Value) :
    Run.Keeps (fun r p => R r p.1) (readArray e t i n data) := by
  induction n generalizing i data with
  | zero =>
    intro r p h
    rw [← Except.ok.inj h]
    exact hR.refl r
  | succ n ih =>
    intro r p h
    obtain ⟨⟨r₁, x⟩, hr₁, h⟩ := Run.bind_eq_ok.mp h
    exact hR.trans (doRead_frame hR _ _ _ _ _ hr₁) (ih _ _ h)

theorem readChars_frame (t : IntType) (str : List t.Value) :
    Run.Keeps (fun r p => R r p.1) (readChars e t str) := by
  induction str with
  | nil =>
    intro r p h
    rw [← Except.ok.inj h]
    exact hR.refl r
  | cons ch str ih =>
    intro r p h
    obtain ⟨⟨r₁, x⟩, hr₁, h⟩ := Run.bind_eq_ok.mp h
    obtain ⟨⟨r₂, xs⟩, hr₂, h⟩ := Run.bind_eq_ok.mp h
    have hk := ih hr₂
    rw [← Except.ok.inj h]
    exact hR.trans (doRead_frame hR _ _ _ _ _ hr₁) hk

theorem readLengthAs_frame (lenType : IntType) :
    Run.Keeps (fun r p => R r p.1) (readLengthAs e lenType) := by
  intro r p h
  obtain ⟨⟨r₁, len⟩, hr₁, h⟩ := Run.bind_eq_ok.mp h
  have hk := doRead_frame hR _ _ _ _ _ hr₁
  dsimp only at h
  split_ifs at h <;> rwa [← Except.ok.inj h]

theorem readStringLength_frame :
    Run.Keeps (fun r p => R r p.1) (readStringLength e) := by
  intro r p h
  rw [readStringLength] at h
  split_ifs at h
  · rw [← Except.ok.inj h]
    exact hR.refl r
  · obtain ⟨⟨r₁, kind⟩, hr₁, h⟩ := Run.bind_eq_ok.mp h
    have hk := doRead_frame hR _ _ _ _ _ hr₁
    dsimp only at h
    split_ifs at h
    · rwa [← Except.ok.inj h]
    · exact hR.trans hk (readLengthAs_frame hR _ h)
    · exact hR.trans hk (readLengthAs_frame hR _ h)
    · exact hR.trans hk (readLengthAs_frame hR _ h)
    · exact hR.trans hk (readLengthAs_frame hR _ h)

theorem peekStringLength_frame :
    Run.Keeps (fun r p => R r p.1) (peekStringLength e) := by
  intro r p h
  obtain ⟨⟨r₁, len⟩, hr₁, h⟩ := Run.bind_eq_ok.mp h
  rw [← Except.ok.inj h]
  exact hR.peek (readStringLength_frame hR hr₁)

/-- What comes after the length, in either of the two string reads. -/
theorem readString_frame (c : CharType) (str : List c.Value) (maxLength : SizeType) :
    Run.Keeps (fun r p => R r p.1) (readString e c str maxLength) := by
  intro r p h
  rw [readString] at h
  split_ifs at h
  · rw [← Except.ok.inj h]
    exact hR.refl r
  · obtain ⟨⟨r₁, len⟩, hr₁, h⟩ := Run.bind_eq_ok.mp h
    have hk := readStringLength_frame hR hr₁
    dsimp only at h
    split_ifs at h
    · rw [← Except.ok.inj h]
      exact hR.trans hk (hR.setFail r₁)
    · rw [← Except.ok.inj h]
      exact hR.trans hk (hR.setFail r₁)
    · exact hR.trans hk (readChars_frame hR _ _ h)

theorem readCString_frame (c : CharType) (str : Nat → c.Value) (maxLength : SizeType) :
    Run.Keeps (fun r p => R r p.1) (readCString e c str maxLength) := by
  intro r p h
  rw [readCString] at h
  split_ifs at h
  · rw [← Except.ok.inj h]
    exact hR.refl r
  · obtain ⟨⟨r₁, len⟩, hr₁, h⟩ := Run.bind_eq_ok.mp h
    have hk := readStringLength_frame hR hr₁
    dsimp only at h
    split_ifs at h
    · rw [← Except.ok.inj h]
      exact hR.trans hk (hR.setFail r₁)
    · rw [← Except.ok.inj h]
      exact hR.trans hk (hR.setFail r₁)
    · obtain ⟨⟨r₂, mem⟩, hr₂, h⟩ := Run.bind_eq_ok.mp h
      have hk₂ := readArray_frame hR _ _ _ _ hr₂
      rw [← Except.ok.inj h]
      exact hR.trans hk hk₂

theorem readBlock_frame (data : Nat → IntType.uint8.Value) (size : SizeType) :
    Run.Keeps (fun r p => R r p.1) (readBlock e data size) := by
  intro r p h
  rw [readBlock] at h
  split_ifs at h
  · rw [← Except.ok.inj h]
    exact hR.refl r
  · rw [← Except.ok.inj h]
    exact hR.setFail r
  · exact readArray_frame hR _ _ _ _ h

theorem exec_read_frame (call : ReadCall) :
    Run.Keeps (fun r p => R r p.1) (call.exec e) := by
  intro r p h
  cases call with
  | int t data min max =>
    obtain ⟨⟨r₁, x⟩, hr₁, h⟩ := Run.bind_eq_ok.mp h
    rw [← Except.ok.inj h]
    exact doRead_frame hR _ _ _ _ _ hr₁
  | float data =>
    obtain ⟨⟨r₁, x⟩, hr₁, h⟩ := Run.bind_eq_ok.mp h
    obtain ⟨⟨r₂, raw⟩, hr₂, hr₁⟩ := Run.bind_eq_ok.mp hr₁
    have hk := doRead_frame hR _ _ _ _ _ hr₂
    dsimp only at hr₁
    rw [← Except.ok.inj h]
    split_ifs at hr₁ <;> rwa [← (Prod.mk.inj (Except.ok.inj hr₁)).1]
  | double data =>
    obtain ⟨⟨r₁, x⟩, hr₁, h⟩ := Run.bind_eq_ok.mp h
    obtain ⟨⟨r₂, raw⟩, hr₂, hr₁⟩ := Run.bind_eq_ok.mp hr₁
    have hk := doRead_frame hR _ _ _ _ _ hr₂
    dsimp only at hr₁
    rw [← Except.ok.inj h]
    split_ifs at hr₁ <;> rwa [← (Prod.mk.inj (Except.ok.inj hr₁)).1]
  | block data size =>
    obtain ⟨⟨r₁, x⟩, hr₁, h⟩ := Run.bind_eq_ok.mp h
    rw [← Except.ok.inj h]
    exact readBlock_frame hR _ _ hr₁
  | string c str maxLength =>
    obtain ⟨⟨r₁, x⟩, hr₁, h⟩ := Run.bind_eq_ok.mp h
    rw [← Except.ok.inj h]
    exact readString_frame hR _ _ _ hr₁
  | cstring c str maxLength =>
    obtain ⟨⟨r₁, x⟩, hr₁, h⟩ := Run.bind_eq_ok.mp h
    rw [← Except.ok.inj h]
    exact readCString_frame hR _ _ _ hr₁

/-- What the parts of a read and a restart keep, any history keeps. -/
theorem runOps_frame (hrestart : ∀ r, R r r.restart) (ops : List ReaderOp) :
    Run.Keeps R (runOps e ops) := by
  refine Run.Keeps.run hR.refl hR.trans (fun op => ?_) ops
  intro r r' h
  cases op with
  | read call =>
    obtain ⟨after, h⟩ := fst_map_eq_ok h
    exact exec_read_frame hR call h
  | peekStringLength =>
    obtain ⟨len, h⟩ := fst_map_eq_ok h
    exact peekStringLength_frame hR h
  | setFail =>
    rw [← Except.ok.inj h]
    exact hR.setFail r
  | restart =>
    rw [← Except.ok.inj h]
    exact hrestart r

end

/-- What binding decides, and the representation. -/
def Follows (r r' : BitStreamReader) : Prop :=
  r.Windowed → r'.Windowed ∧ r'.words = r.words ∧ r'.logicalTotalBits = r.logicalTotalBits ∧
    r'.initFail = r.initFail

theorem Follows.trans {u v w : BitStreamReader} (h : Follows u v) (h' : Follows v w) :
    Follows u w := fun hu => by
  obtain ⟨hv, h1, h2, h3⟩ := h hu
  obtain ⟨hw, h4, h5, h6⟩ := h' hv
  exact ⟨hw, h4.trans h1, h5.trans h2, h6.trans h3⟩

theorem Windowed.restart (r : BitStreamReader) : r.restart.Windowed :=
  ⟨le_refl _, le_refl _, by simp [BitStreamReader.restart], by simp [BitStreamReader.restart]⟩

theorem follows_frame : Frame e Follows where
  refl := fun _ h => ⟨h, rfl, rfl, rfl⟩
  trans := Follows.trans
  setFail := fun _ h => ⟨⟨h.1, h.2, h.3, h.4⟩, rfl, rfl, rfl⟩
  setUsed := fun _ _ h => ⟨⟨h.1, h.2, h.3, h.4⟩, rfl, rfl, rfl⟩
  take := fun hn hr h => by
    obtain ⟨-, -, ht⟩ := takeValue_of_ok h hn hr
    exact ⟨ht.windowed, ht.words, ht.total, ht.initFail⟩
  peek := fun hk h => by
    obtain ⟨-, h1, h2, h3⟩ := hk h
    exact ⟨⟨h.1, h.2, h.3, h.4⟩, h1, h2, h3⟩

/-- Any history leaves the binding as it was, and the scratch a window. -/
theorem runOps_follows (ops : List ReaderOp) : Run.Keeps Follows (runOps e ops) :=
  runOps_frame follows_frame (fun r _ => ⟨Windowed.restart r, rfl, rfl, rfl⟩) ops

/-- The words fetched so far are words of the span. -/
def StaysInSpan (r r' : BitStreamReader) : Prop :=
  r.wordsIndex ≤ r.words.length → r'.wordsIndex ≤ r'.words.length ∧ r'.words = r.words

theorem StaysInSpan.refl (r : BitStreamReader) : StaysInSpan r r := fun h => ⟨h, rfl⟩

theorem StaysInSpan.trans {u v w : BitStreamReader} (h : StaysInSpan u v) (h' : StaysInSpan v w) :
    StaysInSpan u w := fun hu => by
  obtain ⟨hv, h1⟩ := h hu
  obtain ⟨hw, h2⟩ := h' hv
  exact ⟨hw, h2.trans h1⟩

/-- A fetch that succeeds had a word to fetch. -/
theorem takeScratch_staysInSpan (n : Nat) :
    Run.Keeps (fun r p => StaysInSpan r p.1) (takeScratch e n) := by
  intro r p h hin
  obtain ⟨r₁, hr₁, h⟩ := Run.bind_eq_ok.mp h
  rw [← Except.ok.inj h]
  rw [fetchIfShort] at hr₁
  split_ifs at hr₁
  · obtain ⟨word, hword, hr₁⟩ := Run.bind_eq_ok.mp hr₁
    obtain ⟨shifted, -, hr₁⟩ := Run.bind_eq_ok.mp hr₁
    rw [← Except.ok.inj hr₁]
    refine ⟨?_, rfl⟩
    rw [loadWord] at hword
    split_ifs at hword with h0
    by_contra hlt
    dsimp only at hlt
    rw [List.getElem?_eq_none (by omega)] at hword
    cases hword
  · rw [← Except.ok.inj hr₁]
    exact ⟨hin, rfl⟩

theorem takeValue_staysInSpan (t : IntType) (n : Nat) :
    Run.Keeps (fun r p => StaysInSpan r p.1) (takeValue e t n) := by
  intro r p h
  rw [takeValue] at h
  split_ifs at h
  · obtain ⟨⟨r₁, low⟩, hr₁, h⟩ := Run.bind_eq_ok.mp h
    have hk := takeScratch_staysInSpan _ hr₁
    dsimp only at h
    split_ifs at h
    · obtain ⟨⟨r₂, high⟩, hr₂, h⟩ := Run.bind_eq_ok.mp h
      have hk₂ := takeScratch_staysInSpan _ hr₂
      rw [← Except.ok.inj h]
      exact hk.trans hk₂
    · rwa [← Except.ok.inj h]
  · exact takeScratch_staysInSpan _ h

theorem staysInSpan_frame : Frame e StaysInSpan where
  refl := StaysInSpan.refl
  trans := StaysInSpan.trans
  setFail := fun _ h => ⟨h, rfl⟩
  setUsed := fun _ _ h => ⟨h, rfl⟩
  take := fun _ hr => takeValue_staysInSpan _ _ hr
  peek := fun hk h => ⟨by rw [(hk h).2]; exact h, (hk h).2⟩

/-- The reader stores nothing, so a restart brings back the state binding left. -/
theorem restart_runOps {r₀ r : BitStreamReader} {span : WordSpan} {L : SizeType}
    {ops : List ReaderOp} (h : runOps e ops (r₀.resetWith span L) = .ok r) :
    r.restart = r₀.resetWith span L := by
  obtain ⟨-, h1, h2, h3⟩ := runOps_follows ops h (Windowed.restart _)
  simp only [restart, h1, h2, h3]
  rfl

end Nalchi.BitStreamReader
