import Nalchi.Measurer
import Nalchi.Serializing
import Nalchi.ReaderRefinement

/-! Null-terminated strings: the overload that writes one, and what an array holds
when it is taken for one. -/
namespace Nalchi

section
variable {c : CharType}

/-- `std::char_traits::length`. There are `n` elements in the array from `i` on, and going
past them is undefined. -/
def traitsLength (str : Nat → c.Value) : Nat → Nat → Except Fault Nat
  | i, 0 => .error (.invalidPointer i)
  | i, n + 1 => if (str i).val = 0 then .ok i else traitsLength str (i + 1) n

/-- `std::basic_string_view(const CharT*)`, of an array of `n` elements. -/
def viewOf (str : Nat → c.Value) (n : Nat) : Except Fault (List c.Value) := do
  let len ← traitsLength str 0 n
  return (List.range len).map str

/-- The string an array of `n` elements holds: what is in front of the first null. -/
def cstr (str : Nat → c.Value) (n : Nat) : List c.Value :=
  ((List.range n).map str).takeWhile fun x => x.val ≠ 0

/-- An array with a null in it. -/
def Terminated (str : Nat → c.Value) (n : Nat) : Prop := ∃ i < n, (str i).val = 0

theorem cast_zero_val (c : CharType) : (c.intType.cast 0).val = 0 := by
  refine c.intType.wrap_of_mem 0 c.intType.lowest_nonpos ?_
  cases c with
  | char isSigned => cases isSigned <;> decide
  | wchar isSigned isWide => cases isSigned <;> cases isWide <;> decide
  | char8 => decide
  | char16 => decide
  | char32 => decide

theorem traitsLength_of_first (str : Nat → c.Value) {k : Nat} (hk : (str k).val = 0) (i n : Nat)
    (hik : i ≤ k) (hkn : k < i + n) (hfirst : ∀ j, i ≤ j → j < k → (str j).val ≠ 0) :
    traitsLength str i n = .ok k := by
  induction n generalizing i with
  | zero => omega
  | succ n ih =>
    rw [traitsLength]
    by_cases heq : i = k
    · rw [if_pos (by rw [heq]; exact hk), heq]
    · rw [if_neg (hfirst i (le_refl i) (by omega))]
      exact ih (i + 1) (by omega) (by omega) fun j hij hjk => hfirst j (by omega) hjk

theorem traitsLength_of_none (str : Nat → c.Value) (i n : Nat)
    (hnone : ∀ j, i ≤ j → j < i + n → (str j).val ≠ 0) :
    traitsLength str i n = .error (.invalidPointer (i + n)) := by
  induction n generalizing i with
  | zero => rfl
  | succ n ih =>
    rw [traitsLength, if_neg (hnone i (le_refl i) (by omega)),
      ih (i + 1) fun j hij hjn => hnone j (by omega) (by omega), Nat.add_right_comm, Nat.add_assoc]

theorem cstr_of_first (str : Nat → c.Value) {k n : Nat} (hk : (str k).val = 0) (hkn : k < n)
    (hfirst : ∀ j, j < k → (str j).val ≠ 0) : cstr str n = (List.range k).map str := by
  obtain ⟨m, rfl⟩ : ∃ m, n = k + (m + 1) := ⟨n - k - 1, by omega⟩
  rw [cstr, List.range_add, List.map_append, List.takeWhile_append_of_pos, List.range_succ_eq_map,
    List.map_cons, List.map_cons, List.takeWhile_cons_of_neg, List.append_nil]
  · simp [hk]
  · intro x hx
    obtain ⟨j, hj, rfl⟩ := List.mem_map.mp hx
    simpa using hfirst j (List.mem_range.mp hj)

/-- The view of a terminated array is the string it holds, and the walk stays in it. -/
theorem viewOf_eq {str : Nat → c.Value} {n : Nat} (h : Terminated str n) :
    viewOf str n = .ok (cstr str n) := by
  obtain ⟨i, hi, h0⟩ := h
  have hex : ∃ k, (str k).val = 0 := ⟨i, h0⟩
  have hle : Nat.find hex ≤ i := Nat.find_le h0
  have hfirst : ∀ j, j < Nat.find hex → (str j).val ≠ 0 := fun j hj => Nat.find_min hex hj
  rw [viewOf, traitsLength_of_first str (Nat.find_spec hex) 0 n (Nat.zero_le _) (by omega)
    fun j _ hj => hfirst j hj, cstr_of_first str (Nat.find_spec hex) (by omega) hfirst]
  rfl

theorem viewOf_of_not_terminated {str : Nat → c.Value} {n : Nat} (h : ¬ Terminated str n) :
    viewOf str n = .error (.invalidPointer n) := by
  have hnone : ∀ j, 0 ≤ j → j < 0 + n → (str j).val ≠ 0 :=
    fun j _ hj h0 => h ⟨j, by omega, h0⟩
  rw [viewOf, traitsLength_of_none str 0 n hnone, Nat.zero_add]
  rfl

theorem map_range_overlay {α : Type} (mem : Nat → α) (vs : List α) (k : Nat) :
    (List.range (vs.length + k)).map (overlay mem vs) =
      vs ++ (List.range' vs.length k).map mem := by
  apply List.ext_getElem?
  intro i
  rw [List.getElem?_map, List.getElem?_append]
  by_cases hlt : i < vs.length
  · rw [if_pos hlt, List.getElem?_range (by omega)]
    simp [overlay, hlt]
  · rw [if_neg hlt, List.getElem?_map]
    by_cases hk : i < vs.length + k
    · rw [List.getElem?_range hk, List.getElem?_range' (by omega)]
      have hadd : vs.length + (i - vs.length) = i := by omega
      simp [overlay, List.getElem?_eq_none (show vs.length ≤ i by omega), hadd]
    · rw [List.getElem?_eq_none (by simp; omega), List.getElem?_eq_none (by simp; omega)]
      rfl

/-- What `read(CharT*, size_type)` leaves holds the characters up to the first null among them. -/
theorem cstr_overlay (mem : Nat → c.Value) (str : List c.Value) {n : Nat} (h : str.length < n) :
    cstr (overlay mem (str ++ [c.intType.cast 0])) n = str.takeWhile fun x => x.val ≠ 0 := by
  obtain ⟨k, rfl⟩ : ∃ k, n = (str ++ [c.intType.cast 0]).length + k :=
    ⟨n - str.length - 1, by simp; omega⟩
  rw [cstr, map_range_overlay, List.append_assoc, List.takeWhile_append]
  split_ifs with hall
  · rw [List.singleton_append, List.takeWhile_cons_of_neg (by simp [cast_zero_val c]),
      List.append_nil]
    exact ((List.takeWhile_prefix _).eq_of_length hall).symm
  · rfl

theorem terminated_overlay (mem : Nat → c.Value) (str : List c.Value) {n : Nat}
    (h : str.length < n) : Terminated (overlay mem (str ++ [c.intType.cast 0])) n :=
  ⟨str.length, h, by simp [overlay, cast_zero_val c]⟩

theorem length_cstr_le (str : Nat → c.Value) (n : Nat) : (cstr str n).length ≤ n := by
  have h := (List.takeWhile_prefix (fun x : c.Value => decide (x.val ≠ 0))
    (l := (List.range n).map str)).length_le
  rwa [List.length_map, List.length_range] at h

end

/-- `write(const CharT*)`, of an array of `n` elements. -/
def BitStreamWriter.writeCString (e : Endian) (c : CharType) (str : Nat → c.Value) (n : Nat)
    (w : BitStreamWriter) : Except Fault BitStreamWriter := do
  let view ← viewOf str n
  w.writeString e c view

/-- `bit_stream_measurer::write(const CharT*)`. -/
def BitStreamMeasurer.writeCString (c : CharType) (str : Nat → c.Value) (n : Nat)
    (m : BitStreamMeasurer) : Except Fault BitStreamMeasurer := do
  let view ← viewOf str n
  return m.writeString c view.length

end Nalchi
