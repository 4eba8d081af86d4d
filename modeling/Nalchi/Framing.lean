import Mathlib.Algebra.GroupWithZero.Nat
import Mathlib.Algebra.BigOperators.Group.List.Basic

/-! Items laid end to end in a stream, and decoders that take one item after the
other off its front. What they make of a stream that stops anywhere. Independent of
what the items are and how they are encoded. -/
namespace Framing

section
variable {ε α β ι : Type*}

/-- `code` stands for `item`: it is taken off the front whatever follows, and no
proper prefix of it is taken for anything. -/
structure Frames (decode : List β → Except ε (α × List β)) (code : List β) (item : α) : Prop where
  whole : ∀ rest, decode (code ++ rest) = .ok (item, rest)
  cut : ∀ n, n < code.length → ∃ err, decode (code.take n) = .error err

/-- What the decoders deliver, up to the first that fails. -/
def decodeMany : List (List β → Except ε (α × List β)) → List β → List α
  | [], _ => []
  | decode :: decodes, bs =>
    match decode bs with
    | .error _ => []
    | .ok (item, rest) => item :: decodeMany decodes rest

/-- How many of these sizes fit one behind the other. -/
def fitting : List Nat → Nat → Nat
  | [], _ => 0
  | size :: sizes, room => if size ≤ room then fitting sizes (room - size) + 1 else 0

theorem decodeMany_of_error {decode : List β → Except ε (α × List β)} {bs : List β} {err : ε}
    (h : decode bs = .error err) (decodes : List (List β → Except ε (α × List β))) :
    decodeMany (decode :: decodes) bs = [] := by
  rw [decodeMany, h]

theorem decodeMany_of_ok {decode : List β → Except ε (α × List β)} {bs rest : List β} {item : α}
    (h : decode bs = .ok (item, rest)) (decodes : List (List β → Except ε (α × List β))) :
    decodeMany (decode :: decodes) bs = item :: decodeMany decodes rest := by
  rw [decodeMany, h]

theorem fitting_of_le {size room : Nat} (h : size ≤ room) (sizes : List Nat) :
    fitting (size :: sizes) room = fitting sizes (room - size) + 1 := if_pos h

theorem fitting_of_lt {size room : Nat} (h : room < size) (sizes : List Nat) :
    fitting (size :: sizes) room = 0 := if_neg (by omega)

theorem fitting_le_length (sizes : List Nat) (room : Nat) : fitting sizes room ≤ sizes.length := by
  induction sizes generalizing room with
  | nil => exact Nat.le_refl 0
  | cons size sizes ih =>
    rw [fitting]
    split_ifs
    · exact Nat.succ_le_succ (ih _)
    · exact Nat.zero_le _

/-- Those that fit take no more than there is room for. -/
theorem sum_fitting_le (sizes : List Nat) (room : Nat) :
    (sizes.take (fitting sizes room)).sum ≤ room := by
  induction sizes generalizing room with
  | nil => exact Nat.zero_le _
  | cons size sizes ih =>
    rw [fitting]
    split_ifs with h
    · have hrest := ih (room - size)
      rw [List.take_succ_cons, List.sum_cons]
      omega
    · exact Nat.zero_le _

/-- The next one would not fit. -/
theorem lt_sum_of_fitting_lt (sizes : List Nat) (room : Nat)
    (h : fitting sizes room < sizes.length) :
    room < (sizes.take (fitting sizes room + 1)).sum := by
  induction sizes generalizing room with
  | nil => exact absurd h (Nat.not_lt_zero _)
  | cons size sizes ih =>
    by_cases hle : size ≤ room
    · rw [fitting_of_le hle, List.length_cons] at h
      have hrest := ih (room - size) (Nat.lt_of_succ_lt_succ h)
      rw [fitting_of_le hle, List.take_succ_cons, List.sum_cons]
      omega
    · rw [fitting_of_lt (by omega), List.take_succ_cons, List.sum_cons]
      omega

/-- A stream that stops anywhere delivers the items that are in it as a whole. -/
theorem decodeMany_take (decode : ι → List β → Except ε (α × List β)) (code : ι → List β)
    (item : ι → α) (is : List ι) (h : ∀ i ∈ is, Frames (decode i) (code i) (item i))
    (rest : List β) (n : Nat) :
    decodeMany (is.map decode) ((is.flatMap code ++ rest).take n) =
      (is.take (fitting (is.map fun i => (code i).length) n)).map item := by
  induction is generalizing n with
  | nil => rfl
  | cons i is ih =>
    have hi := h i (by simp)
    rw [List.map_cons, List.map_cons, List.flatMap_cons, List.append_assoc, List.take_append]
    by_cases hle : (code i).length ≤ n
    · rw [List.take_of_length_le hle, decodeMany_of_ok (hi.whole _),
        ih (fun j hj => h j (by simp [hj])), fitting_of_le hle, List.take_succ_cons, List.map_cons]
    · obtain ⟨err, herr⟩ := hi.cut n (by omega)
      have hnone : n - (code i).length = 0 := by omega
      rw [hnone, List.take_zero, List.append_nil, decodeMany_of_error herr, fitting_of_lt (by omega)]
      rfl

/-- What is taken off the front depends on nothing behind it. -/
def Local (takes : List β → α → List β → Prop) : Prop :=
  ∀ bs item rest, takes bs item rest →
    ∃ code, bs = code ++ rest ∧ ∀ rest', takes (code ++ rest') item rest'

theorem Local.of_iff {takes takes' : List β → α → List β → Prop} (h : Local takes)
    (hiff : ∀ bs item rest, takes' bs item rest ↔ takes bs item rest) : Local takes' := by
  intro bs item rest ht
  obtain ⟨code, hbs, hcode⟩ := h bs item rest ((hiff bs item rest).mp ht)
  exact ⟨code, hbs, fun rest' => (hiff _ item rest').mpr (hcode rest')⟩

/-- A fixed number of places, looked at as a whole. -/
theorem local_take (n : Nat) (look : List β → α → Prop) :
    Local fun bs item rest => n ≤ bs.length ∧ look (bs.take n) item ∧ rest = bs.drop n := by
  rintro bs item rest ⟨hn, hlook, rfl⟩
  have hlen : (bs.take n).length = n := by rw [List.length_take, Nat.min_eq_left hn]
  refine ⟨bs.take n, (List.take_append_drop n bs).symm, fun rest' => ⟨?_, ?_, ?_⟩⟩
  · rw [List.length_append]
    omega
  · rwa [List.take_left' hlen]
  · rw [List.drop_left' hlen]

/-- One item, and behind it another that depends on the first. -/
theorem Local.seq {γ : Type*} {takes : List β → α → List β → Prop}
    {next : α → List β → γ → List β → Prop} (ht : Local takes) (hn : ∀ item, Local (next item)) :
    Local fun bs item' rest => ∃ item mid, takes bs item mid ∧ next item mid item' rest := by
  rintro bs item' rest ⟨item, mid, hfirst, hsecond⟩
  obtain ⟨code, rfl, hcode⟩ := ht bs item mid hfirst
  obtain ⟨code', rfl, hcode'⟩ := hn item mid item' rest hsecond
  refine ⟨code ++ code', (List.append_assoc _ _ _).symm,
    fun rest' => ⟨item, code' ++ rest', ?_, hcode' rest'⟩⟩
  rw [List.append_assoc]
  exact hcode _

/-- What is made of the item, where anything is, does not change what is taken. -/
theorem Local.image {γ : Type*} {takes : List β → α → List β → Prop} (h : Local takes)
    (makes : α → γ → Prop) :
    Local fun bs item' rest => ∃ item, takes bs item rest ∧ makes item item' := by
  rintro bs item' rest ⟨item, ht, hmakes⟩
  obtain ⟨code, hbs, hcode⟩ := h bs item rest ht
  exact ⟨code, hbs, fun rest' => ⟨item, hcode rest', hmakes⟩⟩

/-- It is taken off every stream that begins alike. -/
theorem Local.alike {takes : List β → α → List β → Prop} (h : Local takes) {bs bs' rest : List β}
    {item : α} {k : Nat} (ht : takes bs item rest) (hk : bs.length ≤ rest.length + k)
    (hsame : bs'.take k = bs.take k) :
    ∃ rest', takes bs' item rest' ∧ bs'.length + rest.length = bs.length + rest'.length := by
  obtain ⟨code, rfl, hcode⟩ := h bs item rest ht
  rw [List.length_append] at hk
  have hfront : bs'.take code.length = code := by
    have htake := congrArg (List.take code.length) hsame
    rwa [List.take_take, List.take_take, Nat.min_eq_left (by omega), List.take_left] at htake
  have hle : code.length ≤ bs'.length := by
    rw [← hfront, List.length_take]
    exact Nat.min_le_right _ _
  refine ⟨bs'.drop code.length, ?_, ?_⟩
  · have hall := hcode (bs'.drop code.length)
    nth_rewrite 1 [← hfront] at hall
    rwa [List.take_append_drop] at hall
  · rw [List.length_drop, List.length_append]
    omega

end
end Framing
