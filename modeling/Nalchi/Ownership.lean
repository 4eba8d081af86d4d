import Mathlib.Data.List.Nodup
import Mathlib.Data.List.Perm.Basic
import Mathlib.Logic.Function.Basic

/-! Memory whose live cells have one owner each: the rules for allocating, storing to,
handing over and freeing a cell. Independent of what the cells hold. -/
namespace Ownership
open Function (update)

variable {α β : Type*}

/-- The live cells are those of the owners, and no two owners share one. -/
structure Owned (heap : α → Option β) (owners : List α) : Prop where
  nodup : owners.Nodup
  live : ∀ a, (heap a).isSome ↔ a ∈ owners

variable {heap : α → Option β} {owners owners' : List α} {a : α}

theorem owned_nil : Owned (fun _ : α => (none : Option β)) [] :=
  ⟨List.nodup_nil, fun a => by simp⟩

/-- Ownership may change hands. -/
theorem Owned.perm (h : Owned heap owners) (hp : owners.Perm owners') : Owned heap owners' :=
  ⟨hp.nodup_iff.mp h.nodup, fun a => (h.live a).trans hp.mem_iff⟩

theorem Owned.exists_of_mem (h : Owned heap owners) (ha : a ∈ owners) : ∃ b, heap a = some b :=
  Option.isSome_iff_exists.mp ((h.live a).mpr ha)

variable [DecidableEq α]

/-- A store changes one cell. -/
theorem of_update {a' : α} {cell : Option β} {b : β} (hne : a' ≠ a)
    (h : update heap a cell a' = some b) : heap a' = some b := by
  rwa [Function.update_of_ne hne] at h

theorem Owned.alloc (h : Owned heap owners) (ha : heap a = none) (b : β) :
    Owned (update heap a (some b)) (a :: owners) := by
  have hno : a ∉ owners := by simp [← h.live a, ha]
  refine ⟨List.nodup_cons.mpr ⟨hno, h.nodup⟩, fun a' => ?_⟩
  by_cases he : a' = a
  · simp [he]
  · simp [he, h.live a']

theorem Owned.store (h : Owned heap owners) (ha : a ∈ owners) (b : β) :
    Owned (update heap a (some b)) owners := by
  refine ⟨h.nodup, fun a' => ?_⟩
  by_cases he : a' = a
  · simp [he, ha]
  · simp [he, h.live a']

theorem Owned.free (h : Owned heap (a :: owners)) : Owned (update heap a none) owners := by
  obtain ⟨hno, hnodup⟩ := List.nodup_cons.mp h.nodup
  refine ⟨hnodup, fun a' => ?_⟩
  by_cases he : a' = a
  · simp [he, hno]
  · simp [he, h.live a']

end Ownership
