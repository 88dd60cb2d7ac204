import Mathlib.Data.List.Range
import Mathlib.Data.List.Nodup

/-!
# Places on a circle

`m` places are numbered from 0 and go round. `shift m i d` is the place `d` after `i`, for
one turn at most; `slots m i n` are the `n` places that follow `i`, in order: what a ring
buffer with a read position `i` holds.
-/

namespace Cyclic

variable {m i d e n x : Nat}

/-- The place `d` after `i`. -/
def shift (m i d : Nat) : Nat := if i + d < m then i + d else i + d - m

/-- The `n` places after `i`. -/
def slots (m i n : Nat) : List Nat := (List.range n).map fun d => shift m i (d + 1)

theorem shift_lt (hi : i < m) (hd : d ≤ m) : shift m i d < m := by
  unfold shift
  split <;> omega

/-- Less than one turn does not lead to the same place. -/
theorem shift_ne (hde : d < e) (h : e < d + m) :
    shift m i d ≠ shift m i e := by
  unfold shift
  split <;> split <;> omega

theorem shift_shift (hi : i < m) (hd : d < m) : shift m (shift m i d) 1 = shift m i (d + 1) := by
  unfold shift
  split <;> split <;> split <;> omega

theorem shift_shift_left (hi : i < m) (hd : d < m) :
    shift m (shift m i 1) d = shift m i (d + 1) := by
  unfold shift
  split <;> split <;> split <;> omega

theorem shift_self : shift m i m = i := by
  unfold shift
  split <;> omega

@[simp] theorem slots_zero : slots m i 0 = [] := rfl

@[simp] theorem length_slots : (slots m i n).length = n := by
  simp [slots]

theorem slots_succ : slots m i (n + 1) = slots m i n ++ [shift m i (n + 1)] := by
  unfold slots
  rw [List.range_succ, List.map_append]
  rfl

theorem slots_cons (hi : i < m) (hn : n < m) :
    slots m i (n + 1) = shift m i 1 :: slots m (shift m i 1) n := by
  unfold slots
  rw [List.range_succ_eq_map, List.map_cons, List.map_map]
  refine congrArg _ (List.map_congr_left fun d hd => ?_)
  have hdn := List.mem_range.mp hd
  exact (shift_shift_left hi (by omega)).symm

theorem mem_slots : x ∈ slots m i n ↔ ∃ d < n, shift m i (d + 1) = x := by
  simp [slots]

/-- The next place is free as long as not all are taken. -/
theorem next_not_mem_slots (hn : n < m) : shift m i (n + 1) ∉ slots m i n := by
  intro h
  obtain ⟨d, hd, heq⟩ := mem_slots.mp h
  exact shift_ne (by omega) (by omega) heq

/-- When all are taken, the next place is that of the oldest entry. -/
theorem first_mem_slots (hm : 0 < m) : shift m i 1 ∈ slots m i m :=
  mem_slots.mpr ⟨0, hm, rfl⟩

end Cyclic
