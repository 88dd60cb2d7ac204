import Mathlib.Data.Nat.Bitwise

/-!
# Kernel tables

A kernel table (`lib/ktable.h`) is a static array of `num` elements with one
bitmap bit per element. `ktable_alloc` takes the lowest clear bit,
`ktable_free` clears the bit again. Freeing does not touch the element: its
old contents stay readable until the slot is handed out again, and several
routines of the memory subsystem do read them.

The bitmap is one natural number, the 32-bit words laid end to end.
-/

namespace F9

/-- A kernel table: capacity, allocation bitmap and element array. -/
structure KTable (α : Type) where
  num : Nat
  bitmap : Nat
  data : Nat → α

namespace KTable

variable {α : Type}

/-- Element `i` is in the table and currently handed out. -/
def live (kt : KTable α) (i : Nat) : Bool :=
  decide (i < kt.num) && kt.bitmap.testBit i

/-- The scan of `ktable_alloc`: the first clear bit from `i`, `n` bits left. -/
def firstFree (kt : KTable α) : Nat → Nat → Option Nat
  | _, 0 => none
  | i, n + 1 => if kt.bitmap.testBit i then firstFree kt (i + 1) n else some i

/-- `ktable_alloc`: the lowest free element, `none` when the table is full. -/
def alloc (kt : KTable α) : Option (Nat × KTable α) :=
  match kt.firstFree 0 kt.num with
  | none => none
  | some i => some (i, { kt with bitmap := kt.bitmap ||| 1 <<< i })

/-- `ktable_free` on an element of the table. -/
def free (kt : KTable α) (i : Nat) : KTable α :=
  { kt with bitmap := kt.bitmap &&& (kt.bitmap ^^^ 1 <<< i) }

/-- Overwrite element `i`. -/
def write (kt : KTable α) (i : Nat) (v : α) : KTable α :=
  { kt with data := fun j => if j = i then v else kt.data j }

section

variable (kt : KTable α)
include kt

@[simp] theorem write_live (i : Nat) (v : α) (j : Nat) : (kt.write i v).live j = kt.live j := rfl

@[simp] theorem write_data_self (i : Nat) (v : α) : (kt.write i v).data i = v := by
  simp [write]

theorem write_data_ne {i j : Nat} (v : α) (h : j ≠ i) : (kt.write i v).data j = kt.data j := by
  simp [write, h]

end

/-- The mask of bit `i`. -/
theorem testBit_mask (i j : Nat) : (1 <<< i).testBit j = decide (i = j) := by
  rw [Nat.one_shiftLeft, Nat.testBit_two_pow]

/-- Freeing clears exactly one bit. -/
theorem free_live (kt : KTable α) (i j : Nat) :
    (kt.free i).live j = (kt.live j && decide (j ≠ i)) := by
  show (decide (j < kt.num) && (kt.bitmap &&& (kt.bitmap ^^^ 1 <<< i)).testBit j) = _
  rw [Nat.testBit_and, Nat.testBit_xor, testBit_mask]
  unfold live
  by_cases hij : j = i
  · subst hij; simp
  · have hji : ¬ i = j := fun h => hij h.symm
    simp [hij, hji]

theorem live_lt {kt : KTable α} {i : Nat} (h : kt.live i = true) : i < kt.num := by
  simp only [live, Bool.and_eq_true, decide_eq_true_eq] at h
  exact h.1

/-- The scan stops at a clear bit inside its window. -/
theorem firstFree_spec (kt : KTable α) (n i j : Nat) (h : kt.firstFree i n = some j) :
    i ≤ j ∧ j < i + n ∧ kt.bitmap.testBit j = false := by
  induction n generalizing i j with
  | zero => simp [firstFree] at h
  | succ n ih =>
    unfold firstFree at h
    split at h
    · obtain ⟨h1, h2, h3⟩ := ih (i + 1) j h
      exact ⟨by omega, by omega, h3⟩
    · rename_i hbit
      injection h with h
      subst h
      exact ⟨Nat.le_refl i, by omega, by simpa using hbit⟩

/-- A full scan means every bit of the window is set. -/
theorem firstFree_none (kt : KTable α) : ∀ (n i : Nat), kt.firstFree i n = none →
    ∀ j, i ≤ j → j < i + n → kt.bitmap.testBit j = true := by
  intro n
  induction n with
  | zero => intro i _ j h1 h2; omega
  | succ n ih =>
    intro i h j h1 h2
    unfold firstFree at h
    split at h
    · rename_i hbit
      by_cases hj : j = i
      · rw [hj]; exact hbit
      · exact ih (i + 1) h j (by omega) (by omega)
    · simp at h

/-- What a successful allocation does: a slot that was free becomes live,
nothing else changes. -/
theorem alloc_spec {kt kt' : KTable α} {i : Nat} (h : kt.alloc = some (i, kt')) :
    kt.live i = false ∧ i < kt.num ∧ kt'.num = kt.num ∧ kt'.data = kt.data ∧
      ∀ j, kt'.live j = (kt.live j || decide (j = i)) := by
  unfold alloc at h
  split at h
  · simp at h
  · rename_i k hk
    simp only [Option.some.injEq, Prod.mk.injEq] at h
    obtain ⟨rfl, rfl⟩ := h
    obtain ⟨_, hlt, hbit⟩ := kt.firstFree_spec kt.num 0 k hk
    refine ⟨by simp [live, hbit], by omega, rfl, rfl, ?_⟩
    intro j
    show (decide (j < kt.num) && (kt.bitmap ||| 1 <<< k).testBit j) = _
    rw [Nat.testBit_or, testBit_mask]
    unfold live
    by_cases hj : j = k
    · subst hj
      have : j < kt.num := by omega
      simp [this]
    · have hkj : ¬ k = j := fun h => hj h.symm
      simp [hj, hkj]

end KTable

end F9
