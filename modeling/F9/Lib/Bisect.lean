import Mathlib.Order.Lattice

/-!
# Sorted sequences

The first `n` elements of a sequence in ascending order, as an array with a count has
them. A binary search whose lower end stays below the key finds a place that splits the
elements: those before it are at most the key, the others at least. An insertion there keeps
the order, and so does any removal.
-/

namespace Bisect

variable {α β : Type} {n r j : Nat} {f g : Nat → α}

section Search

variable [LinearOrder α]

/-- The first `n` elements do not decrease. -/
def Ascending (f : Nat → α) (n : Nat) : Prop := ∀ i j, i ≤ j → j < n → f i ≤ f j

/-- Up to place `r` the elements are at most `x`, from there on at least; if `x` is among them,
it is at `r`. -/
structure Split (f : Nat → α) (n : Nat) (x : α) (r : Nat) : Prop where
  le : r ≤ n
  before : ∀ i, i < r → f i ≤ x
  after : ∀ i, r ≤ i → i < n → x ≤ f i
  found : ∀ i, i < n → f i = x → r < n ∧ f r = x

/-- Halve the interval until the key is found or nothing is left between its ends. -/
def bisect (f : Nat → α) (x : α) : Nat → Nat → Nat → Nat
  | 0, _, last => last
  | k + 1, first, last =>
    let mid := first + (last - first) / 2
    if last - first ≤ 1 then last
    else if x < f mid then bisect f x k first mid
    else if f mid < x then bisect f x k mid last
    else mid

theorem bisect_split {f : Nat → α} {x : α} (hf : Ascending f n) :
    ∀ k first last, last - first ≤ k → first < last → last ≤ n → f first < x →
      (∀ i, last ≤ i → i < n → x < f i) → Split f n x (bisect f x k first last) := by
  intro k
  induction k with
  | zero =>
    intro first last hk hlt
    omega
  | succ k ih =>
    intro first last hk hlt hn hfirst hlast
    unfold bisect
    dsimp only
    split
    · -- the ends are neighbours
      have hlow : ∀ i, i < last → f i < x := fun i hi =>
        lt_of_le_of_lt (hf i first (by omega) (by omega)) hfirst
      refine ⟨hn, fun i hi => le_of_lt (hlow i hi), fun i hi hi' => le_of_lt (hlast i hi hi'), ?_⟩
      intro i hi heq
      by_cases hil : i < last
      · exact absurd heq (ne_of_lt (hlow i hil))
      · exact absurd heq.symm (ne_of_lt (hlast i (by omega) hi))
    · generalize hmid : first + (last - first) / 2 = mid
      split
      · rename_i hgt
        refine ih first mid (by omega) (by omega) (by omega) hfirst fun i hi hi' => ?_
        exact lt_of_lt_of_le hgt (hf mid i hi hi')
      · rename_i hgt
        split
        · rename_i hlt'
          exact ih mid last (by omega) (by omega) hn hlt' hlast
        · rename_i hlt'
          have heq : f mid = x := le_antisymm (le_of_not_gt hgt) (le_of_not_gt hlt')
          refine ⟨by omega, fun i hi => ?_, fun i hi hi' => ?_, fun _ _ _ => ⟨by omega, heq⟩⟩
          · rw [← heq]
            exact hf i mid (by omega) (by omega)
          · rw [← heq]
            exact hf mid i hi hi'

end Search

/-- Put an element at place `r`. -/
def insertAt (f : Nat → β) (r : Nat) (b : β) : Nat → β :=
  fun j => if j = r then b else if r < j then f (j - 1) else f j

/-- Take the element at place `r` out. -/
def removeAt (f : Nat → β) (r : Nat) : Nat → β := fun j => if r ≤ j then f (j + 1) else f j

/-- An element after an insertion is the new one, or an old one at its place or the next. -/
theorem insertAt_cases (f : Nat → β) (b : β) (hr : r ≤ n) (hj : j < n + 1) :
    (j = r ∧ insertAt f r b j = b) ∨
      ∃ i, i < n ∧ insertAt f r b j = f i ∧ ((j < r ∧ i = j) ∨ (r < j ∧ i + 1 = j)) := by
  unfold insertAt
  by_cases hjr : j = r
  · exact .inl ⟨hjr, if_pos hjr⟩
  · right
    rw [if_neg hjr]
    by_cases hlt : r < j
    · exact ⟨j - 1, by omega, if_pos hlt, .inr ⟨hlt, by omega⟩⟩
    · exact ⟨j, by omega, if_neg hlt, .inl ⟨by omega, rfl⟩⟩

theorem insertAt_new (f : Nat → β) (b : β) : insertAt f r b r = b := if_pos rfl

theorem insertAt_shift (f : Nat → β) (b : β) {i : Nat} (h : (j < r ∧ i = j) ∨ (r < j ∧ i + 1 = j)) :
    insertAt f r b j = f i := by
  unfold insertAt
  rcases h with ⟨hlt, rfl⟩ | ⟨hlt, rfl⟩
  · rw [if_neg (by omega), if_neg (by omega)]
  · rw [if_neg (by omega), if_pos hlt]
    rfl

theorem insertAt_old (f : Nat → β) (r : Nat) (b : β) (i : Nat) :
    ∃ j, j ≤ i + 1 ∧ insertAt f r b j = f i := by
  unfold insertAt
  by_cases hi : i < r
  · exact ⟨i, by omega, by rw [if_neg (by omega), if_neg (by omega)]⟩
  · exact ⟨i + 1, by omega, by rw [if_neg (by omega), if_pos (by omega)]; rfl⟩

/-- An element after a removal is an old one, at another place than the removed one. -/
theorem removeAt_cases (f : Nat → β) (hj : j < n - 1) :
    ∃ i, i < n ∧ i ≠ r ∧ removeAt f r j = f i ∧ ((j < r ∧ i = j) ∨ (r ≤ j ∧ i = j + 1)) := by
  by_cases hjr : r ≤ j
  · exact ⟨j + 1, by omega, by omega, if_pos hjr, .inr ⟨hjr, rfl⟩⟩
  · exact ⟨j, by omega, by omega, if_neg hjr, .inl ⟨by omega, rfl⟩⟩

theorem removeAt_old (f : Nat → β) {i : Nat} (hr : r < n) (hi : i < n) (hne : i ≠ r) :
    ∃ j, j < n - 1 ∧ removeAt f r j = f i := by
  unfold removeAt
  by_cases hlt : i < r
  · exact ⟨i, by omega, if_neg (by omega)⟩
  · refine ⟨i - 1, by omega, ?_⟩
    rw [if_pos (by omega)]
    congr 1
    omega

theorem Ascending.insertAt [LinearOrder α] {x : α} (hf : Ascending f n) (hs : Split f n x r) :
    Ascending (insertAt f r x) (n + 1) := by
  intro i j hij hj
  rcases insertAt_cases f x hs.le (show i < n + 1 by omega) with ⟨hi, he⟩ | ⟨a, ha, he, hplace⟩
  · rcases insertAt_cases f x hs.le hj with ⟨_, he'⟩ | ⟨b, hb, he', hplace'⟩
    · rw [he, he']
    · rw [he, he']
      exact hs.after b (by omega) hb
  · rcases insertAt_cases f x hs.le hj with ⟨hjr, he'⟩ | ⟨b, hb, he', hplace'⟩
    · rw [he, he']
      exact hs.before a (by omega)
    · rw [he, he']
      exact hf a b (by omega) hb

theorem Ascending.removeAt [LinearOrder α] (hf : Ascending f n) (r : Nat) :
    Ascending (removeAt f r) (n - 1) := by
  intro i j hij hj
  obtain ⟨a, ha, _, he, hplace⟩ := removeAt_cases f (show i < n - 1 by omega)
  obtain ⟨b, hb, _, he', hplace'⟩ := removeAt_cases f hj
  rw [he, he']
  exact hf a b (by omega) hb

theorem Ascending.congr [LinearOrder α] (hf : Ascending f n) (h : ∀ i, i < n → g i = f i) :
    Ascending g n := by
  intro i j hij hj
  rw [h i (by omega), h j hj]
  exact hf i j hij hj

end Bisect
