import Mathlib.Data.List.Pairwise
import Mathlib.Tactic.Ring

/-!
# Arcs and aligned blocks

Addresses are `w`-bit words, so an interval given by a base and a size is an
arc on the circle of `2 ^ w` addresses: `OnArc base size a`. A block is an arc
of `2 ^ k` addresses whose base is a multiple of `2 ^ k`; it never goes round.
`Tiles base size l` says that the list of blocks `l` covers the arc piece by
piece.
-/

namespace Arc

variable {w : Nat}

/-- `a` is one of the `size` addresses from `base` on, modulo `2 ^ w`. -/
def OnArc (base size a : BitVec w) : Prop := a - base < size

instance (base size a : BitVec w) : Decidable (OnArc base size a) :=
  inferInstanceAs (Decidable (a - base < size))

variable {a b p size : BitVec w} {k : Nat} {l : List (BitVec w × Nat)}

/-- The distance from `b` to `a` on the circle. -/
theorem toNat_sub_eq (a b : BitVec w) :
    (a - b).toNat = if b.toNat ≤ a.toNat then a.toNat - b.toNat
      else 2 ^ w + a.toNat - b.toNat := by
  rw [BitVec.toNat_sub]
  split
  · have : 2 ^ w - b.toNat + a.toNat = 2 ^ w + (a.toNat - b.toNat) := by omega
    rw [this, Nat.add_mod_left, Nat.mod_eq_of_lt (by omega)]
  · rw [Nat.mod_eq_of_lt (by omega)]
    omega

theorem onArc_split (h : p ≤ size) :
    OnArc b size a ↔ OnArc b p a ∨ OnArc (b + p) (size - p) a := by
  have hsub : a - (b + p) = (a - b) - p := by
    rw [BitVec.sub_eq_add_neg, BitVec.neg_add, BitVec.sub_eq_add_neg (a - b) p,
      BitVec.sub_eq_add_neg a b, BitVec.sub_eq_add_neg, BitVec.add_assoc]
  unfold OnArc
  rw [hsub]
  generalize a - b = x
  rw [BitVec.lt_def, BitVec.lt_def, BitVec.lt_def, toNat_sub_eq x p, toNat_sub_eq size p]
  have hple : p.toNat ≤ size.toNat := h
  split
  · omega
  · omega

theorem not_onArc_zero : ¬ OnArc b 0#w a := by
  unfold OnArc
  simp

theorem toNat_one_shiftLeft (hk : k < w) : (1#w <<< k).toNat = 2 ^ k := by
  have hw : 0 < w := by omega
  rw [BitVec.toNat_shiftLeft, BitVec.toNat_one hw, Nat.one_shiftLeft,
    Nat.mod_eq_of_lt (Nat.pow_lt_pow_right (by omega) hk)]

/-- A multiple of `2 ^ k` below `2 ^ w` leaves room for a block. -/
theorem block_le (hk : k < w) (hb : 2 ^ k ∣ b.toNat) : b.toNat + 2 ^ k ≤ 2 ^ w := by
  obtain ⟨m, hm⟩ := hb
  obtain ⟨n, hn⟩ : 2 ^ k ∣ 2 ^ w := Nat.pow_dvd_pow 2 (by omega)
  have hlt := b.isLt
  rw [hm, hn] at hlt
  have hmn : m < n := Nat.lt_of_mul_lt_mul_left hlt
  rw [hm, hn, ← Nat.mul_succ]
  exact Nat.mul_le_mul_left _ hmn

/-- A block does not go round: its addresses are an interval. -/
theorem onArc_block (hk : k < w) (hb : 2 ^ k ∣ b.toNat) :
    OnArc b (1#w <<< k) a ↔ b.toNat ≤ a.toNat ∧ a.toNat < b.toNat + 2 ^ k := by
  have hle := block_le hk hb
  unfold OnArc
  rw [BitVec.lt_def, toNat_one_shiftLeft hk, toNat_sub_eq a b]
  split
  · omega
  · omega

/-! ## Tilings -/

/-- The blocks `l`, in order, fill the arc of `size` addresses from `base`. -/
inductive Tiles : BitVec w → BitVec w → List (BitVec w × Nat) → Prop
  | nil {b : BitVec w} : Tiles b 0#w []
  | cons {b size : BitVec w} {k : Nat} {l : List (BitVec w × Nat)} : k < w → 2 ^ k ∣ b.toNat →
      2 ^ k ≤ size.toNat →
      Tiles (b + 1#w <<< k) (size - 1#w <<< k) l → Tiles b size ((b, k) :: l)

/-- The block of a tiling that covers an address. -/
def Covers (l : List (BitVec w × Nat)) (a : BitVec w) : Prop :=
  ∃ x ∈ l, OnArc x.1 (1#w <<< x.2) a

@[simp] theorem covers_nil : ¬ Covers ([] : List (BitVec w × Nat)) a := by
  simp [Covers]

@[simp] theorem covers_cons {x : BitVec w × Nat} :
    Covers (x :: l) a ↔ OnArc x.1 (1#w <<< x.2) a ∨ Covers l a := by
  simp [Covers]

theorem Tiles.covers_iff (h : Tiles b size l) : Covers l a ↔ OnArc b size a := by
  induction h with
  | nil => simp [not_onArc_zero]
  | cons hk hb hsz _ ih =>
    rename_i b size k l _
    have hle : 1#w <<< k ≤ size := by
      rw [BitVec.le_def, toNat_one_shiftLeft hk]
      exact hsz
    rw [covers_cons, ih, onArc_split hle]

theorem Tiles.aligned (h : Tiles b size l) : ∀ x ∈ l, x.2 < w ∧ 2 ^ x.2 ∣ x.1.toNat := by
  induction h with
  | nil => intro x hx; simp at hx
  | cons hk hb hsz _ ih =>
    intro x hx
    rcases List.mem_cons.mp hx with rfl | hx
    · exact ⟨hk, hb⟩
    · exact ih x hx

/-- The next base and the size left, when the arc does not go round. -/
theorem Tiles.rest_bounds (hk : k < w) (hsz : 2 ^ k ≤ size.toNat)
    (h : b.toNat + size.toNat ≤ 2 ^ w) (hne : size.toNat ≠ 2 ^ k) :
    (b + 1#w <<< k).toNat = b.toNat + 2 ^ k ∧
      (size - 1#w <<< k).toNat = size.toNat - 2 ^ k := by
  have hsh := toNat_one_shiftLeft hk
  constructor
  · rw [BitVec.toNat_add, hsh, Nat.mod_eq_of_lt (by omega)]
  · rw [toNat_sub_eq, hsh, if_pos hsz]

theorem Tiles.rest_zero (hk : k < w) (hne : size.toNat = 2 ^ k) : size - 1#w <<< k = 0#w := by
  apply BitVec.eq_of_toNat_eq
  rw [toNat_sub_eq, toNat_one_shiftLeft hk, hne, if_pos (Nat.le_refl _), Nat.sub_self]
  simp

theorem Tiles.eq_nil (h : Tiles b 0#w l) : l = [] := by
  cases h with
  | nil => rfl
  | cons hk _ hsz _ => simp at hsz

section

variable (h : Tiles b size l)
include h

/-- In a tiling that does not go round, the blocks lie inside the interval. -/
theorem Tiles.bounds (hr : b.toNat + size.toNat ≤ 2 ^ w) :
    ∀ x ∈ l, b.toNat ≤ x.1.toNat ∧ x.1.toNat + 2 ^ x.2 ≤ b.toNat + size.toNat := by
  induction h with
  | nil => intro x hx; simp at hx
  | cons hk hb hsz ht ih =>
    rename_i b size k l
    intro x hx
    rcases List.mem_cons.mp hx with rfl | hx
    · exact ⟨Nat.le_refl _, by simpa using hsz⟩
    · by_cases hne : size.toNat = 2 ^ k
      · rw [Tiles.rest_zero hk hne] at ht
        rw [ht.eq_nil] at hx
        simp at hx
      · obtain ⟨hb', hs'⟩ := Tiles.rest_bounds hk hsz hr hne
        have := ih (by omega) x hx
        omega

/-- In a tiling that does not go round, each block ends before the next
begins. -/
theorem Tiles.pairwise (hr : b.toNat + size.toNat ≤ 2 ^ w) :
    l.Pairwise fun x y => x.1.toNat + 2 ^ x.2 ≤ y.1.toNat := by
  induction h with
  | nil => exact List.Pairwise.nil
  | cons hk hb hsz ht ih =>
    rename_i b size k l
    by_cases hne : size.toNat = 2 ^ k
    · rw [Tiles.rest_zero hk hne] at ht
      rw [ht.eq_nil]
      exact List.pairwise_singleton _ _
    · obtain ⟨hb', hs'⟩ := Tiles.rest_bounds hk hsz hr hne
      have hr' : (b + 1#w <<< k).toNat + (size - 1#w <<< k).toNat ≤ 2 ^ w := by omega
      refine List.Pairwise.cons ?_ (ih hr')
      intro y hy
      have := ht.bounds hr' y hy
      show b.toNat + 2 ^ k ≤ y.1.toNat
      omega

theorem Tiles.head_base : ∀ x, l.head? = some x → x.1 = b := by
  intro x hx
  cases h with
  | nil => simp at hx
  | cons _ _ _ _ =>
    injection hx with hx
    rw [← hx]

theorem Tiles.size_eq_zero (hl : l = []) : size = 0#w := by
  cases h with
  | nil => rfl
  | cons _ _ _ _ => simp at hl

theorem Tiles.last_end (hr : b.toNat + size.toNat ≤ 2 ^ w) :
    ∀ x, l.getLast? = some x → x.1.toNat + 2 ^ x.2 = b.toNat + size.toNat := by
  induction h with
  | nil => intro x hx; simp at hx
  | cons hk hb hsz ht ih =>
    rename_i b size k l
    intro x hx
    by_cases hne : size.toNat = 2 ^ k
    · rw [Tiles.rest_zero hk hne] at ht
      rw [ht.eq_nil, List.getLast?_singleton] at hx
      injection hx with hx
      rw [← hx, hne]
    · obtain ⟨hb', hs'⟩ := Tiles.rest_bounds hk hsz hr hne
      cases l with
      | nil =>
        have hz := congrArg BitVec.toNat (ht.size_eq_zero rfl)
        rw [hs', BitVec.toNat_ofNat, Nat.zero_mod] at hz
        omega
      | cons y l =>
        have := ih (by omega) x hx
        omega

/-- In a tiling that does not go round, each block begins where the one before it ends. -/
theorem Tiles.consecutive (hr : b.toNat + size.toNat ≤ 2 ^ w) :
    l.IsChain fun x y => y.1.toNat = x.1.toNat + 2 ^ x.2 := by
  induction h with
  | nil => exact .nil
  | cons hk hb hsz ht ih =>
    rename_i b size k l
    by_cases hne : size.toNat = 2 ^ k
    · rw [Tiles.rest_zero hk hne] at ht
      rw [ht.eq_nil]
      exact .singleton _
    · obtain ⟨hb', hs'⟩ := Tiles.rest_bounds hk hsz hr hne
      cases l with
      | nil => exact .singleton _
      | cons y l =>
        refine .cons_cons ?_ (ih (by omega))
        rw [ht.head_base y rfl, hb']

theorem Tiles.sum : (l.map fun x => 2 ^ x.2).sum = size.toNat := by
  induction h with
  | nil => simp
  | cons hk hb hsz ht ih =>
    rename_i b size k l
    have hrest : (size - 1#w <<< k).toNat = size.toNat - 2 ^ k := by
      rw [toNat_sub_eq, toNat_one_shiftLeft hk, if_pos hsz]
    rw [List.map_cons, List.sum_cons, ih, hrest]
    exact Nat.add_sub_cancel' hsz

end

end Arc
