import Mathlib.Algebra.Group.Nat.Defs
import Mathlib.Data.Finset.Card
import Mathlib.Data.Nat.Find

/-!
# Tilings by aligned blocks

A block is an address and an exponent, `(b, k)` for the `2 ^ k` addresses from `b`, and `2 ^ k`
divides `b`. Two such blocks are disjoint or one is inside the other, so a tiling of `[lo, hi)` that
takes the largest block that fits at each place has as few blocks as any (`Greedy.length_le`).

`joint lo hi` is the exponent of the most aligned address of `[lo, hi]`: up to there the largest
blocks are given by the alignment of their address, behind it by the size that is left.
-/

namespace Dyadic

/-- The blocks of `T` are aligned, disjoint, and hold the addresses of `[lo, hi)`. -/
structure Tiling (T : Finset (ℕ × ℕ)) (lo hi : ℕ) : Prop where
  aligned : ∀ x ∈ T, 2 ^ x.2 ∣ x.1
  cover : ∀ n, (lo ≤ n ∧ n < hi) ↔ ∃ x ∈ T, x.1 ≤ n ∧ n < x.1 + 2 ^ x.2
  disjoint : ∀ x ∈ T, ∀ y ∈ T, x ≠ y → x.1 + 2 ^ x.2 ≤ y.1 ∨ y.1 + 2 ^ y.2 ≤ x.1

variable {T : Finset (ℕ × ℕ)} {b c e lo hi k m p n u q : ℕ} {l : List ℕ}

theorem Tiling.bounds (h : Tiling T lo hi) {x : ℕ × ℕ} (hx : x ∈ T) :
    lo ≤ x.1 ∧ x.1 + 2 ^ x.2 ≤ hi := by
  have hpos := Nat.two_pow_pos x.2
  have hfirst := (h.cover x.1).mpr ⟨x, hx, by omega, by omega⟩
  have hlast := (h.cover (x.1 + 2 ^ x.2 - 1)).mpr ⟨x, hx, by omega, by omega⟩
  omega

theorem Tiling.first (h : Tiling T lo hi) (hlt : lo < hi) : ∃ k, (lo, k) ∈ T := by
  obtain ⟨⟨b, k⟩, hx, h1, _⟩ := (h.cover lo).mp ⟨Nat.le_refl _, hlt⟩
  have hb : b = lo := Nat.le_antisymm h1 (h.bounds hx).1
  exact ⟨k, hb ▸ hx⟩

theorem Tiling.tail (h : Tiling T lo hi) (hk : (lo, k) ∈ T) :
    Tiling (T.erase (lo, k)) (lo + 2 ^ k) hi := by
  refine ⟨fun x hx => h.aligned x (Finset.mem_of_mem_erase hx), fun n => ?_, fun x hx y hy =>
    h.disjoint x (Finset.mem_of_mem_erase hx) y (Finset.mem_of_mem_erase hy)⟩
  have hpos := Nat.two_pow_pos k
  constructor
  · rintro ⟨h1, h2⟩
    obtain ⟨x, hx, hn⟩ := (h.cover n).mp ⟨by omega, h2⟩
    refine ⟨x, Finset.mem_erase.mpr ⟨?_, hx⟩, hn⟩
    rintro rfl
    exact absurd hn.2 (Nat.not_lt.mpr h1)
  · rintro ⟨x, hx, hn⟩
    obtain ⟨hne, hx⟩ := Finset.mem_erase.mp hx
    have hin := (h.cover n).mpr ⟨x, hx, hn⟩
    rcases h.disjoint x hx _ hk hne with hdis | hdis
    · omega
    · dsimp only at hdis
      omega

theorem add_le_of_dvd (hp : m ∣ p) (hq : m ∣ q) (h : p < q) : p + m ≤ q := by
  have hle := Nat.le_of_dvd (by omega) (Nat.dvd_sub hq hp)
  omega

/-- An aligned block that begins inside another one ends there. -/
theorem nested {x j : ℕ} (hk : 2 ^ k ∣ b) (hj : 2 ^ j ∣ x) (h1 : b < x) (h2 : x < b + 2 ^ k) :
    x + 2 ^ j ≤ b + 2 ^ k := by
  rcases Nat.le_total j k with hle | hle
  · have hd : 2 ^ j ∣ b + 2 ^ k :=
      Nat.dvd_trans (Nat.pow_dvd_pow 2 hle) (Nat.dvd_add hk (Nat.dvd_refl _))
    exact add_le_of_dvd hj hd h2
  · -- a multiple of `2 ^ k` between two neighbouring ones
    have := add_le_of_dvd hk (Nat.dvd_trans (Nat.pow_dvd_pow 2 hle) hj) h1
    omega

/-- Dropping the blocks of a tiling that begin inside an aligned block `[b, b + 2 ^ k)`. -/
theorem Tiling.beyond (h : Tiling T c e) (hk : 2 ^ k ∣ b) (hb : b < c) (hc : c ≤ b + 2 ^ k) :
    Tiling (T.filter fun x => b + 2 ^ k ≤ x.1) (b + 2 ^ k) e := by
  refine ⟨fun x hx => h.aligned x (Finset.mem_filter.mp hx).1, fun n => ?_, fun x hx y hy =>
    h.disjoint x (Finset.mem_filter.mp hx).1 y (Finset.mem_filter.mp hy).1⟩
  constructor
  · rintro ⟨h1, h2⟩
    obtain ⟨x, hx, hn⟩ := (h.cover n).mp ⟨by omega, h2⟩
    refine ⟨x, Finset.mem_filter.mpr ⟨hx, ?_⟩, hn⟩
    by_contra hlt
    have hlo := (h.bounds hx).1
    have := nested hk (h.aligned x hx) (by omega) (Nat.lt_of_not_le hlt)
    omega
  · rintro ⟨x, hx, hn⟩
    obtain ⟨hx, hge⟩ := Finset.mem_filter.mp hx
    have := (h.cover n).mpr ⟨x, hx, hn⟩
    omega

/-! ## Tilings in order -/

/-- Blocks with these exponents, one after the other, lead from `b` to `e`. -/
inductive Run (e : ℕ) : ℕ → List ℕ → Prop
  | nil : Run e e []
  | cons {b k : ℕ} {l : List ℕ} : 2 ^ k ∣ b → Run e (b + 2 ^ k) l → Run e b (k :: l)

theorem Run.le (h : Run e b l) : b ≤ e := by
  induction h with
  | nil => exact Nat.le_refl _
  | cons _ _ ih => omega

theorem Run.tiling (h : Run e b l) : ∃ T, Tiling T b e ∧ T.card = l.length := by
  induction h with
  | nil =>
    refine ⟨∅, ⟨by simp, fun n => ?_, by simp⟩, rfl⟩
    simp
  | @cons b k l hk hl ih =>
    obtain ⟨T, hT, hcard⟩ := ih
    have hle := hl.le
    have hnot : (b, k) ∉ T := by
      intro hx
      have := (hT.bounds hx).1
      omega
    refine ⟨insert (b, k) T, ⟨?_, fun n => ?_, ?_⟩, ?_⟩
    · intro x hx
      rcases Finset.mem_insert.mp hx with rfl | hx
      · exact hk
      · exact hT.aligned x hx
    · simp only [Finset.mem_insert, exists_eq_or_imp, ← hT.cover]
      omega
    · intro x hx y hy hne
      rcases Finset.mem_insert.mp hx with rfl | hx
      · rcases Finset.mem_insert.mp hy with rfl | hy
        · exact absurd rfl hne
        · exact .inl (hT.bounds hy).1
      · rcases Finset.mem_insert.mp hy with rfl | hy
        · exact .inr (hT.bounds hx).1
        · exact hT.disjoint x hx y hy hne
    · rw [Finset.card_insert_of_notMem hnot, hcard, List.length_cons]

/-- Each block is the largest one that fits. -/
inductive Greedy (e : ℕ) : ℕ → List ℕ → Prop
  | nil : Greedy e e []
  | cons {b k : ℕ} {l : List ℕ} : 2 ^ k ∣ b → b + 2 ^ k ≤ e →
      (∀ j, 2 ^ j ∣ b → b + 2 ^ j ≤ e → j ≤ k) →
      Greedy e (b + 2 ^ k) l → Greedy e b (k :: l)

/-- No tiling has fewer blocks. The first block `(b, j)` of the other tiling is inside the greedy
one; what follows it there does not count, the rest is left to the induction. -/
theorem Greedy.length_le (h : Greedy e b l) (hT : Tiling T b e) : l.length ≤ T.card := by
  induction h generalizing T with
  | nil => exact Nat.zero_le _
  | @cons b k l hk hfit hmax _ ih =>
    obtain ⟨j, hj⟩ := hT.first (by omega)
    have hjk : j ≤ k := hmax j (hT.aligned _ hj) (hT.bounds hj).2
    have hle : 2 ^ j ≤ 2 ^ k := Nat.pow_le_pow_right (by omega) hjk
    have hrest := (hT.tail hj).beyond hk (Nat.lt_add_of_pos_right (Nat.two_pow_pos j))
      (Nat.add_le_add_left hle b)
    have hcard := Finset.card_erase_add_one hj
    have := ih hrest
    have := Finset.card_filter_le (T.erase (b, j)) fun x => b + 2 ^ k ≤ x.1
    rw [List.length_cons]
    omega

/-! ## The most aligned address -/

/-- The greatest exponent up to `m` of which `[lo, hi]` holds a multiple. -/
def joint (m lo hi : ℕ) : ℕ := Nat.findGreatest (fun v => lo ≤ hi / 2 ^ v * 2 ^ v) m

variable {v : ℕ}

theorem le_joint (hv : v ≤ m) (h : lo ≤ hi / 2 ^ v * 2 ^ v) : v ≤ joint m lo hi :=
  Nat.le_findGreatest hv h

theorem joint_le (m lo hi : ℕ) : joint m lo hi ≤ m := Nat.findGreatest_le m

theorem joint_spec (m : ℕ) (h : lo ≤ hi) : lo ≤ hi / 2 ^ joint m lo hi * 2 ^ joint m lo hi := by
  refine Nat.findGreatest_spec (P := fun v => lo ≤ hi / 2 ^ v * 2 ^ v) (Nat.zero_le m) ?_
  simpa using h

/-- A multiple of a power of two below `n` is at most the last one. -/
theorem le_last_multiple (hp : 2 ^ v ∣ p) (hle : p ≤ n) : p ≤ n / 2 ^ v * 2 ^ v := by
  obtain ⟨q, rfl⟩ := hp
  rw [Nat.mul_comm]
  exact Nat.mul_le_mul_right _ ((Nat.le_div_iff_mul_le (Nat.two_pow_pos v)).mpr (by
    rw [Nat.mul_comm]
    exact hle))

/-- Beyond the block of an address of alignment `u`, below `m` not of a higher one, the most aligned
address is the same. -/
theorem joint_step (hu : 2 ^ u ∣ b) (hnot : u < m → ¬ 2 ^ (u + 1) ∣ b) (hfit : b + 2 ^ u ≤ e) :
    joint m (b + 2 ^ u) e = joint m b e := by
  have hsame : ∀ v ≤ m, b ≤ e / 2 ^ v * 2 ^ v → b + 2 ^ u ≤ e / 2 ^ v * 2 ^ v := by
    intro v hv h
    rcases Nat.lt_or_ge u v with hlt | hge
    · -- the multiple of `2 ^ v` is one of `2 ^ u` and not `b`
      have hdvd : 2 ^ (u + 1) ∣ e / 2 ^ v * 2 ^ v :=
        Nat.dvd_trans (Nat.pow_dvd_pow 2 hlt) (Nat.dvd_mul_left _ _)
      have hne : b ≠ e / 2 ^ v * 2 ^ v := fun heq => hnot (by omega) (heq ▸ hdvd)
      exact add_le_of_dvd hu (Nat.dvd_trans (Nat.pow_dvd_pow 2 (Nat.le_succ u)) hdvd)
        (Nat.lt_of_le_of_ne h hne)
    · refine le_last_multiple ?_ hfit
      exact Nat.dvd_trans (Nat.pow_dvd_pow 2 hge) (Nat.dvd_add hu (Nat.dvd_refl _))
  refine Nat.le_antisymm (le_joint (joint_le _ _ _) ?_) (le_joint (joint_le _ _ _) ?_)
  · have := joint_spec m hfit
    omega
  · exact hsame _ (joint_le _ _ _) (joint_spec m (by omega))

/-- In front of a size that does not reach the alignment of the address, it is the address
itself. -/
theorem joint_last (hum : u ≤ m) (hu : 2 ^ u ∣ b) (hnot : u < m → ¬ 2 ^ (u + 1) ∣ b)
    (hn : n < 2 ^ u) : joint m b (b + n) = u ∧ (b + n) % 2 ^ u = n := by
  refine ⟨Nat.le_antisymm ?_ (le_joint hum (le_last_multiple hu (Nat.le_add_right _ _))), ?_⟩
  · by_contra hlt
    have hlt : u < joint m b (b + n) := Nat.lt_of_not_le hlt
    have hle := joint_le m b (b + n)
    have hspec := joint_spec m (Nat.le_add_right b n)
    generalize joint m b (b + n) = v at hlt hle hspec
    have hdvd : 2 ^ (u + 1) ∣ (b + n) / 2 ^ v * 2 ^ v :=
      Nat.dvd_trans (Nat.pow_dvd_pow 2 hlt) (Nat.dvd_mul_left _ _)
    have hup : (b + n) / 2 ^ v * 2 ^ v ≤ b + n := Nat.div_mul_le_self _ _
    have hne : b ≠ (b + n) / 2 ^ v * 2 ^ v := fun heq => hnot (by omega) (heq ▸ hdvd)
    have := add_le_of_dvd hu (Nat.dvd_trans (Nat.pow_dvd_pow 2 (Nat.le_succ u)) hdvd)
      (Nat.lt_of_le_of_ne hspec hne)
    omega
  · rw [Nat.add_mod, Nat.mod_eq_zero_of_dvd hu, Nat.zero_add, Nat.mod_mod, Nat.mod_eq_of_lt hn]

end Dyadic
