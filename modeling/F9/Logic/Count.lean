import F9.Logic.Blocks

/-!
# How many pages a chain takes

`create_fpage_chain` cuts greedily by the lowest set bit, so a size just below
a power of two takes quadratically many pages. For a page of a pool without
fpage type, `mempool_align` moves the split point to `0xffffffff`; the two
chains then go round the whole address space and take more pages than
`fpage_table` has (`cut_invalid_length`).

Addresses and sizes are natural numbers here; `AtLeast c b n` says that the
chain for `n` bytes from `b` has `c` pages or more.
-/

namespace F9

variable {c b n k j y c' : Nat} {u v t : Nat}

/-- The chain for `n` bytes from `b` has at least `c` pages. -/
def AtLeast (c b n : Nat) : Prop :=
  ∀ fuel, n ≤ fuel → c ≤ (chainBlocks fuel (BitVec.ofNat 32 b) (BitVec.ofNat 32 n)).length

theorem AtLeast.zero (b n : Nat) : AtLeast 0 b n := fun _ _ => Nat.zero_le _

theorem AtLeast.mono (h : AtLeast c b n) (hc : c' ≤ c) : AtLeast c' b n :=
  fun fuel hf => hc.trans (h fuel hf)

theorem chainBlocks_step (fuel : Nat) (hn : n < 2 ^ 32) (hk : k ≤ 31) (hkn : 2 ^ k ≤ n)
    (hshift : chainShift (BitVec.ofNat 32 b) (BitVec.ofNat 32 n) = k) :
    chainBlocks (fuel + 1) (BitVec.ofNat 32 b) (BitVec.ofNat 32 n) =
      (BitVec.ofNat 32 b, k) ::
        chainBlocks fuel (BitVec.ofNat 32 (b + 2 ^ k)) (BitVec.ofNat 32 (n - 2 ^ k)) := by
  have hpos : 0 < 2 ^ k := Nat.two_pow_pos k
  have hk32 : 2 ^ k < 2 ^ 32 := Nat.pow_lt_pow_right (by omega) (by omega)
  have hs : BitVec.ofNat 32 n ≠ 0#32 := by
    intro h0
    have := congrArg BitVec.toNat h0
    simp at this
    omega
  have hone : 1#32 <<< k = BitVec.ofNat 32 (2 ^ k) := by
    apply BitVec.eq_of_toNat_eq
    rw [toNat_shift hk, BitVec.toNat_ofNat, Nat.mod_eq_of_lt hk32]
  have hbase : BitVec.ofNat 32 b + 1#32 <<< k = BitVec.ofNat 32 (b + 2 ^ k) := by
    rw [hone, BitVec.ofNat_add]
  have hsize : BitVec.ofNat 32 n - 1#32 <<< k = BitVec.ofNat 32 (n - 2 ^ k) := by
    apply BitVec.eq_of_toNat_eq
    rw [Arc.toNat_sub_eq, toNat_shift hk, BitVec.toNat_ofNat, BitVec.toNat_ofNat,
      Nat.mod_eq_of_lt hn, Nat.mod_eq_of_lt (by omega), if_pos hkn]
  rw [chainBlocks_succ fuel hs, hshift, hbase, hsize]

theorem AtLeast.step (hn : n < 2 ^ 32) (hk : k ≤ 31) (hkn : 2 ^ k ≤ n)
    (hshift : chainShift (BitVec.ofNat 32 b) (BitVec.ofNat 32 n) = k)
    (h : AtLeast c (b + 2 ^ k) (n - 2 ^ k)) : AtLeast (c + 1) b n := by
  intro fuel hf
  have hpos : 0 < 2 ^ k := Nat.two_pow_pos k
  obtain ⟨fuel, rfl⟩ : ∃ m, fuel = m + 1 := ⟨fuel - 1, by omega⟩
  rw [chainBlocks_step fuel hn hk hkn hshift, List.length_cons]
  exact Nat.succ_le_succ (h fuel (by omega))

theorem fpAddrLog2_eq {x : Word} (hj : j ≤ 31) (h1 : 2 ^ j ∣ x.toNat)
    (h2 : ¬ 2 ^ (j + 1) ∣ x.toNat) : fpAddrLog2 x = j := by
  have hge := le_fpAddrLog2 hj h1
  have hdvd := fpAddrLog2_dvd x
  by_contra hne
  exact h2 ((Nat.pow_dvd_pow 2 (by omega)).trans hdvd)

theorem toNat_ofNat32 (h : n < 2 ^ 32) : (BitVec.ofNat 32 n).toNat = n := by
  rw [BitVec.toNat_ofNat, Nat.mod_eq_of_lt h]

/-- A base whose lowest bit fits into the size decides. -/
theorem chainShift_of_base (hb : b < 2 ^ 32) (hn : n < 2 ^ 32) (hj : j ≤ 31) (h1 : 2 ^ j ∣ b)
    (h2 : ¬ 2 ^ (j + 1) ∣ b) (hfit : 2 ^ j ≤ n) :
    chainShift (BitVec.ofNat 32 b) (BitVec.ofNat 32 n) = j := by
  have hlog : fpAddrLog2 (BitVec.ofNat 32 b) = j := by
    refine fpAddrLog2_eq hj ?_ ?_
    · rw [toNat_ofNat32 hb]; exact h1
    · rw [toNat_ofNat32 hb]; exact h2
  unfold chainShift
  rw [hlog, if_neg]
  rw [BitVec.lt_def, toNat_shift hj, toNat_ofNat32 hn]
  omega

/-- Otherwise the lowest bit of the size decides. -/
theorem chainShift_of_size (hb : b < 2 ^ 32) (hn : n < 2 ^ 32) (hu : u ≤ 31) (hbu : 2 ^ u ∣ b)
    (hnu : n < 2 ^ u) (hj : j ≤ 31) (h1 : 2 ^ j ∣ n) (h2 : ¬ 2 ^ (j + 1) ∣ n) :
    chainShift (BitVec.ofNat 32 b) (BitVec.ofNat 32 n) = j := by
  have hlog : fpAddrLog2 (BitVec.ofNat 32 n) = j := by
    refine fpAddrLog2_eq hj ?_ ?_
    · rw [toNat_ofNat32 hn]; exact h1
    · rw [toNat_ofNat32 hn]; exact h2
  have hge : u ≤ fpAddrLog2 (BitVec.ofNat 32 b) := by
    refine le_fpAddrLog2 hu ?_
    rw [toNat_ofNat32 hb]; exact hbu
  have hle := fpAddrLog2_le (BitVec.ofNat 32 b)
  unfold chainShift
  rw [if_pos, hlog]
  rw [BitVec.lt_def, toNat_shift hle, toNat_ofNat32 hn]
  exact hnu.trans_le (Nat.pow_le_pow_right (by omega) hge)

/-! ## Climbing -/

/-- From an offset `2 ^ i` into an aligned block of `2 ^ u` bytes the chain
doubles its way up to the middle. -/
theorem AtLeast.climb (hu : u ≤ 31) (hb : b + 2 ^ u ≤ 2 ^ 32) (hbu : 2 ^ u ∣ b)
    (hy : y ≤ 2 ^ (u - 1)) : ∀ (m i : Nat), i + m = u - 1 → i < u →
    AtLeast c (b + 2 ^ (u - 1)) (2 ^ (u - 1) - y) →
    AtLeast (c + m) (b + 2 ^ i) (2 ^ u - y - 2 ^ i) := by
  intro m
  induction m with
  | zero =>
    intro i hi hiu h
    have hiu' : i = u - 1 := by omega
    have hpow := Nat.two_pow_pred_add_two_pow_pred (show 0 < u by omega)
    rw [hiu', show 2 ^ u - y - 2 ^ (u - 1) = 2 ^ (u - 1) - y by omega]
    exact h
  | succ m ih =>
    intro i hi hiu h
    have hpow := Nat.two_pow_pred_add_two_pow_pred (show 0 < u by omega)
    have hi1 : 2 ^ (i + 1) ≤ 2 ^ (u - 1) := Nat.pow_le_pow_right (by omega) (by omega)
    have hpos : 0 < 2 ^ i := Nat.two_pow_pos i
    have hdb : 2 ^ (i + 1) ∣ b := (Nat.pow_dvd_pow 2 (by omega)).trans hbu
    have hdb0 : 2 ^ i ∣ b := (Nat.pow_dvd_pow 2 (by omega)).trans hbu
    have hnot : ¬ 2 ^ (i + 1) ∣ b + 2 ^ i := by
      intro hd
      have h1 : 2 ^ (i + 1) ∣ 2 ^ i := (Nat.dvd_add_right hdb).mp hd
      exact absurd (Nat.le_of_dvd hpos h1) (by omega)
    have hrec := ih (i + 1) (by omega) (by omega) h
    refine AtLeast.step (k := i) (c := c + m) (by omega) (by omega) (by omega) ?_ ?_
    · exact chainShift_of_base (by omega) (by omega) (by omega)
        (Nat.dvd_add hdb0 (Nat.dvd_refl _)) hnot (by omega)
    · rw [show b + 2 ^ i + 2 ^ i = b + 2 ^ (i + 1) by omega,
        show 2 ^ u - y - 2 ^ i - 2 ^ i = 2 ^ u - y - 2 ^ (i + 1) by omega]
      exact hrec

/-- A size `2 ^ u - y` from an aligned base: a first page of the lowest bit `j`
of `y`, the climb to the middle, and the same again one level down. -/
theorem AtLeast.level (hu : u ≤ 31) (hb : b + 2 ^ u ≤ 2 ^ 32) (hbu : 2 ^ u ∣ b) (hju : j < u)
    (hy : y ≤ 2 ^ (u - 1)) (h1 : 2 ^ j ∣ y) (h2 : ¬ 2 ^ (j + 1) ∣ y)
    (h : AtLeast c (b + 2 ^ (u - 1)) (2 ^ (u - 1) - y)) : AtLeast (c + (u - j)) b (2 ^ u - y) := by
  have hpow := Nat.two_pow_pred_add_two_pow_pred (show 0 < u by omega)
  have hj1 : 2 ^ j ≤ 2 ^ (u - 1) := Nat.pow_le_pow_right (by omega) (by omega)
  have hy0 : 0 < y := by
    rcases Nat.eq_zero_or_pos y with rfl | hy0
    · exact absurd (Nat.dvd_zero _) h2
    · exact hy0
  have hjd : 2 ^ j ∣ 2 ^ u := Nat.pow_dvd_pow 2 (by omega)
  have hjd1 : 2 ^ (j + 1) ∣ 2 ^ u := Nat.pow_dvd_pow 2 (by omega)
  have hclimb := AtLeast.climb hu hb hbu hy (u - 1 - j) j (by omega) hju h
  rw [show c + (u - j) = c + (u - 1 - j) + 1 by omega]
  refine AtLeast.step (k := j) (by omega) (by omega) (by omega) ?_ hclimb
  refine chainShift_of_size (by omega) (by omega) hu hbu (by omega) (by omega)
    (Nat.dvd_sub hjd h1) ?_
  intro hd
  have : 2 ^ (j + 1) ∣ 2 ^ u - (2 ^ u - y) := Nat.dvd_sub hjd1 hd
  rw [show 2 ^ u - (2 ^ u - y) = y by omega] at this
  exact h2 this

/-- The pages of the levels `v + 1 .. u`. -/
def levelSum (j v : Nat) : Nat → Nat
  | 0 => 0
  | u + 1 => if v ≤ u then levelSum j v u + (u + 1 - j) else 0

theorem AtLeast.levels (hjv : j ≤ v) (hy : y ≤ 2 ^ v) (h1 : 2 ^ j ∣ y) (h2 : ¬ 2 ^ (j + 1) ∣ y)
    (u b : Nat) (hu : u ≤ 31) (hb : b + 2 ^ u ≤ 2 ^ 32) (hbu : 2 ^ u ∣ b) :
    AtLeast (levelSum j v u) b (2 ^ u - y) := by
  induction u generalizing b with
  | zero => exact .zero _ _
  | succ u ih =>
    by_cases hv : v ≤ u
    · have hyu : y ≤ 2 ^ (u + 1 - 1) := hy.trans (Nat.pow_le_pow_right (by omega) hv)
      have hbu' : 2 ^ u ∣ b + 2 ^ u :=
        Nat.dvd_add ((Nat.pow_dvd_pow 2 (by omega)).trans hbu) (Nat.dvd_refl _)
      have hrec := ih (b + 2 ^ u) (by omega) (by omega) hbu'
      rw [levelSum, if_pos hv]
      exact AtLeast.level hu hb hbu (by omega) hyu h1 h2 hrec
    · rw [levelSum, if_neg hv]
      exact .zero _ _

/-- Up to the next power of two below the end of the address space, each page
clears the lowest bit of the distance `z` to it. -/
theorem AtLeast.toTop (h : AtLeast c (2 ^ 32 - 2 ^ t) (2 ^ t - 1)) :
    ∀ z, 2 ^ t ≤ z → z < 2 ^ (t + 1) → z < 2 ^ 32 → AtLeast c (2 ^ 32 - z) (z - 1) := by
  intro z
  induction z using Nat.strong_induction_on with
  | _ z ih =>
    intro hlo hhi hz
    rcases Nat.eq_or_lt_of_le hlo with rfl | hlt
    · exact h
    · have hb : 2 ^ 32 - z < 2 ^ 32 := by omega
      have hbnat := toNat_ofNat32 hb
      have hm := fpAddrLog2_le (BitVec.ofNat 32 (2 ^ 32 - z))
      have hd := fpAddrLog2_dvd (BitVec.ofNat 32 (2 ^ 32 - z))
      generalize hmv : fpAddrLog2 (BitVec.ofNat 32 (2 ^ 32 - z)) = m at hm hd
      rw [hbnat] at hd
      have hd32 : 2 ^ m ∣ 2 ^ 32 := Nat.pow_dvd_pow 2 (by omega)
      have hdz : 2 ^ m ∣ z := by
        have := Nat.dvd_sub hd32 hd
        rwa [show 2 ^ 32 - (2 ^ 32 - z) = z by omega] at this
      -- the lowest bit lies below the highest one
      have hmt : 2 ^ m ≤ z - 2 ^ t := by
        refine Nat.le_of_dvd (by omega) (Nat.dvd_sub hdz (Nat.pow_dvd_pow 2 ?_))
        by_contra hmt
        have h1 : 2 ^ (t + 1) ∣ 2 ^ m := Nat.pow_dvd_pow 2 (by omega)
        exact absurd (Nat.le_of_dvd (by omega) (h1.trans hdz)) (by omega)
      have hshift : chainShift (BitVec.ofNat 32 (2 ^ 32 - z)) (BitVec.ofNat 32 (z - 1)) = m := by
        unfold chainShift
        rw [hmv, if_neg]
        rw [BitVec.lt_def, toNat_shift hm, toNat_ofNat32 (by omega)]
        omega
      have hrec := ih (z - 2 ^ m) (by omega) (by omega) (by omega) (by omega)
      rw [show 2 ^ 32 - (z - 2 ^ m) = 2 ^ 32 - z + 2 ^ m by omega,
        show z - 2 ^ m - 1 = z - 1 - 2 ^ m by omega] at hrec
      exact (AtLeast.step (by omega) hm (by omega) hshift hrec).mono (by omega)

/-- The chain from `2 ^ 32 - z` to `0xffffffff`. -/
theorem atLeast_left {z : Nat} (ht : t ≤ 31) (hlo : 2 ^ t ≤ z) (hhi : z < 2 ^ (t + 1))
    (hz : z < 2 ^ 32) : AtLeast (levelSum 0 0 t) (2 ^ 32 - z) (z - 1) := by
  refine AtLeast.toTop (AtLeast.levels (Nat.le_refl 0) (Nat.le_refl _) (by simp) (by simp)
    t (2 ^ 32 - 2 ^ t) ht (by omega) ?_) z hlo hhi hz
  exact Nat.dvd_sub (Nat.pow_dvd_pow 2 (by omega)) (Nat.dvd_refl _)

/-- The chain of `0xffffffff` and `[0, 2 ^ 32 - y)`, `y` below half of the
address space. -/
theorem atLeast_right (hjv : j ≤ v) (hv : y ≤ 2 ^ v) (hy1 : 1 < y) (hy : y < 2 ^ 31)
    (h1 : 2 ^ j ∣ y) (h2 : ¬ 2 ^ (j + 1) ∣ y) :
    AtLeast (levelSum j v 31 + 2) (2 ^ 32 - 1) (2 ^ 32 - y + 1) := by
  have hup := AtLeast.levels hjv hv h1 h2 31 (2 ^ 31) (by omega) (by omega) (Nat.dvd_refl _)
  -- the lower half is one page, the byte at the top another
  have hhalf : AtLeast (levelSum j v 31 + 1) (2 ^ 32) (2 ^ 32 - y) := by
    have hstep : AtLeast (levelSum j v 31 + 1) 0 (2 ^ 32 - y) := by
      refine AtLeast.step (k := 31) (by omega) (by omega) (by omega) ?_ ?_
      · unfold chainShift
        rw [show fpAddrLog2 (BitVec.ofNat 32 0) = 31 by decide, if_neg]
        rw [BitVec.lt_def, toNat_shift (by omega), toNat_ofNat32 (by omega)]
        omega
      · rw [Nat.zero_add, show 2 ^ 32 - y - 2 ^ 31 = 2 ^ 31 - y by omega]
        exact hup
    intro fuel hf
    exact hstep fuel hf
  refine AtLeast.step (k := 0) (c := levelSum j v 31 + 1) (by omega) (by omega) (by omega)
    ?_ ?_
  · exact chainShift_of_base (by omega) (by omega) (by omega) (by simp) (by omega) (by omega)
  · exact hhalf

theorem levelSum_total : ∀ t ∈ List.range 31, ∀ j ∈ List.range (t + 1),
    256 ≤ levelSum 0 0 t + (levelSum j (t + 1) 31 + 2) := by
  decide

theorem levelSum_half : 256 ≤ levelSum 0 0 31 := by decide

/-- A page `[b, b + 2 ^ k)` below the end of the address space, cut at
`0xffffffff`: more pages than the table has. -/
theorem cut_invalid_length (hk : 8 ≤ k) (hb : 2 ^ k ∣ b) (hend : b + 2 ^ k < 2 ^ 32) :
    ∃ c1 c2, AtLeast c1 b (2 ^ 32 - 1 - b) ∧ AtLeast c2 (2 ^ 32 - 1) (b + 2 ^ k + 1) ∧
      256 ≤ c1 + c2 := by
  have hk256 : 2 ^ 8 ≤ 2 ^ k := Nat.pow_le_pow_right (by omega) hk
  -- `z` bytes from `b` to the end of the address space, `y` of them after the page
  obtain ⟨z, hz⟩ : ∃ z, z = 2 ^ 32 - b := ⟨_, rfl⟩
  obtain ⟨y, hy⟩ : ∃ y, y = z - 2 ^ k := ⟨_, rfl⟩
  have hk32 : k < 32 := by
    by_contra h
    have : 2 ^ 32 ≤ 2 ^ k := Nat.pow_le_pow_right (by omega) (by omega)
    omega
  rcases Nat.eq_zero_or_pos b with hb0 | hb0
  · -- from 0, the left chain has a page for the lower half and then 31 levels
    subst hb0
    refine ⟨levelSum 0 0 31 + 1, 0, ?_, .zero _ _, ?_⟩
    · have hl := atLeast_left (t := 31) (z := 2 ^ 31) (by omega) (by omega) (by omega) (by omega)
      refine AtLeast.step (k := 31) (c := levelSum 0 0 31) (by omega) (by omega) (by omega) ?_ ?_
      · decide
      · exact hl
    · have := levelSum_half
      omega
  · -- the position of the highest bit of `z`
    obtain ⟨t, ht⟩ : ∃ t, t = Nat.log2 z := ⟨_, rfl⟩
    have hz0 : z ≠ 0 := by omega
    have hlo : 2 ^ t ≤ z := by rw [ht]; exact Nat.log2_self_le hz0
    have hhi : z < 2 ^ (t + 1) := by rw [ht]; exact Nat.lt_log2_self
    have ht31 : t ≤ 31 := by
      by_contra h
      have : 2 ^ 32 ≤ 2 ^ t := Nat.pow_le_pow_right (by omega) (by omega)
      omega
    have hleft := atLeast_left ht31 hlo hhi (by omega)
    rw [show 2 ^ 32 - z = b by omega, show z - 1 = 2 ^ 32 - 1 - b by omega] at hleft
    rcases Nat.eq_or_lt_of_le ht31 with rfl | ht30
    · exact ⟨_, 0, hleft, .zero _ _, levelSum_half⟩
    · have hz31 : 2 ^ (t + 1) ≤ 2 ^ 31 := Nat.pow_le_pow_right (by omega) (by omega)
      have hy0 : y < 2 ^ 32 := by omega
      -- the lowest bit of `y`
      have hj := fpAddrLog2_le (BitVec.ofNat 32 y)
      have hjd := fpAddrLog2_dvd (BitVec.ofNat 32 y)
      have hjn : ∀ i, i ≤ 31 → 2 ^ i ∣ y → i ≤ fpAddrLog2 (BitVec.ofNat 32 y) := by
        intro i hi hd
        exact le_fpAddrLog2 hi (by rw [toNat_ofNat32 hy0]; exact hd)
      rw [toNat_ofNat32 hy0] at hjd
      generalize fpAddrLog2 (BitVec.ofNat 32 y) = j at hj hjd hjn
      have hypos : 0 < y := by omega
      have hyk : 2 ^ k ∣ y := by
        have : 2 ^ k ∣ 2 ^ 32 := Nat.pow_dvd_pow 2 (by omega)
        rw [hy, hz]
        exact Nat.dvd_sub (Nat.dvd_sub this hb) (Nat.dvd_refl _)
      have hyge := Nat.le_of_dvd hypos hyk
      have hjt : j ≤ t := by
        by_contra h
        have h1 : 2 ^ (t + 1) ≤ 2 ^ j := Nat.pow_le_pow_right (by omega) (by omega)
        have h2 := Nat.le_of_dvd hypos hjd
        omega
      have hright := atLeast_right (j := j) (y := y) (v := t + 1) (by omega) (by omega)
        (by omega) (by omega) hjd (fun hd => absurd (hjn (j + 1) (by omega) hd) (by omega))
      rw [show 2 ^ 32 - y + 1 = b + 2 ^ k + 1 by omega] at hright
      exact ⟨_, _, hleft, hright, levelSum_total t (List.mem_range.mpr (by omega)) j
        (List.mem_range.mpr (by omega))⟩

end F9
