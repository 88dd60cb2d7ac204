import F9.Lib.Dyadic
import F9.Logic.Room
import F9.Logic.Steps

/-!
# How few pages `create_fpage_chain` creates

Up to the most aligned address of the range the loop takes the largest block at each place, which
no tiling can better. Behind it the loop goes by the lowest bit of the size, and begins with the
smallest block: `create_fpage_chain_minimal` says that the chain is a shortest one if and only if
what is left there is a single block, or nothing.
-/

namespace F9

open Dyadic Linked

/-- What the range holds behind its most aligned address is empty or a power of two. -/
def PowerTail (lo hi : Nat) : Prop :=
  hi % 2 ^ joint 31 lo hi = 0 ∨ ∃ k, hi % 2 ^ joint 31 lo hi = 2 ^ k

/-- The exponents of the blocks the loop cuts. -/
def chainExps (fuel b n : Nat) : List Nat :=
  (chainBlocks fuel (BitVec.ofNat 32 b) (BitVec.ofNat 32 n)).map Prod.snd

theorem chainExps_zero (fuel b : Nat) : chainExps fuel b 0 = [] := by
  unfold chainExps
  rw [show BitVec.ofNat 32 0 = 0#32 from rfl, chainBlocks_zero]
  rfl

/-- The next block, by the alignment `u` of the base: `2 ^ u` bytes if there are so many left, and
otherwise the lowest bit of the size. -/
theorem chainExps_cases {b n : Nat} (hb : b < 2 ^ 32) (hn : n < 2 ^ 32) (hpos : 0 < n) :
    ∃ u ≤ 31, 2 ^ u ∣ b ∧ (u < 31 → ¬ 2 ^ (u + 1) ∣ b) ∧
      ((2 ^ u ≤ n ∧ ∀ fuel, chainExps (fuel + 1) b n =
          u :: chainExps fuel (b + 2 ^ u) (n - 2 ^ u)) ∨
        (n < 2 ^ u ∧ ∃ k < u, 2 ^ k ∣ n ∧ ¬ 2 ^ (k + 1) ∣ n ∧ ∀ fuel, chainExps (fuel + 1) b n =
          k :: chainExps fuel (b + 2 ^ k) (n - 2 ^ k))) := by
  have hbn : (BitVec.ofNat 32 b).toNat = b := toNat_ofNat32 hb
  have hnn : (BitVec.ofNat 32 n).toNat = n := toNat_ofNat32 hn
  have hlog : ∀ x : Word, fpAddrLog2 x < 31 → ¬ 2 ^ (fpAddrLog2 x + 1) ∣ x.toNat := by
    intro x hlt hdvd
    have := le_fpAddrLog2 (by omega) hdvd
    omega
  have hu := fpAddrLog2_le (BitVec.ofNat 32 b)
  have hdvd := fpAddrLog2_dvd (BitVec.ofNat 32 b)
  have hnot := hlog (BitVec.ofNat 32 b)
  have hshift : chainShift (BitVec.ofNat 32 b) (BitVec.ofNat 32 n) =
      if n < 2 ^ fpAddrLog2 (BitVec.ofNat 32 b) then fpAddrLog2 (BitVec.ofNat 32 n)
      else fpAddrLog2 (BitVec.ofNat 32 b) := by
    have hiff : BitVec.ofNat 32 n < 1#32 <<< fpAddrLog2 (BitVec.ofNat 32 b) ↔
        n < 2 ^ fpAddrLog2 (BitVec.ofNat 32 b) := by
      rw [BitVec.lt_def, toNat_shift hu, hnn]
    unfold chainShift
    simp only [hiff]
  have hstep : ∀ k ≤ 31, 2 ^ k ≤ n → chainShift (BitVec.ofNat 32 b) (BitVec.ofNat 32 n) = k →
      ∀ fuel, chainExps (fuel + 1) b n = k :: chainExps fuel (b + 2 ^ k) (n - 2 ^ k) := by
    intro k hk hkn hs fuel
    unfold chainExps
    rw [chainBlocks_step fuel hn hk hkn hs]
    rfl
  rw [hbn] at hdvd hnot
  refine ⟨_, hu, hdvd, hnot, ?_⟩
  by_cases hlt : n < 2 ^ fpAddrLog2 (BitVec.ofNat 32 b)
  · rw [if_pos hlt] at hshift
    have hk := fpAddrLog2_le (BitVec.ofNat 32 n)
    have hkn := fpAddrLog2_dvd (BitVec.ofNat 32 n)
    have hknot := hlog (BitVec.ofNat 32 n)
    rw [hnn] at hkn hknot
    have hle := Nat.le_of_dvd hpos hkn
    refine .inr ⟨hlt, _, (Nat.pow_lt_pow_iff_right (by omega)).mp (Nat.lt_of_le_of_lt hle hlt), hkn,
      fun hd => ?_, hstep _ hk hle hshift⟩
    rcases Nat.lt_or_ge (fpAddrLog2 (BitVec.ofNat 32 n)) 31 with hlt31 | hge
    · exact hknot hlt31 hd
    · have := Nat.le_of_dvd hpos hd
      have : 2 ^ 32 ≤ 2 ^ (fpAddrLog2 (BitVec.ofNat 32 n) + 1) :=
        Nat.pow_le_pow_right (by omega) (by omega)
      omega
  · rw [if_neg hlt] at hshift
    exact .inl ⟨Nat.le_of_not_lt hlt, hstep _ hu (Nat.le_of_not_lt hlt) hshift⟩

theorem chainExps_run : ∀ (fuel b n : Nat), n ≤ fuel → b + n ≤ 2 ^ 32 → n < 2 ^ 32 →
    Run (b + n) b (chainExps fuel b n) := by
  intro fuel b n hn hfit hlt
  rcases Nat.eq_zero_or_pos n with rfl | hpos
  · rw [chainExps_zero]
    exact .nil
  cases fuel with
  | zero => omega
  | succ fuel =>
    have hrest : ∀ k, 2 ^ k ≤ n →
        Run (b + n) (b + 2 ^ k) (chainExps fuel (b + 2 ^ k) (n - 2 ^ k)) := by
      intro k hk
      have hk0 := Nat.two_pow_pos k
      have h := chainExps_run fuel (b + 2 ^ k) (n - 2 ^ k) (by omega) (by omega) (by omega)
      rwa [show b + 2 ^ k + (n - 2 ^ k) = b + n by omega] at h
    obtain ⟨u, _, hdvd, _, ⟨hle, hstep⟩ | ⟨_, k, hku, hkn, _, hstep⟩⟩ :=
      chainExps_cases (show b < 2 ^ 32 by omega) hlt hpos
    · rw [hstep]
      exact .cons hdvd (hrest u hle)
    · rw [hstep]
      exact .cons (Nat.dvd_trans (Nat.pow_dvd_pow 2 hku.le) hdvd)
        (hrest k (Nat.le_of_dvd hpos hkn))

/-- With nothing or a single block behind the most aligned address, every block is the largest. -/
theorem chainExps_greedy : ∀ (fuel b n : Nat), n ≤ fuel → b + n ≤ 2 ^ 32 → n < 2 ^ 32 →
    PowerTail b (b + n) → Greedy (b + n) b (chainExps fuel b n) := by
  intro fuel b n hn hfit hlt htail
  rcases Nat.eq_zero_or_pos n with rfl | hpos
  · rw [chainExps_zero]
    exact .nil
  cases fuel with
  | zero => omega
  | succ fuel =>
    obtain ⟨u, hu, hdvd, hnot, ⟨hle, hstep⟩ | ⟨hless, k, hku, hkn, hknot, hstep⟩⟩ :=
      chainExps_cases (show b < 2 ^ 32 by omega) hlt hpos
    · have hend : b + 2 ^ u + (n - 2 ^ u) = b + n := by omega
      rw [hstep]
      refine .cons hdvd (by omega) (fun j hj hjn => ?_) ?_
      · by_contra hgt
        have hju : u < j := Nat.lt_of_not_le hgt
        rcases Nat.lt_or_ge u 31 with hlt31 | hge
        · exact hnot hlt31 (Nat.dvd_trans (Nat.pow_dvd_pow 2 hju) hj)
        · have : 2 ^ 32 ≤ 2 ^ j := Nat.pow_le_pow_right (by omega) (by omega)
          omega
      · have h := chainExps_greedy fuel (b + 2 ^ u) (n - 2 ^ u) (by omega) (by omega) (by omega) (by
          unfold PowerTail at htail ⊢
          rw [hend, joint_step hdvd hnot (by omega)]
          exact htail)
        rwa [hend] at h
    · obtain ⟨hjoint, hmod⟩ := joint_last hu hdvd hnot hless
      unfold PowerTail at htail
      rw [hjoint, hmod] at htail
      -- the rest is one block
      obtain ⟨i, rfl⟩ : ∃ i, n = 2 ^ i := htail.resolve_left (by omega)
      have hik : k = i := by
        have h1 : k ≤ i := (Nat.pow_dvd_pow_iff_le_right (by omega)).mp hkn
        by_contra hne
        exact hknot (Nat.pow_dvd_pow 2 (by omega))
      subst hik
      rw [hstep, Nat.sub_self, chainExps_zero]
      refine .cons (Nat.dvd_trans (Nat.pow_dvd_pow 2 hku.le) hdvd) (Nat.le_refl _)
        (fun j _ hj => ?_) .nil
      exact (Nat.pow_le_pow_iff_right (by omega)).mp (Nat.le_of_add_le_add_left hj)

theorem powerTail_self (e : Nat) : PowerTail e e := by
  left
  have hle := joint_spec 31 (Nat.le_refl e)
  have hmod := Nat.div_add_mod' e (2 ^ joint 31 e e)
  omega

/-- Otherwise the first two blocks behind the most aligned address are halves of one block. -/
theorem chainExps_better : ∀ (fuel b n : Nat), n ≤ fuel → b + n ≤ 2 ^ 32 → n < 2 ^ 32 →
    ¬ PowerTail b (b + n) →
    ∃ l, Run (b + n) b l ∧ l.length < (chainExps fuel b n).length := by
  intro fuel b n hn hfit hlt htail
  rcases Nat.eq_zero_or_pos n with rfl | hpos
  · exact absurd (powerTail_self b) htail
  cases fuel with
  | zero => omega
  | succ fuel =>
    obtain ⟨u, hu, hdvd, hnot, ⟨hle, hstep⟩ | ⟨hless, k, hku, hkn, hknot, hstep⟩⟩ :=
      chainExps_cases (show b < 2 ^ 32 by omega) hlt hpos
    · have hend : b + 2 ^ u + (n - 2 ^ u) = b + n := by omega
      obtain ⟨l, hl, hlen⟩ := chainExps_better fuel (b + 2 ^ u) (n - 2 ^ u) (by omega) (by omega)
        (by omega) (by
          unfold PowerTail at htail ⊢
          rw [hend, joint_step hdvd hnot (by omega)]
          exact htail)
      rw [hend] at hl
      refine ⟨u :: l, .cons hdvd hl, ?_⟩
      rw [hstep]
      exact Nat.succ_lt_succ hlen
    · obtain ⟨hjoint, hmod⟩ := joint_last hu hdvd hnot hless
      unfold PowerTail at htail
      rw [hjoint, hmod, not_or] at htail
      have hne : n ≠ 2 ^ k := fun heq => htail.2 ⟨k, heq⟩
      have hk0 := Nat.two_pow_pos k
      have hk : k ≤ 31 := by omega
      have hdk : 2 ^ (k + 1) ∣ b := Nat.dvd_trans (Nat.pow_dvd_pow 2 hku) hdvd
      -- more than two of the smallest block are left
      have hmore : 2 ^ (k + 1) ≤ n := by
        have := add_le_of_dvd (Nat.dvd_refl (2 ^ k)) hkn
          (Nat.lt_of_le_of_ne (Nat.le_of_dvd hpos hkn) hne.symm)
        omega
      -- the second block has the size of the first
      have hsecond : ∀ fuel, chainExps (fuel + 1) (b + 2 ^ k) (n - 2 ^ k) =
          k :: chainExps fuel (b + 2 ^ (k + 1)) (n - 2 ^ (k + 1)) := by
        intro fuel
        have hnot2 : ¬ 2 ^ (k + 1) ∣ b + 2 ^ k := by
          intro hd
          have := Nat.le_of_dvd hk0 ((Nat.dvd_add_right hdk).mp hd)
          omega
        unfold chainExps
        rw [chainBlocks_step fuel (by omega) hk (by omega) (chainShift_of_base (by omega) (by omega)
          hk (Nat.dvd_add (Nat.dvd_trans (Nat.pow_dvd_pow 2 (Nat.le_succ k)) hdk)
            (Nat.dvd_refl _)) hnot2 (by omega)),
          show b + 2 ^ k + 2 ^ k = b + 2 ^ (k + 1) by omega,
          show n - 2 ^ k - 2 ^ k = n - 2 ^ (k + 1) by omega]
        rfl
      obtain ⟨fuel, rfl⟩ : ∃ m, fuel = m + 1 := ⟨fuel - 1, by omega⟩
      have hrun := chainExps_run fuel (b + 2 ^ (k + 1)) (n - 2 ^ (k + 1)) (by omega) (by omega)
        (by omega)
      rw [show b + 2 ^ (k + 1) + (n - 2 ^ (k + 1)) = b + n by omega] at hrun
      refine ⟨(k + 1) :: chainExps fuel (b + 2 ^ (k + 1)) (n - 2 ^ (k + 1)), .cons hdk hrun, ?_⟩
      rw [hstep, hsecond]
      simp

/-- The chain of `create_fpage_chain` has as few pages as any tiling of its range by aligned powers
of two, if and only if the range has at most one block behind its most aligned address. -/
theorem create_fpage_chain_minimal (mm : Memmap) (s : Kernel) (mpid : Nat) {base size : Word}
    (plast : Option FpRef) (hfit : base.toNat + size.toNat ≤ 2 ^ 32)
    (hroom : (chainBlocks size.toNat base size).length ≤ s.room) :
    ∃ c pl s', createFpageChain mm s base size mpid none plast = .ok (c.head?, pl, s') ∧
      Chain s'.asNext c.head? c ∧
      ((∀ T, Tiling T base.toNat (base.toNat + size.toNat) → c.length ≤ T.card) ↔
        PowerTail base.toNat (base.toNat + size.toNat)) := by
  obtain ⟨pf, pl, s', hrun, _⟩ := createFpageChain_total mm mpid plast hroom
  obtain ⟨c, hb, rfl, _⟩ := createFpageChain_new hrun
  refine ⟨c, pl, s', hrun, hb.chain, ?_⟩
  have hlen : c.length = (chainExps size.toNat base.toNat size.toNat).length := by
    unfold chainExps
    rw [BitVec.ofNat_toNat, BitVec.ofNat_toNat, BitVec.setWidth_eq, BitVec.setWidth_eq,
      List.length_map, hb.pages.length_eq]
  rw [hlen]
  constructor
  · intro hmin
    by_contra htail
    obtain ⟨l, hl, hless⟩ := chainExps_better _ _ _ (Nat.le_refl _) hfit size.isLt htail
    obtain ⟨T, hT, hcard⟩ := hl.tiling
    have := hmin T hT
    omega
  · intro htail T hT
    exact (chainExps_greedy _ _ _ (Nat.le_refl _) hfit size.isLt htail).length_le hT

/-- 768 bytes from an odd multiple of 256: pages of 256 and 512 bytes. -/
theorem create_fpage_chain_minimal_two :
    PowerTail 0x20008100 (0x20008100 + 0x300) ∧
    ∃ c pl s', createFpageChain (memmap stm32f4Board) (emptyKernel fun _ => false) 0x20008100#32
        0x300#32 7 none none = .ok (c.head?, pl, s') ∧ Chain s'.asNext c.head? c ∧
      ∀ T, Tiling T 0x20008100 (0x20008100 + 0x300) → c.length ≤ T.card := by
  have htail : PowerTail 0x20008100 (0x20008100 + 0x300) := .inl (by decide +kernel)
  obtain ⟨c, pl, s', hrun, hc, hiff⟩ := @create_fpage_chain_minimal (memmap stm32f4Board)
    (emptyKernel fun _ => false) 7 0x20008100#32 0x300#32 none (by decide) (by decide +kernel)
  exact ⟨htail, c, pl, s', hrun, hc, hiff.mpr htail⟩

/-- 768 bytes from a multiple of 1024: three pages of 256 bytes, where one of 512 and one of 256
would do. -/
theorem create_fpage_chain_three :
    (∃ c pl s', createFpageChain (memmap stm32f4Board) (emptyKernel fun _ => false) 0x20008000#32
        0x300#32 7 none none = .ok (c.head?, pl, s') ∧ Chain s'.asNext c.head? c ∧
      c.length = 3) ∧
    ∃ T, Tiling T 0x20008000 (0x20008000 + 0x300) ∧ T.card = 2 := by
  refine ⟨?_, ?_⟩
  · have hroom : (chainBlocks (0x300#32).toNat 0x20008000#32 0x300#32).length ≤
        (emptyKernel fun _ => false).room := by decide +kernel
    obtain ⟨pf, pl, s', hrun, _⟩ := createFpageChain_total (memmap stm32f4Board) 7 none hroom
    obtain ⟨c, hb, rfl, _⟩ := createFpageChain_new hrun
    have hlen : c.length = (chainBlocks 0x300 0x20008000#32 0x300#32).length := hb.pages.length_eq
    exact ⟨c, pl, s', hrun, hb.chain, hlen.trans (by decide +kernel)⟩
  · have hrun : Run (0x20008000 + 0x300) 0x20008000 [9, 8] :=
      .cons (by decide) (.cons (by decide) .nil)
    exact hrun.tiling

end F9
