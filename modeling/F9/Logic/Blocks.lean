import F9.Kernel.Fpage
import F9.Lib.Arc

/-!
# Rounding and cutting into blocks

The arithmetic under the fpage code. `fp_addr_log2` is the number of trailing
zeros, so `chainShift` picks an aligned block that fits, and the blocks that
`create_fpage_chain` cuts (`chainBlocks`) tile the arc of the request,
whatever its base and size; `addr_align` rounds up to the 256-byte grain.
-/

namespace F9

open Arc

variable {j k : Nat} {base size : Word}

/-! ## `fp_addr_log2` -/

/-- The loop counts the shifts that leave a bit standing. -/
theorem fpAddrLog2Loop_spec (n : Nat) (x : Word) (sh : Nat) :
    ∃ c ≤ n, fpAddrLog2Loop n x sh = sh + c ∧ (c < n → x <<< (c + 1) = 0#32) ∧
      ∀ i, 1 ≤ i → i ≤ c → x <<< i ≠ 0#32 := by
  induction n generalizing x sh with
  | zero =>
    refine ⟨0, Nat.le_refl 0, rfl, fun h => absurd h (by omega), ?_⟩
    intro i h1 h2
    omega
  | succ n ih =>
    unfold fpAddrLog2Loop
    split
    · rename_i hne
      obtain ⟨c, hc, heq, hz, hnz⟩ := ih (x <<< 1) (sh + 1)
      refine ⟨c + 1, by omega, by omega, ?_, ?_⟩
      · intro h
        have := hz (by omega)
        rw [← BitVec.shiftLeft_add, Nat.add_comm 1 (c + 1)] at this
        exact this
      · intro i h1 h2
        by_cases hi : i = 1
        · rw [hi]; exact hne
        · have := hnz (i - 1) (by omega) (by omega)
          rw [← BitVec.shiftLeft_add] at this
          rwa [show 1 + (i - 1) = i by omega] at this
    · rename_i hz
      refine ⟨0, by omega, rfl, fun _ => by simpa using hz, ?_⟩
      intro i h1 h2
      omega

theorem shiftLeft_eq_zero_iff (x : Word) (hj : j ≤ 32) :
    x <<< j = 0#32 ↔ 2 ^ (32 - j) ∣ x.toNat := by
  have hpow : 2 ^ 32 = 2 ^ (32 - j) * 2 ^ j := by
    rw [← Nat.pow_add]
    congr 1
    omega
  have htn : (x <<< j).toNat = x.toNat * 2 ^ j % 2 ^ 32 := by
    rw [BitVec.toNat_shiftLeft, Nat.shiftLeft_eq]
  constructor
  · intro h
    rw [h] at htn
    have hdvd : 2 ^ 32 ∣ x.toNat * 2 ^ j := Nat.dvd_of_mod_eq_zero htn.symm
    rw [hpow] at hdvd
    exact Nat.dvd_of_mul_dvd_mul_right (Nat.two_pow_pos j) hdvd
  · intro h
    apply BitVec.eq_of_toNat_eq
    rw [htn, hpow]
    exact Nat.mod_eq_zero_of_dvd (Nat.mul_dvd_mul_right h (2 ^ j))

theorem fpAddrLog2_le (x : Word) : fpAddrLog2 x ≤ 31 := by
  unfold fpAddrLog2
  omega

/-- `fp_addr_log2` never exceeds the trailing zeros ... -/
theorem fpAddrLog2_dvd (x : Word) : 2 ^ fpAddrLog2 x ∣ x.toNat := by
  obtain ⟨c, hc, heq, hz, hnz⟩ := fpAddrLog2Loop_spec 32 x 0
  have hlt : c < 32 := by
    rcases Nat.lt_or_ge c 32 with h | h
    · exact h
    · exact absurd (BitVec.shiftLeft_eq_zero (Nat.le_refl 32)) (hnz 32 (by omega) h)
  have hshift := (shiftLeft_eq_zero_iff x (by omega)).mp (hz hlt)
  unfold fpAddrLog2
  rw [heq, Nat.zero_add]
  rwa [show 32 - (c + 1) = 31 - c by omega] at hshift

/-- ... and reaches them. -/
theorem le_fpAddrLog2 {x : Word} (hj : j ≤ 31) (h : 2 ^ j ∣ x.toNat) : j ≤ fpAddrLog2 x := by
  obtain ⟨c, hc, heq, hz, hnz⟩ := fpAddrLog2Loop_spec 32 x 0
  have hshift : x <<< (32 - j) = 0#32 := by
    rw [shiftLeft_eq_zero_iff x (by omega)]
    rwa [show 32 - (32 - j) = j by omega]
  unfold fpAddrLog2
  rcases Nat.lt_or_ge c (32 - j) with h' | h'
  · omega
  · exact absurd hshift (hnz (32 - j) (by omega) h')

/-! ## `chainShift` -/

theorem toNat_shift (hk : k ≤ 31) : (1#32 <<< k).toNat = 2 ^ k :=
  toNat_one_shiftLeft (by omega)

theorem chainShift_le (base size : Word) : chainShift base size ≤ 31 := by
  unfold chainShift
  split
  · exact fpAddrLog2_le size
  · exact fpAddrLog2_le base

theorem chainShift_fits (hs : size ≠ 0#32) : 2 ^ chainShift base size ≤ size.toNat := by
  unfold chainShift
  split
  · refine Nat.le_of_dvd ?_ (fpAddrLog2_dvd size)
    rcases Nat.eq_zero_or_pos size.toNat with h | h
    · exact absurd (BitVec.eq_of_toNat_eq (by simpa using h)) hs
    · exact h
  · rename_i h
    rw [BitVec.lt_def, toNat_shift (fpAddrLog2_le base)] at h
    omega

theorem chainShift_aligned (hs : size ≠ 0#32) : 2 ^ chainShift base size ∣ base.toNat := by
  have hfit : 2 ^ chainShift base size ≤ size.toNat := chainShift_fits hs
  unfold chainShift at hfit ⊢
  split
  · rename_i h
    rw [if_pos h] at hfit
    rw [BitVec.lt_def, toNat_shift (fpAddrLog2_le base)] at h
    have hlt : 2 ^ fpAddrLog2 size < 2 ^ fpAddrLog2 base := by omega
    have := (Nat.pow_lt_pow_iff_right (by omega)).mp hlt
    exact (Nat.pow_dvd_pow 2 (by omega)).trans (fpAddrLog2_dvd base)
  · exact fpAddrLog2_dvd base

/-- A common power of two of base and size bounds the block from below. -/
theorem le_chainShift (hj : j ≤ 31) (hb : 2 ^ j ∣ base.toNat) (hsz : 2 ^ j ∣ size.toNat) :
    j ≤ chainShift base size := by
  unfold chainShift
  split
  · exact le_fpAddrLog2 hj hsz
  · exact le_fpAddrLog2 hj hb

/-! ## The blocks of a chain -/

/-- The blocks `create_fpage_chain` cuts, with its step budget. -/
def chainBlocks : Nat → Word → Word → List (Word × Nat)
  | n, base, size =>
    if size = 0#32 then []
    else match n with
    | 0 => []
    | n + 1 =>
      let shift := chainShift base size
      (base, shift) :: chainBlocks n (base + 1#32 <<< shift) (size - 1#32 <<< shift)

theorem chainBlocks_zero (n : Nat) (base : Word) : chainBlocks n base 0#32 = [] := by
  cases n <;> simp [chainBlocks]

theorem chainBlocks_succ (n : Nat) (hs : size ≠ 0#32) :
    chainBlocks (n + 1) base size = (base, chainShift base size) ::
      chainBlocks n (base + 1#32 <<< chainShift base size)
        (size - 1#32 <<< chainShift base size) := by
  rw [chainBlocks]
  simp [hs]

theorem chainShift_rest (hs : size ≠ 0#32) :
    (size - 1#32 <<< chainShift base size).toNat =
      size.toNat - 2 ^ chainShift base size := by
  have hk := chainShift_le base size
  rw [toNat_sub_eq, toNat_shift hk, if_pos (chainShift_fits hs)]

/-- The blocks tile the arc of the request. -/
theorem chainBlocks_tiles (n : Nat) (base size : Word) (h : size.toNat ≤ n) :
    Tiles base size (chainBlocks n base size) := by
  induction n generalizing base size with
  | zero =>
    have hz : size = 0#32 := BitVec.eq_of_toNat_eq (by simpa using h)
    subst hz
    exact .nil
  | succ n ih =>
    by_cases hs : size = 0#32
    · subst hs
      exact .nil
    · rw [chainBlocks_succ n hs]
      have hk := chainShift_le base size
      refine .cons (by omega) (chainShift_aligned hs) (chainShift_fits hs) (ih _ _ ?_)
      rw [chainShift_rest hs]
      have : 0 < 2 ^ chainShift base size := Nat.two_pow_pos _
      omega

/-- Blocks of an aligned request are at least as large as its grain. -/
theorem chainBlocks_grain (hj : j ≤ 31) (n : Nat) (base size : Word) (hb : 2 ^ j ∣ base.toNat)
    (hsz : 2 ^ j ∣ size.toNat) : ∀ x ∈ chainBlocks n base size, j ≤ x.2 := by
  induction n generalizing base size with
  | zero =>
    intro x hx
    by_cases hs : size = 0#32 <;> simp [chainBlocks, hs] at hx
  | succ n ih =>
    intro x hx
    by_cases hs : size = 0#32
    · subst hs
      rw [chainBlocks_zero] at hx
      simp at hx
    · rw [chainBlocks_succ n hs] at hx
      have hk := chainShift_le base size
      have hjk := le_chainShift hj hb hsz
      have hd : 2 ^ j ∣ 2 ^ chainShift base size := Nat.pow_dvd_pow 2 hjk
      rcases List.mem_cons.mp hx with rfl | hx
      · exact hjk
      · refine ih _ _ ?_ ?_ x hx
        · rw [BitVec.toNat_add, toNat_shift hk]
          exact (Nat.dvd_mod_iff (Nat.pow_dvd_pow 2 (by omega))).mpr (Nat.dvd_add hb hd)
        · rw [chainShift_rest hs]
          exact Nat.dvd_sub hsz hd

theorem chainBlocks_ne_nil {n : Nat} (hs : size ≠ 0#32) (hn : size.toNat ≤ n) :
    chainBlocks n base size ≠ [] := by
  intro hnil
  have ht := chainBlocks_tiles n base size hn
  rw [hnil] at ht
  cases ht
  exact hs rfl

/-! ## Rounding -/

/-- `n` rounded up to the 256-byte grain. -/
def roundUp (n : Nat) : Nat := (n + 255) / 256 * 256

/-- `n` rounded down to the 256-byte grain. -/
def roundDown (n : Nat) : Nat := n / 256 * 256

theorem and_not_low (hk : k ≤ 32) (x : Word) :
    (x &&& ~~~BitVec.ofNat 32 (2 ^ k - 1)).toNat = x.toNat / 2 ^ k * 2 ^ k := by
  have hpow : 2 ^ k - 1 < 2 ^ 32 := by
    have := Nat.pow_le_pow_right (n := 2) (by decide) hk
    omega
  have h : x &&& ~~~BitVec.ofNat 32 (2 ^ k - 1) = (x >>> k) <<< k := by
    ext i hi
    have hbit : (BitVec.ofNat 32 (2 ^ k - 1))[i] = decide (i < k) := by
      rw [BitVec.getElem_eq_testBit_toNat, BitVec.toNat_ofNat, Nat.mod_eq_of_lt hpow]
      exact Nat.testBit_two_pow_sub_one k i
    simp only [BitVec.getElem_and, BitVec.getElem_not, BitVec.getElem_shiftLeft,
      BitVec.getElem_ushiftRight, hbit]
    by_cases hik : i < k
    · simp [hik]
    · have h' : k + (i - k) = i := by omega
      simp [hik, h', BitVec.getLsbD_eq_getElem hi]
  rw [h, BitVec.toNat_shiftLeft, BitVec.toNat_ushiftRight, Nat.shiftLeft_eq,
    Nat.shiftRight_eq_div_pow]
  exact Nat.mod_eq_of_lt (Nat.lt_of_le_of_lt (Nat.div_mul_le_self _ _) x.isLt)

theorem and_not_255 (x : Word) : (x &&& ~~~255#32).toNat = x.toNat / 256 * 256 :=
  and_not_low (k := 8) (by decide) x

/-- `addr_align` at the fpage grain rounds up, modulo the address space. -/
theorem addrAlign_toNat (x : Word) :
    (addrAlign x configSmallestFpageSize).toNat = (x.toNat + 255) % 2 ^ 32 / 256 * 256 := by
  have h : addrAlign x configSmallestFpageSize = (x + 255#32) &&& ~~~255#32 := rfl
  rw [h, and_not_255, BitVec.toNat_add]
  rfl

end F9
