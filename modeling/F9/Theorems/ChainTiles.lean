import F9.Logic.Room
import F9.Logic.Sorted
import F9.Logic.Steps
import Mathlib.Data.List.Chain

/-!
# What `create_fpage_chain` creates

`create_fpage_chain_tiles`: for a request that stays inside the address space, and with a
free entry of `fpage_table` for each block, the loop ends with a chain of pages that follow
one another from the base of the request to its end.
-/

namespace F9

open Arc Linked

variable {mm : Memmap} {s : Kernel} {size base : Word}

/-- The pages `c` fill the range of `size` bytes from `base`, one after the other. -/
structure TilesRange (s : Kernel) (c : List FpRef) (base size : Word) : Prop where
  first : ∀ x, c.head? = some x → (s.fp x).base = base
  next : c.IsChain fun x y => (s.fp y).base.toNat = (s.fp x).base.toNat + (s.fp x).size.toNat
  sum : (c.map fun x => (s.fp x).size.toNat).sum = size.toNat
  aligned : ∀ x ∈ c, ∃ k < 32, (s.fp x).size.toNat = 2 ^ k ∧ 2 ^ k ∣ (s.fp x).base.toNat
  grain : ∀ k, 2 ^ k ∣ base.toNat → 2 ^ k ∣ size.toNat → ∀ x ∈ c, 2 ^ k ≤ (s.fp x).size.toNat

theorem dvd_size_lt {k : Nat} (hs : size ≠ 0#32) (h : 2 ^ k ∣ size.toNat) : k ≤ 31 := by
  have hpos : 0 < size.toNat := by
    rw [Nat.pos_iff_ne_zero]
    intro h0
    exact hs (BitVec.eq_of_toNat_eq h0)
  have hlt : 2 ^ k < 2 ^ 32 := (Nat.le_of_dvd hpos h).trans_lt size.isLt
  have := (Nat.pow_lt_pow_iff_right (by decide)).mp hlt
  omega

theorem PagesFor.tilesRange {mpid : Nat} {c : List FpRef} (hs : size ≠ 0#32)
    (hfit : base.toNat + size.toNat ≤ 2 ^ 32)
    (h : PagesFor mm mpid s c (chainBlocks size.toNat base size)) : TilesRange s c base size := by
  have ht := chainBlocks_tiles _ base size (Nat.le_refl _)
  have hsize : ∀ x ∈ c, (s.fp x).size.toNat = 2 ^ (s.fp x).shift := fun x hx =>
    (h.aligned x hx).size_toNat
  refine ⟨?_, ?_, ?_, ?_, ?_⟩
  · intro x hx
    refine ht.head_base (s.fp x).block ?_
    rw [← h.blocks, List.head?_map, hx]
    rfl
  · have hc := ht.consecutive hfit
    rw [← h.blocks, List.isChain_map] at hc
    refine hc.imp_of_mem_imp fun x y hx _ hxy => ?_
    rw [hsize x hx]
    exact hxy
  · rw [List.map_congr_left hsize, ← ht.sum, ← h.blocks, List.map_map]
    rfl
  · intro x hx
    have hal := h.aligned x hx
    exact ⟨(s.fp x).shift, hal.shift, hsize x hx, hal.aligned⟩
  · intro k hb hz x hx
    rw [hsize x hx]
    exact Nat.pow_le_pow_right (by decide)
      (chainBlocks_grain (dvd_size_lt hs hz) _ base size hb hz _ (h.mem_block hx))

/-- `create_fpage_chain` tiles its range. `chainBlocks` has one entry for each page the loop
creates; `*plast` may be anything before the call, `*pfirst` is `NULL`. -/
theorem create_fpage_chain_tiles (mm : Memmap) (s : Kernel) (mpid : Nat) {base size : Word}
    (plast : Option FpRef) (hs : size ≠ 0#32) (hfit : base.toNat + size.toNat ≤ 2 ^ 32)
    (hroom : (chainBlocks size.toNat base size).length ≤ s.room) :
    ∃ c s', createFpageChain mm s base size mpid none plast = .ok (c.head?, c.getLast?, s') ∧
      c ≠ [] ∧ Chain s'.asNext c.head? c ∧ TilesRange s' c base size := by
  obtain ⟨pf, pl, s', hrun, _⟩ := createFpageChain_total mm mpid plast hroom
  obtain ⟨c, hb, rfl, rfl⟩ := createFpageChain_new hrun
  have hp : PagesFor mm mpid s' c (chainBlocks size.toNat base size) := hb.pages
  have hc : c ≠ [] := by
    rintro rfl
    exact chainBlocks_ne_nil hs (Nat.le_refl _) hp.blocks.symm
  obtain ⟨z, hz⟩ := Option.ne_none_iff_exists'.mp (mt List.getLast?_eq_none_iff.mp hc)
  refine ⟨c, s', ?_, hc, hb.chain, hp.tilesRange hs hfit⟩
  rw [hz] at hrun ⊢
  exact hrun

/-- The first 2 GiB and a half page more, from address 0, in an empty table: base 0 counts as
aligned to 2 GiB. -/
theorem create_fpage_chain_tiles_zero :
    (chainBlocks (0x80000080#32).toNat 0#32 0x80000080#32).length ≤
      (emptyKernel fun _ => false).room ∧
    ∃ c s', createFpageChain (memmap stm32f4Board) (emptyKernel fun _ => false) 0#32
        0x80000080#32 7 none none = .ok (c.head?, c.getLast?, s') ∧
      c ≠ [] ∧ Chain s'.asNext c.head? c ∧ TilesRange s' c 0#32 0x80000080#32 := by
  have hroom : (chainBlocks (0x80000080#32).toNat 0#32 0x80000080#32).length ≤
      (emptyKernel fun _ => false).room := by decide +kernel
  exact ⟨hroom, create_fpage_chain_tiles (memmap stm32f4Board) _ 7 none (by decide) (by decide)
    hroom⟩

end F9
