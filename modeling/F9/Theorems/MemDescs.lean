import F9.Kernel.System
import F9.Logic.Blocks
import F9.User.RootThread

/-!
# Do the memory descriptors describe their pools?

Index and tag of a pool survive the packing into six bits (`memDesc_decode`). The range
does not always: base and length are rounded up each on its own, so that a pool that does not
begin and end at multiples of 256 is described by a range that ends behind it
(`mem_descs_describe`).
-/

namespace F9

open Arc

/-! ## Packing -/

theorem pack_low {y i : Word} (hi : i &&& 0x3F#32 = i) :
    ((y &&& ~~~255#32) ||| i) &&& 0x3F#32 = i := by
  rw [BitVec.and_or_distrib_right, BitVec.and_assoc, hi]
  simp

theorem pack_high {y i : Word} (hi : i &&& 0x3F#32 = i) :
    ((y &&& ~~~255#32) ||| i) &&& 0xFFFFFFC0#32 = y &&& ~~~255#32 := by
  rw [BitVec.and_or_distrib_right, ← hi, BitVec.and_assoc, BitVec.and_assoc]
  simp

theorem MempoolTag.toWord_low (t : MempoolTag) : t.toWord &&& 0x3F#32 = t.toWord := by
  cases t <;> rfl

theorem index_low {i : Nat} (hi : i < 64) : BitVec.ofNat 32 i &&& 0x3F#32 = BitVec.ofNat 32 i := by
  have h : ∀ n : Fin 64, BitVec.ofNat 32 n.val &&& 0x3F#32 = BitVec.ofNat 32 n.val := by decide
  exact h ⟨i, hi⟩

/-- What the root thread reads from the descriptor of pool `i`. -/
theorem memDesc_decode {i : Nat} (hi : i < 64) (mp : Mempool) :
    (memDesc i mp).poolId = BitVec.ofNat 32 i ∧ (memDesc i mp).tag = mp.tag.toWord ∧
      (memDesc i mp).rangeBase = addrAlign mp.start configSmallestFpageSize ∧
      (memDesc i mp).rangeSize = addrAlign (mp.stop - mp.start) configSmallestFpageSize := by
  refine ⟨?_, ?_, ?_, ?_⟩
  · exact pack_low (index_low hi)
  · exact pack_low mp.tag.toWord_low
  · exact pack_high (index_low hi)
  · exact pack_high mp.tag.toWord_low

/-! ## Ranges -/

/-- The descriptor gives back the index, the tag and a part of the range of a pool. -/
structure Describes (d : KipMemDesc) (i : Nat) (mp : Mempool) : Prop where
  poolId : d.poolId.toNat = i
  tag : d.tag = mp.tag.toWord
  range : ∀ n, d.rangeBase.toNat ≤ n → n < d.rangeBase.toNat + d.rangeSize.toNat →
    mp.start.toNat ≤ n ∧ n < mp.stop.toNat

/-- The pool begins and ends at multiples of 256; or it is empty, or its length is rounded up
to the size of the address space. -/
def Mempool.Whole (mp : Mempool) : Prop :=
  (256 ∣ mp.start.toNat ∧ 256 ∣ mp.stop.toNat ∧ mp.start ≤ mp.stop) ∨
    mp.start = mp.stop ∨ 0xFFFFFF00#32 < mp.stop - mp.start

instance (mp : Mempool) : Decidable mp.Whole := inferInstanceAs (Decidable (_ ∨ _ ∨ _))

theorem interval_sub {a l b c : Nat} (hl : l ≠ 0) :
    (∀ n, a ≤ n → n < a + l → b ≤ n ∧ n < c) ↔ b ≤ a ∧ a + l ≤ c := by
  constructor
  · intro h
    have h1 := h a (by omega) (by omega)
    have h2 := h (a + l - 1) (by omega) (by omega)
    omega
  · intro h n h1 h2
    omega

theorem range_iff_whole (mp : Mempool) :
    (∀ n, (addrAlign mp.start configSmallestFpageSize).toNat ≤ n →
      n < (addrAlign mp.start configSmallestFpageSize).toNat +
        (addrAlign (mp.stop - mp.start) configSmallestFpageSize).toNat →
      mp.start.toNat ≤ n ∧ n < mp.stop.toNat) ↔ mp.Whole := by
  have hs := mp.start.isLt
  have hd := toNat_sub_eq mp.stop mp.start
  have hdlt := (mp.stop - mp.start).isLt
  have heq : mp.start = mp.stop ↔ mp.start.toNat = mp.stop.toNat :=
    ⟨congrArg _, BitVec.eq_of_toNat_eq⟩
  have htop : (0xFFFFFF00#32).toNat = 2 ^ 32 - 256 := rfl
  unfold Mempool.Whole
  rw [addrAlign_toNat, addrAlign_toNat, BitVec.le_def, BitVec.lt_def, heq, htop]
  generalize (mp.stop - mp.start).toNat = d at *
  by_cases hz : (d + 255) % 2 ^ 32 / 256 * 256 = 0
  · -- the range is empty
    refine iff_of_true (fun n h1 h2 => by omega) (.inr ?_)
    split at hd <;> omega
  · rw [interval_sub hz]
    split at hd
    · constructor
      · intro h
        left
        omega
      · intro h
        omega
    · constructor
      · intro h
        omega
      · intro h
        omega

theorem memDesc_describes_iff {i : Nat} (hi : i < 64) (mp : Mempool) :
    Describes (memDesc i mp) i mp ↔ mp.Whole := by
  obtain ⟨h1, h2, h3, h4⟩ := memDesc_decode hi mp
  rw [← range_iff_whole]
  constructor
  · intro h
    have hr := h.range
    rw [h3, h4] at hr
    exact hr
  · intro h
    refine ⟨?_, h2, ?_⟩
    · rw [h1, BitVec.toNat_ofNat, Nat.mod_eq_of_lt (by omega)]
    · rw [h3, h4]
      exact h

/-! ## The table -/

/-- The pools that are published, with their indices. -/
def publishedPools (i : Nat) (mm : Memmap) : List (Mempool × Nat) :=
  (mm.zipIdx i).filter fun p => p.1.tag.published

theorem memDescsFrom_eq (mm : Memmap) (i : Nat) :
    memDescsFrom i mm = (publishedPools i mm).map fun p => memDesc p.2 p.1 := by
  induction mm generalizing i with
  | nil => rfl
  | cons mp mps ih =>
    unfold publishedPools at ih ⊢
    rw [List.zipIdx_cons, List.filter_cons]
    show (if mp.tag.published then _ else _) = _
    split
    · rw [List.map_cons, ih]
    · exact ih _

theorem mem_publishedPools {mm : Memmap} {mp : Mempool} {i : Nat} :
    (mp, i) ∈ publishedPools 0 mm ↔ mm[i]? = some mp ∧ mp.tag.published = true := by
  unfold publishedPools
  rw [List.mem_filter, List.mem_zipIdx_iff_getElem?]

/-- The descriptors of `memory_init` are those of the published pools, in the order of the
table; each one describes its pool if and only if every published pool is whole. -/
theorem mem_descs_describe {mm : Memmap} (hmm : mm.length < 64) :
    List.Forall₂ (fun d p => Describes d p.2 p.1) (memoryInit mm) (publishedPools 0 mm) ↔
      ∀ mp ∈ mm, mp.tag.published = true → mp.Whole := by
  have hlt : ∀ p ∈ publishedPools 0 mm, p.2 < 64 := by
    rintro ⟨mp, i⟩ hp
    obtain ⟨hi, _⟩ := List.getElem?_eq_some_iff.mp (mem_publishedPools.mp hp).1
    show i < 64
    omega
  unfold memoryInit
  rw [memDescsFrom_eq, List.forall₂_map_left_iff, List.forall₂_same]
  constructor
  · intro h mp hmp hp
    obtain ⟨i, hi⟩ := List.mem_iff_getElem?.mp hmp
    have hmem := mem_publishedPools.mpr ⟨hi, hp⟩
    exact (memDesc_describes_iff (hlt _ hmem) mp).mp (h (mp, i) hmem)
  · rintro h ⟨mp, i⟩ hmem
    obtain ⟨hi, hp⟩ := mem_publishedPools.mp hmem
    exact (memDesc_describes_iff (hlt _ hmem) mp).mpr (h mp (List.mem_of_getElem? hi) hp)

/-- The layout of `stm32f4Board`, whose pools are whole. -/
theorem mem_descs_describe_stm32f4 :
    (memmap stm32f4Board).length < 64 ∧
    List.Forall₂ (fun d p => Describes d p.2 p.1) (memoryInit (memmap stm32f4Board))
      (publishedPools 0 (memmap stm32f4Board)) :=
  ⟨by decide, (mem_descs_describe (by decide)).mpr (by decide)⟩

/-- The bitmaps of the kernel tables take 0x580 bytes of the core-coupled memory, and the pool
behind them begins there. -/
def bitmapBoard : Board :=
  { stm32f4Board with bitmapEnd := 0x10000580#32, kernelAhbEnd := 0x10000580#32 }

/-- The descriptor of that pool ends 256 bytes behind it. -/
theorem mem_descs_overrun :
    (publishedPools 0 (memmap bitmapBoard))[4]? =
      some (⟨0x10000580#32, 0x10010000#32, MP_UR ||| MP_UW ||| MP_AHB_RAM, .available⟩, 9) ∧
    (memoryInit (memmap bitmapBoard))[4]?.map (fun d => (d.rangeBase, d.rangeSize)) =
      some (0x10000600#32, 0xFB00#32) ∧
    ¬ List.Forall₂ (fun d p => Describes d p.2 p.1) (memoryInit (memmap bitmapBoard))
      (publishedPools 0 (memmap bitmapBoard)) := by
  refine ⟨by decide, by decide, fun h => ?_⟩
  have hd := (List.forall₂_iff_get.mp h).2 4 (by decide) (by decide)
  exact absurd ((memDesc_describes_iff (by decide) _).mp hd) (by decide)

end F9
