import Mathlib.Data.List.Chain
import F9.Logic.HandsOut
import F9.Logic.Steps

/-!
# Which requests are served in full

An unprivileged `map_area` that returns 0 should have mapped every address of the
request. There are two ways to miss some. The check for sequential pages lets holes of
the source pass: one in front of the last page is not looked at, and the probe starts at
`base`, not at the base of its page, so that smaller holes are not seen either. And a
request that begins inside a 256-byte unit starts with the next unit. The two conditions
of `map_area_range_complete` exclude exactly these.
-/

namespace F9

open Linked Result

variable {mm : Memmap} {s s' : Kernel} {src dst : AsRef} {base size stop : Word}

/-- Neighbours on the list that the range from `lo` to `hi` runs across meet. -/
def Kernel.NoGap (s : Kernel) (a : AsRef) (lo hi : Nat) : Prop :=
  (s.pages a).IsChain fun x y =>
    lo < (s.fp y).lo → (s.fp x).hi < hi → (s.fp x).hi = (s.fp y).lo

instance (s : Kernel) (a : AsRef) (lo hi : Nat) : Decidable (s.NoGap a lo hi) :=
  inferInstanceAs (Decidable ((s.pages a).IsChain fun x y =>
    lo < (s.fp y).lo → (s.fp x).hi < hi → (s.fp x).hi = (s.fp y).lo))

/-- The addresses of the range before the first multiple of 256: the page of `base` ends
there, so that it is mapped as a whole, or the destination has them. -/
def StartTaken (s : Kernel) (src dst : AsRef) (base stop : Word) : Prop :=
  (∃ x ∈ s.pages src, addrInFpage base (s.fp x) false = true ∧
    (s.fp x).hi = roundUp base.toNat) ∨
  ∀ addr, base ≤ addr → addr < stop → addr.toNat < roundUp base.toNat → s.Covers dst addr

/-- Between two pages of a list without gaps every address is held. -/
theorem Kernel.Ordered.held_of_noGap {lo hi n : Nat} (hlo : lo ≤ n) (hhi : n < hi) (l : List FpRef)
    (hord : s.Ordered l)
    (hchain : l.IsChain fun x y => lo < (s.fp y).lo → (s.fp x).hi < hi → (s.fp x).hi = (s.fp y).lo)
    (hP : ∃ x ∈ l, (s.fp x).lo ≤ n) (hQ : ∃ y ∈ l, n < (s.fp y).hi) :
    ∃ x ∈ l, (s.fp x).lo ≤ n ∧ n < (s.fp x).hi := by
  induction l with
  | nil =>
    obtain ⟨x, hx, _⟩ := hP
    simp at hx
  | cons x l ih =>
    obtain ⟨hx, hord'⟩ := List.pairwise_cons.mp hord
    obtain ⟨p, hp, hpn⟩ := hP
    obtain ⟨q, hq, hqn⟩ := hQ
    by_cases hn : n < (s.fp x).hi
    · refine ⟨x, List.mem_cons_self, ?_, hn⟩
      rcases List.mem_cons.mp hp with rfl | hp
      · exact hpn
      · have := hx p hp
        omega
    · -- the address lies behind the head: the next page begins no later than it
      have hq' : q ∈ l := by
        rcases List.mem_cons.mp hq with rfl | hq
        · omega
        · exact hq
      cases l with
      | nil => simp at hq'
      | cons y l =>
        obtain ⟨hxy, hchain'⟩ := List.isChain_cons_cons.mp hchain
        have hy : (s.fp y).lo ≤ n := by
          by_contra hy
          omega
        obtain ⟨z, hz, hzn⟩ :=
          ih hord' hchain' ⟨y, List.mem_cons_self, hy⟩ ⟨q, hq', hqn⟩
        exact ⟨z, List.mem_cons_of_mem _ hz, hzn⟩

/-- The source has all addresses of the range if and only if there is no gap. -/
theorem SpanAt.noGap_iff {P Q : FpRef} (h : SpanAt s src base stop P Q) (ha : SortedSpace s src)
    (hlt : base < stop) : s.NoGap src base.toNat stop.toNat ↔
      ∀ addr, base ≤ addr → addr < stop → s.Covers src addr := by
  rw [BitVec.lt_def] at hlt
  obtain ⟨hb1, hb2, hb3⟩ := (ha.sized P h.first).addrIn_iff.mp h.base_in
  have hQ : stop.toNat ≤ (s.fp Q).hi := by
    rcases (ha.sized Q h.last).addrIn_end_iff.mp h.stop_in with h1 | ⟨h1, _⟩
    · exact h1.2.1
    · rw [h1] at hlt
      simp at hlt
  constructor
  · intro hgap addr h1 h2
    rw [BitVec.le_def] at h1
    rw [BitVec.lt_def] at h2
    obtain ⟨x, hx, hxn⟩ := Kernel.Ordered.held_of_noGap h1 h2 _ ha.ordered hgap
      ⟨P, h.first, by omega⟩ ⟨Q, h.last, by omega⟩
    exact ⟨x, hx, (ha.sized x hx).holds_iff.mpr hxn⟩
  · intro hcov
    refine List.isChain_iff_forall_rel_of_append_cons_cons.mpr ?_
    intro x y pre post hl h1 h2
    have hord := ha.ordered
    rw [hl] at hord
    obtain ⟨hpre, hpost⟩ := hord.around
    have hxy := hpost y List.mem_cons_self
    have hpost' : ∀ w ∈ post, (s.fp y).lo ≤ (s.fp w).lo := by
      intro w hw
      have hord' : s.Ordered ((pre ++ [x]) ++ y :: post) := by
        rw [List.append_assoc]
        exact hord
      exact hord'.le_lo (List.mem_cons_of_mem _ hw)
    by_contra hne
    -- an address of the gap, in the range
    have hn : max (s.fp x).hi base.toNat < 2 ^ 32 := by
      omega
    have hval := toNat_ofNat32 hn
    obtain ⟨w, hw, hh⟩ := hcov (BitVec.ofNat 32 (max (s.fp x).hi base.toNat))
      (by rw [BitVec.le_def, hval]; omega) (by rw [BitVec.lt_def, hval]; omega)
    have hwn := (ha.sized w hw).holds_iff.mp hh
    rw [hl] at hw
    have hxlt := (s.fp x).lo_lt_hi
    rcases List.mem_append.mp hw with hw | hw
    · have := hpre w hw
      omega
    · rcases List.mem_cons.mp hw with rfl | hw
      · omega
      · rcases List.mem_cons.mp hw with rfl | hw
        · omega
        · have := hpost' w hw
          omega

/-- What a successful call hands out of the range: all of it that the source has, apart
from the addresses before the first multiple of 256, unless their page ends there. -/
theorem HandsOut.range_iff {P Q : FpRef} {lo hi : Nat} (h : HandsOut s src base stop P Q lo hi)
    (ha : SortedSpace s src) (hlt : base < stop) {addr : Word} (h1 : base ≤ addr)
    (h2 : addr < stop) : (lo ≤ addr.toNat ∧ addr.toNat < hi) ↔
      roundUp base.toNat ≤ addr.toNat ∨ ∃ x ∈ s.pages src,
        addrInFpage base (s.fp x) false = true ∧ (s.fp x).hi = roundUp base.toNat := by
  rw [BitVec.lt_def] at hlt h2
  rw [BitVec.le_def] at h1
  obtain ⟨hb1, hb2, hb3⟩ := (ha.sized P h.first).addrIn_iff.mp h.base_in
  have hhi : addr.toNat < hi := by
    rcases h.to_stop with ⟨h3, _⟩ | ⟨h3, h4, _⟩ | ⟨_, _, _, _, h3⟩ | ⟨h3, _⟩
    · unfold roundUp at h3
      omega
    · have := (s.fp Q).lo_lt_hi
      omega
    · have := Nat.two_pow_pos (chainShift stop ((s.fp P).stop - stop))
      omega
    · rw [h3] at hlt
      simp at hlt
  have hpage : (∃ x ∈ s.pages src, addrInFpage base (s.fp x) false = true ∧
      (s.fp x).hi = roundUp base.toNat) ↔ (s.fp P).hi = roundUp base.toNat := by
    constructor
    · rintro ⟨x, hx, hin, heq⟩
      obtain ⟨hx1, hx2, _⟩ := (ha.sized x hx).addrIn_iff.mp hin
      rcases ha.ordered.apart hx h.first with rfl | hxP | hPx
      · exact heq
      · omega
      · omega
    · intro heq
      exact ⟨P, h.first, h.base_in, heq⟩
  rw [hpage]
  rcases h.from_base with ⟨h3, h4, _⟩ | ⟨h3, h4⟩ <;> omega

/-- A successful unprivileged `map_area` maps the whole request if and only if the source
has no gap in it and its addresses before the first multiple of 256 are not lost. -/
theorem map_area_range_complete {action : MapAction} (hr : Ready s) (ha : SortedSpace s src)
    (hd : s.liveAs dst = true) (hne : src ≠ dst) (hpos : size ≠ 0#32)
    (hwrap : base.toNat + size.toNat < 2 ^ 32)
    (h : mapArea mm s src dst base size action false = .ok (0, s')) :
    (∀ addr, base ≤ addr → addr < base + size → s.Covers src addr ∧ s'.Covers dst addr) ↔
      s.NoGap src base.toNat (base + size).toNat ∧ StartTaken s src dst base (base + size) := by
  obtain ⟨P, Q, lo, hi, _, hout, hcov⟩ := mapArea_handsOut hr ha hd hne h
  have hlt : base < base + size := by
    have hsize : size.toNat ≠ 0 := fun h0 => hpos (BitVec.eq_of_toNat_eq (by simpa using h0))
    rw [BitVec.lt_def, BitVec.toNat_add, Nat.mod_eq_of_lt hwrap]
    omega
  rw [hout.toSpanAt.noGap_iff ha hlt]
  constructor
  · intro hall
    refine ⟨fun addr h1 h2 => (hall addr h1 h2).1, ?_⟩
    by_cases hpage : ∃ x ∈ s.pages src,
        addrInFpage base (s.fp x) false = true ∧ (s.fp x).hi = roundUp base.toNat
    · exact .inl hpage
    · refine .inr fun addr h1 h2 h3 => ?_
      rcases (hcov addr).mp (hall addr h1 h2).2 with hdst | ⟨_, hrange⟩
      · exact hdst
      · rcases (hout.range_iff ha hlt h1 h2).mp hrange with h4 | h4
        · omega
        · exact absurd h4 hpage
  · rintro ⟨hsrc, hstart⟩ addr h1 h2
    refine ⟨hsrc addr h1 h2, (hcov addr).mpr ?_⟩
    by_cases hin : roundUp base.toNat ≤ addr.toNat
    · exact .inr ⟨hsrc addr h1 h2, (hout.range_iff ha hlt h1 h2).mpr (.inl hin)⟩
    · rcases hstart with hpage | hdst
      · exact .inr ⟨hsrc addr h1 h2, (hout.range_iff ha hlt h1 h2).mpr (.inr hpage)⟩
      · exact .inl (hdst addr h1 h2 (by omega))

/-- A page and the first half of the next one are mapped. -/
theorem map_area_range_complete_part : ∃ s s',
    (system (memmap stm32f4Board) stm32f4Board).Reachable (fun _ _ => True) s ∧
    mapArea (memmap stm32f4Board) s 0 1 0x20008100#32 0x200#32 .map false = .ok (0, s') ∧
    ∀ addr, 0x20008100#32 ≤ addr → addr < 0x20008300#32 →
      s.Covers 0 addr ∧ s'.Covers 1 addr := by
  obtain ⟨s, s', hreach, hr, hs, h1, hrun, hgap⟩ := exists_mapRun
    [.assignFpages 0 0x20008100#32 0x300#32, .asSetupMpu 0 0#32 0#32 0#32 0#32] 0x20008100#32
    0x200#32 false (fun s _ => decide (s.NoGap 0 0x20008100 0x20008300)) (by decide +kernel)
  refine ⟨s, s', hreach, hrun, ?_⟩
  refine (map_area_range_complete hr hs h1 (by decide) (by decide) (by decide) hrun).mpr
    ⟨of_decide_eq_true hgap, .inr fun addr h2 _ h3 => ?_⟩
  rw [BitVec.le_def] at h2
  have : roundUp (0x20008100#32).toNat = (0x20008100#32).toNat := by decide
  omega

/-- A request across a hole between two pages, and one that begins inside a 256-byte
unit: both return 0. -/
theorem map_area_skips_addresses :
    (∃ s s', (system (memmap stm32f4Board) stm32f4Board).Reachable (fun _ _ => True) s ∧
      Ready s ∧ SortedSpace s 0 ∧ s.liveAs 1 = true ∧
      mapArea (memmap stm32f4Board) s 0 1 0x20008000#32 0x3000#32 .map false = .ok (0, s') ∧
      ¬ s.Covers 0 0x20009000#32 ∧ ¬ s'.Covers 1 0x20009000#32) ∧
    ∃ s s', (system (memmap stm32f4Board) stm32f4Board).Reachable (fun _ _ => True) s ∧
      Ready s ∧ SortedSpace s 0 ∧ s.liveAs 1 = true ∧
      mapArea (memmap stm32f4Board) s 0 1 0x20008040#32 0x1c0#32 .map false = .ok (0, s') ∧
      s.Covers 0 0x20008040#32 ∧ ¬ s'.Covers 1 0x20008040#32 := by
  constructor
  · obtain ⟨s, s', hreach, hr, hs, h1, hrun, hp⟩ := exists_mapRun
      [.assignFpages 0 0x20008000#32 0x1000#32, .assignFpages 0 0x2000a000#32 0x1000#32]
      0x20008000#32 0x3000#32 false
      (fun s s' => decide (¬ s.Covers 0 0x20009000#32 ∧ ¬ s'.Covers 1 0x20009000#32))
      (by decide +kernel)
    exact ⟨s, s', hreach, hr, hs, h1, hrun, of_decide_eq_true hp⟩
  · obtain ⟨s, s', hreach, hr, hs, h1, hrun, hp⟩ := exists_mapRun
      [.assignFpages 0 0x20008000#32 0x1000#32, .asSetupMpu 0 0#32 0#32 0#32 0#32]
      0x20008040#32 0x1c0#32 false
      (fun s s' => decide (s.Covers 0 0x20008040#32 ∧ ¬ s'.Covers 1 0x20008040#32))
      (by decide +kernel)
    exact ⟨s, s', hreach, hr, hs, h1, hrun, of_decide_eq_true hp⟩

end F9
