import F9.Logic.Gaps
import F9.Logic.Steps

/-!
# The pool of the pages that `assign_fpages_ext` creates

`mempool_search` compares the unrounded ends of the request with the pool, in 32-bit arithmetic;
the pages are created for each gap of the request from base and size rounded up.
`assign_fpages_inside_pool`: the pages stay inside the pool exactly if the sum does not go round and
each gap stays inside when rounded. `assign_fpages_past_pool` is a request for the last bytes of a
pool whose end is not a multiple of 256.
-/

namespace F9

open Arc Linked Result Sweep

variable {mm : Memmap} {s s' : Kernel} {as : Option AsRef} {m : Nat} {base size : Word}
  {pf pl pf' pl' : Option FpRef} {ret : Int}

/-! ## The statement -/

/-- The range of `size` bytes from `base`, without wrap-around, is in the pool. -/
def Mempool.Holds (mp : Mempool) (base size : Word) : Prop :=
  mp.start.toNat ≤ base.toNat ∧ base.toNat + size.toNat ≤ mp.stop.toNat

/-- The page is in the pool. -/
def Mempool.HoldsPage (mp : Mempool) (f : Fpage) : Prop :=
  mp.start.toNat ≤ f.lo ∧ f.hi ≤ mp.stop.toNat

/-- `mempool_search` finds a pool only for a range inside it, and every page that is new in `s'`
is in that pool. -/
def CreatedInPool (mm : Memmap) (s s' : Kernel) (base size : Word) : Prop :=
  (∀ m, mempoolSearch mm base size = some m → (mempoolGetbyid mm m).Holds base size) ∧
    ∀ x, s.liveFp x = false → s'.liveFp x = true →
      ∃ m, mempoolSearch mm base size = some m ∧ (mempoolGetbyid mm m).HoldsPage (s'.fp x)

/-- The parts of the request that have no page yet: before each page of the address space in the
order of its list, and after the last one. Without an address space it is the whole request. -/
def Kernel.gaps (s : Kernel) (as : Option AsRef) (base stop : Word) : List (Nat × Nat) :=
  as.elim [(base.toNat, stop.toNat)] fun a =>
    Sweep.gaps (fun x => (s.fp x).lo) (fun x => (s.fp x).stop.toNat) stop.toNat base.toNat
      (s.pages a)

/-- The gap `[b, e)`, with base and size rounded by `mempool_align`, is in the pool. -/
def RoundsInside (mm : Memmap) (m : Nat) (q : Nat × Nat) : Prop :=
  let base := mempoolAlign mm m (BitVec.ofNat 32 q.1)
  let size := mempoolAlign mm m (BitVec.ofNat 32 q.2 - BitVec.ofNat 32 q.1)
  size = 0#32 ∨ (mempoolGetbyid mm m).Holds base size

/-- The sum `base + size` does not go round, and the gaps stay in the pool when rounded. -/
def FitsPool (mm : Memmap) (s : Kernel) (as : Option AsRef) (base size : Word) : Prop :=
  ∀ m, mempoolSearch mm base size = some m → base.toNat + size.toNat < 2 ^ 32 ∧
    ∀ q ∈ s.gaps as base (base + size), RoundsInside mm m q

/-! ## The search -/

theorem mempoolSearch_spec (h : mempoolSearch mm base size = some m) :
    (mempoolGetbyid mm m).start ≤ base ∧ base + size ≤ (mempoolGetbyid mm m).stop := by
  obtain ⟨hlt, hp, _⟩ := List.findIdx?_eq_some_iff_getElem.mp h
  have hget : mempoolGetbyid mm m = mm[m] := List.getD_eq_getElem _ _ hlt
  rw [hget]
  simpa using hp

/-- The pool holds the range unless the sum goes round. -/
theorem mempoolSearch_holds (h : mempoolSearch mm base size = some m) :
    (mempoolGetbyid mm m).Holds base size ↔ base.toNat + size.toNat < 2 ^ 32 := by
  obtain ⟨h1, h2⟩ := mempoolSearch_spec h
  have hlt := (mempoolGetbyid mm m).stop.isLt
  rw [BitVec.le_def] at h1 h2
  constructor
  · intro hin
    exact Nat.lt_of_le_of_lt hin.2 hlt
  · intro hsum
    rw [BitVec.toNat_add, Nat.mod_eq_of_lt hsum] at h2
    exact ⟨h1, h2⟩

/-! ## One chain -/

theorem PagesFor.inPool {c : List FpRef} (mp : Mempool)
    (h : PagesFor mm m s c (chainBlocks size.toNat base size)) :
    (∀ x ∈ c, mp.HoldsPage (s.fp x)) ↔ size = 0#32 ∨ mp.Holds base size := by
  by_cases hz : size = 0#32
  · have hc : c = [] := by
      have := h.length_eq
      rw [hz, chainBlocks_zero] at this
      exact List.length_eq_zero_iff.mp this
    simp [hz, hc]
  · have hpos : 0 < size.toNat :=
      Nat.pos_of_ne_zero fun h0 => hz (BitVec.eq_of_toNat_eq (by simpa using h0))
    constructor
    · intro hall
      right
      by_cases hr : base.toNat + size.toNat ≤ 2 ^ 32
      · have hf := h.fills hr
        obtain ⟨x, hx, h1, _⟩ := hf.full base.toNat (Nat.le_refl _) (by omega)
        obtain ⟨y, hy, _, h2⟩ := hf.full (base.toNat + size.toNat - 1) (by omega) (by omega)
        exact ⟨(hall x hx).1.trans h1, by have := (hall y hy).2; omega⟩
      · -- the last address of memory is on the arc, and in no pool
        have harc : OnArc base size (BitVec.ofNat 32 (2 ^ 32 - 1)) := by
          unfold OnArc
          rw [BitVec.lt_def, toNat_sub_eq, toNat_ofNat32 (by omega), if_pos (by omega)]
          omega
        obtain ⟨x, hx, hh⟩ := (h.holds_chain _).mpr harc
        have hn := ((h.aligned x hx).holds_iff.mp hh).2
        rw [toNat_ofNat32 (by omega)] at hn
        have := (hall x hx).2
        omega
    · rintro (h0 | ⟨h1, h2⟩)
      · exact absurd h0 hz
      · intro x hx
        obtain ⟨h3, h4⟩ := (h.fills (by omega)).bounds x hx
        exact ⟨h1.trans h3, h4.trans h2⟩

theorem GapChain.inPool {c : List FpRef} {q : Nat × Nat} (h : GapChain mm m s s' q.1 q.2 c) :
    (∀ x ∈ c, (mempoolGetbyid mm m).HoldsPage (s'.fp x)) ↔ RoundsInside mm m q :=
  PagesFor.inPool _ h.pages

/-- A chain that is handed to `create_fpage_chain` with `*pfirst` set is never begun. -/
theorem createFpageChain_built (h : createFpageChain mm s base size m pf pl = .ok (pf', pl', s')) :
    ∃ c, Built mm m s s' (chainBlocks size.toNat base size) c := by
  cases pf with
  | none =>
    obtain ⟨c, hc, _⟩ := createFpageChain_new h
    exact ⟨c, hc⟩
  | some f =>
    unfold createFpageChain createChainLoop at h
    by_cases hz : size = 0#32
    · rw [if_pos hz] at h
      injection h with h
      injection h with _ h
      injection h with _ h
      subst h
      refine ⟨[], ?_⟩
      rw [hz, chainBlocks_zero]
      exact .nil (by simp)
    · rw [if_neg hz] at h
      obtain ⟨n, hn⟩ := Nat.exists_eq_succ_of_ne_zero
        (fun h0 : size.toNat = 0 => hz (BitVec.eq_of_toNat_eq (by simpa using h0)))
      rw [hn] at h
      obtain ⟨⟨r, s1⟩, _, h⟩ := bind_ok.mp h
      simp [throw_ok] at h

/-! ## All chains -/

/-- The pages a run creates are those of chains, one for each gap. -/
structure Chained (mm : Memmap) (m : Nat) (s s' : Kernel) (g : List (Nat × Nat)) : Prop where
  new : ∀ x, s.liveFp x = false → s'.liveFp x = true →
    ∃ q ∈ g, ∃ c, GapChain mm m s s' q.1 q.2 c ∧ x ∈ c
  chain : ∀ q ∈ g, ∃ c, GapChain mm m s s' q.1 q.2 c ∧ ∀ x ∈ c, s'.liveFp x = true

theorem Chained.inPool {g : List (Nat × Nat)} (h : Chained mm m s s' g) :
    (∀ x, s.liveFp x = false → s'.liveFp x = true →
      (mempoolGetbyid mm m).HoldsPage (s'.fp x)) ↔ ∀ q ∈ g, RoundsInside mm m q := by
  constructor
  · intro hall q hq
    obtain ⟨c, hc, hnew⟩ := h.chain q hq
    exact hc.inPool.mp fun x hx => hall x (hc.fresh x hx) (hnew x hx)
  · intro hg x h1 h2
    obtain ⟨q, hq, c, hc, hx⟩ := h.new x h1 h2
    exact hc.inPool.mpr (hg q hq) x hx

theorem assignFpagesExt_refused (hm : mempoolSearch mm base size = none)
    (h : assignFpagesExt mm s none as base size pf pl = .ok (ret, pf', pl', s')) : s' = s := by
  rcases assignFpagesExt_refuses h with ⟨_, _, _, hs⟩ | ⟨_, q, hq⟩
  · exact hs
  · rw [hm] at hq
    simp at hq

/-- The chains of a run on an address space. -/
theorem assignFpagesExt_chained {a : AsRef} (hwf : Wf s) (ha : s.liveAs a = true)
    (hs : size ≠ 0#32) (hm : mempoolSearch mm base size = some m)
    (h : assignFpagesExt mm s none (some a) base size pf pl = .ok (ret, pf', pl', s')) :
    Chained mm m s s' (s.gaps (some a) base (base + size)) := by
  have hlive := hwf.live a ha
  rcases assignFpagesExt_swept (hwf.chain a ha) hlive h with
    ⟨hret, _⟩ | ⟨_, _, m', N, l', w, hm', hN, hw, hend⟩
  · rw [assignFpagesExt_ret hs hm (.inl rfl) h] at hret
    exact absurd hret (by decide)
  · obtain rfl := Option.some.inj (hm.symm.trans hm')
    have hpassed : ∀ x ∈ w.passed, x ∈ s.pages a := by
      intro x hx
      rcases hend with ⟨_, ⟨rest, hl, _⟩, _⟩ | ⟨_, hl, _⟩
      · rw [hl]
        exact List.mem_append_left _ hx
      · rw [hl]
        exact hx
    -- the pages the sweep met are as they were
    have hw0 : Swept (fun x => (s.fp x).lo) (fun x => (s.fp x).stop.toNat)
        (GapChain mm m s s') base.toNat (base + size).toNat w := by
      refine Swept.mono hw (fun x hx => ?_) fun _ _ _ _ hc => hc
      obtain ⟨h1, h2⟩ := hN.base_eq (hlive x (hpassed x hx))
      exact ⟨(congrArg BitVec.toNat h1).symm, (congrArg BitVec.toNat h2).symm⟩
    have hlive' : ∀ x ∈ l', s'.liveFp x = true := by
      intro x hx
      rw [hN.live]
      rcases (hN.mem x).mp hx with hx | hx
      · rw [hlive x hx, Bool.true_or]
      · rw [decide_eq_true hx, Bool.or_true]
    have hnew : ∀ x, s.liveFp x = false → s'.liveFp x = true → x ∈ l' ∧ x ∉ w.passed := by
      intro x h1 h2
      rw [hN.live, h1, Bool.false_or, decide_eq_true_iff] at h2
      refine ⟨(hN.mem x).mpr (.inr h2), fun hx => ?_⟩
      rw [hlive x (hpassed x hx)] at h1
      simp at h1
    show Chained mm m s s' (Sweep.gaps _ _ _ _ _)
    rcases hend with ⟨hle, ⟨rest, hl, rfl⟩, _⟩ | ⟨hlt, hl, c, hc, rfl, _⟩
    · rw [hl, hw0.gaps_eq, gaps_of_le _ _ _ hle, List.append_nil]
      refine ⟨fun x h1 h2 => ?_, fun q hq => ?_⟩
      · obtain ⟨hx, hxp⟩ := hnew x h1 h2
        rcases List.mem_append.mp hx with hx | hx
        · rcases hw.mem_out x hx with hx | hx
          · exact absurd hx hxp
          · exact hx
        · rw [hlive x (by rw [hl]; simp [hx])] at h1
          simp at h1
      · obtain ⟨d, hd, _, hmem⟩ := hw.chain_of_gap q hq
        exact ⟨d, hd, fun x hx => hlive' x (by simp [hmem x hx])⟩
    · have hgaps : Sweep.gaps (fun x => (s.fp x).lo) (fun x => (s.fp x).stop.toNat)
          (base + size).toNat base.toNat (s.pages a) =
          w.gaps ++ [(w.cursor, (base + size).toNat)] := by
        have := hw0.gaps_eq []
        rw [List.append_nil] at this
        rw [hl, this]
        simp only [Sweep.gaps, if_pos hlt]
      rw [hgaps]
      refine ⟨fun x h1 h2 => ?_, fun q hq => ?_⟩
      · obtain ⟨hx, hxp⟩ := hnew x h1 h2
        rcases List.mem_append.mp hx with hx | hx
        · rcases hw.mem_out x hx with hx | ⟨q, hq, hx⟩
          · exact absurd hx hxp
          · exact ⟨q, by simp [hq], hx⟩
        · exact ⟨(w.cursor, (base + size).toNat),
            List.mem_append_right _ (List.mem_singleton_self _), c, hc, hx⟩
      · rcases List.mem_append.mp hq with hq | hq
        · obtain ⟨d, hd, _, hmem⟩ := hw.chain_of_gap q hq
          exact ⟨d, hd, fun x hx => hlive' x (by simp [hmem x hx])⟩
        · rw [List.mem_singleton.mp hq]
          exact ⟨c, hc, fun x hx => hlive' x (by simp [hx])⟩

theorem assignFpagesExt_chained_none (hs : size ≠ 0#32) (hm : mempoolSearch mm base size = some m)
    (h : assignFpagesExt mm s none none base size pf pl = .ok (ret, pf', pl', s')) :
    Chained mm m s s' (s.gaps none base (base + size)) := by
  unfold assignFpagesExt at h
  rw [if_neg hs, hm] at h
  obtain ⟨⟨first, last, s1⟩, hchain, h⟩ := bind_ok.mp h
  have := pure_ok.mp h
  simp only [Prod.mk.injEq] at this
  obtain ⟨_, _, _, rfl⟩ := this
  obtain ⟨c, hc⟩ := createFpageChain_built hchain
  have hgap : GapChain mm m s s1 base.toNat (base + size).toNat c := by
    have hsub : base + size - base = size := by bv_omega
    refine ⟨hc.fresh, ?_, ?_⟩
    · rw [ofNat_toNat_word, ofNat_toNat_word, gapBlocks_eq, hsub]
      exact hc.room
    · rw [ofNat_toNat_word, ofNat_toNat_word, gapBlocks_eq, hsub]
      exact hc.pages
  refine ⟨fun x h1 h2 => ?_, fun q hq => ?_⟩
  · rw [hc.live, h1, Bool.false_or, decide_eq_true_iff] at h2
    exact ⟨_, List.mem_singleton_self _, c, hgap, h2⟩
  · rw [List.mem_singleton.mp hq]
    refine ⟨c, hgap, fun x hx => ?_⟩
    rw [hc.live, decide_eq_true hx, Bool.or_true]

/-! ## Every request -/

/-- The pages that `assign_fpages_ext(-1, as, base, size, ...)` creates are in the pool that
`mempool_search` found, which holds the request, exactly if the sum does not go round and every gap
stays in the pool when it is rounded. -/
theorem assign_fpages_inside_pool (mm : Memmap) (s s' : Kernel) (as : Option AsRef)
    (base size : Word) (pf pl pf' pl' : Option FpRef) (ret : Int) (hwf : Wf s)
    (has : ∀ a, as = some a → s.liveAs a = true) (hsize : size ≠ 0#32)
    (h : assignFpagesExt mm s none as base size pf pl = .ok (ret, pf', pl', s')) :
    CreatedInPool mm s s' base size ↔ FitsPool mm s as base size := by
  cases hm : mempoolSearch mm base size with
  | none =>
    have hs := assignFpagesExt_refused hm h
    refine iff_of_true ⟨fun m hm' => ?_, fun x h1 h2 => ?_⟩ fun m hm' => ?_
    · rw [hm] at hm'
      simp at hm'
    · rw [hs, h1] at h2
      simp at h2
    · rw [hm] at hm'
      simp at hm'
  | some m =>
    have hchained : Chained mm m s s' (s.gaps as base (base + size)) := by
      cases as with
      | none => exact assignFpagesExt_chained_none hsize hm h
      | some a => exact assignFpagesExt_chained hwf (has a rfl) hsize hm h
    have hfound : ∀ {p : Nat → Prop}, (∀ m', mempoolSearch mm base size = some m' → p m') ↔
        p m := by
      intro p
      rw [hm]
      exact ⟨fun hp => hp m rfl, fun hp m' hm' => Option.some.inj hm' ▸ hp⟩
    unfold CreatedInPool FitsPool
    rw [hfound, hfound, mempoolSearch_holds hm, ← hchained.inPool]
    refine and_congr_right fun _ => forall_congr' fun x => ?_
    simp only [hm, Option.some.injEq, exists_eq_left']

/-- A request in a free space of the SRAM pool. -/
theorem assign_fpages_inside_pool_sram : ∃ s s' pf pl,
    (system (memmap stm32f4Board) stm32f4Board).Reachable (fun _ _ => True) s ∧
    assignFpagesExt (memmap stm32f4Board) s none (some 0) 0x20008080#32 0x300#32 none none =
      .ok (0, pf, pl, s') ∧
    CreatedInPool (memmap stm32f4Board) s s' 0x20008080#32 0x300#32 := by
  obtain ⟨s, s', pf, pl, hreach, hwf, hrun, hp⟩ := exists_assignRun
    [.asCreate 1#32] 0x20008080#32 0x300#32
    (fun s _ _ => decide (s.liveAs 0 = true ∧ s.pages 0 = [])) (by decide +kernel)
  obtain ⟨hlive, hpages⟩ := of_decide_eq_true hp
  refine ⟨s, s', pf, pl, hreach, hrun, (assign_fpages_inside_pool (memmap stm32f4Board) s s'
    (some 0) 0x20008080#32 0x300#32 none none pf pl 0 hwf
    (fun a ha => by rw [← Option.some.inj ha]; exact hlive) (by decide) hrun).mpr ?_⟩
  intro m hm
  have hsearch : mempoolSearch (memmap stm32f4Board) 0x20008080#32 0x300#32 = some 7 := by decide
  obtain rfl := Option.some.inj (hsearch.symm.trans hm)
  refine ⟨by decide, fun q hq => ?_⟩
  have hgaps : s.gaps (some 0) 0x20008080#32 (0x20008080#32 + 0x300#32) =
      [(0x20008080, 0x20008380)] := by
    unfold Kernel.gaps
    rw [Option.elim_some, hpages]
    rfl
  rw [hgaps, List.mem_singleton] at hq
  rw [hq]
  exact .inr ⟨by decide, by decide⟩

/-- The last 128 bytes of the AHB pool are rounded up to the 256 bytes behind it. And the sum for a
request of `0xffffffff` bytes goes round, so that `mempool_search` finds a pool for it. -/
theorem assign_fpages_past_pool :
    (∃ s s' pf pl, (system (memmap stm32f4Board) stm32f4Board).Reachable (fun _ _ => True) s ∧
      assignFpagesExt (memmap stm32f4Board) s none (some 0) 0x1000ff80#32 0x80#32 none none =
        .ok (0, pf, pl, s') ∧
      ¬ CreatedInPool (memmap stm32f4Board) s s' 0x1000ff80#32 0x80#32) ∧
    (mempoolSearch (memmap stm32f4Board) 0x60000100#32 0xffffffff#32 = some 16 ∧
      ¬ (mempoolGetbyid (memmap stm32f4Board) 16).Holds 0x60000100#32 0xffffffff#32) := by
  constructor
  · obtain ⟨s, s', pf, pl, hreach, _, hrun, hp⟩ := exists_assignRun
      [.asCreate 1#32] 0x1000ff80#32 0x80#32
      (fun s _ s' => decide (s.liveFp 2 = false ∧ s'.liveFp 2 = true ∧ (s'.fp 2).hi = 0x10010100))
      (by decide +kernel)
    obtain ⟨hold, hnew, hhi⟩ := of_decide_eq_true hp
    refine ⟨s, s', pf, pl, hreach, hrun, fun hin => ?_⟩
    obtain ⟨m, hm, _, hle⟩ := hin.2 2 hold hnew
    have hsearch : mempoolSearch (memmap stm32f4Board) 0x1000ff80#32 0x80#32 = some 9 := by decide
    obtain rfl := Option.some.inj (hsearch.symm.trans hm)
    rw [hhi] at hle
    exact absurd hle (by decide)
  · exact ⟨by decide, fun h => absurd h.2 (by decide)⟩

end F9
