import F9.Logic.Gaps
import F9.Logic.Steps

/-!
# Pools without an fpage type

`mempool_align` marks a pool that must not be mapped by returning
`INVALID_FPAGE_REGION`. Nobody looks at the mark: it goes into
`create_fpage_chain` as base and as size. The chain from `0xffffffff` on goes once
round the whole address space and takes more pages than the table has, so a request
that needs a new page ends in the assertion of `create_fpage`. A request that needs
none returns 0.
-/

namespace F9

open Linked

variable {mm : Memmap} {s s' : Kernel} {a : AsRef} {l : List FpRef} {base size : Word} {q : Nat}

/-! ## Assigning -/

theorem assignFpagesExt_wrapped (hsize : size ≠ 0#32)
    (hpool : mempoolSearch mm base size = some q) (hlt : ¬ base < base + size) :
    assignFpagesExt mm s none (some a) base size none none = .ok (0, none, none, s) := by
  have hm : (none <|> mempoolSearch mm base size) = some q := by
    rw [hpool]
    rfl
  have hloop : ∀ n, assignLoop mm q a (base + size) (n + 1)
      { s := s, fp := .first, base := base, pfirst := none, plast := none } =
      .ok { s := s, fp := .first, base := base, pfirst := none, plast := none } := by
    intro n
    unfold assignLoop
    rw [if_neg hlt]
  unfold assignFpagesExt
  rw [if_neg hsize]
  simp only [hm]
  unfold Kernel.walkBound
  rw [hloop]
  show (if base < base + size then _ else _) = _
  rw [if_neg hlt]
  rfl

/-- On a space that has no page at `base` the call does not return: the first page of
the request would have to be created. -/
theorem assignFpagesExt_untyped {pf pl : Option FpRef} {ret : Int}
    (hl : Chain s.asNext (s.as a).first l) (hlive : ∀ x ∈ l, s.liveFp x = true)
    (hnum : s.fpageTable.num = configMaxFpages) (hsize : size ≠ 0#32)
    (hpool : mempoolSearch mm base size = some q)
    (hno : (mempoolGetbyid mm q).mappable = false) (hlt : base < base + size)
    (hfree : ∀ x ∈ l, addrInFpage base (s.fp x) false = false) :
    assignFpagesExt mm s none (some a) base size none none ≠ .ok (ret, pf, pl, s') := by
  intro h
  rcases assignFpagesExt_rule
      (I := fun m st done rest => m = q → st.s = s ∧ st.base = base ∧ done ++ rest = l)
      hl hlive (fun _ _ => ⟨rfl, rfl, rfl⟩)
      (fun m st st' done cur rest c hI _ hg hm => by
        subst hm
        obtain ⟨s1, hb, _⟩ := hg.effect
        rw [(hI rfl).1] at hb
        have := hb.typed hnum
        rw [hno] at this
        exact absurd this (by decide))
      (fun m st done cur rest hI _ h1 h2 hm => by
        obtain ⟨es, eb, el⟩ := hI hm
        rw [es, eb] at h1 h2
        have hin : addrInFpage base (s.fp cur) false = true := by
          unfold addrInFpage
          rw [decide_eq_true (BitVec.not_lt.mp h1), decide_eq_true h2]
          rfl
        rw [hfree cur (by rw [← el]; simp)] at hin
        exact absurd hin (by decide))
      (fun m st done cur rest hI _ _ _ hm => by
        obtain ⟨es, eb, el⟩ := hI hm
        exact ⟨es, eb, by rw [← el]; simp⟩) h with
    ⟨hret, _⟩ | ⟨_, _, m, st, done, rest, hm, _, _, hI, hend⟩
  · have := assignFpagesExt_ret hsize hpool (.inl rfl) h
    rw [hret] at this
    exact absurd this (by decide)
  · have hmq : m = q := by
      rw [hpool] at hm
      injection hm with hm
      exact hm.symm
    obtain ⟨es, eb, _⟩ := hI hmq
    rcases hend with ⟨hstop, _⟩ | ⟨_, _, s1, c, hb, _⟩
    · rw [eb] at hstop
      exact hstop hlt
    · rw [es, hmq] at hb
      have := hb.typed hnum
      rw [hno] at this
      exact absurd this (by decide)

/-! ## The three calls -/

/-- The call fails and leaves no trace: `-1`, with all address spaces and the fpage
table as before. -/
structure Refused (s s' : Kernel) (ret : Int) : Prop where
  ret : ret = -1
  spaces : s'.asTable = s.asTable
  pages : s'.fpageTable = s.fpageTable

/-- For a pool without an fpage type, `assign_fpages_ext` and `assign_fpages` refuse no
request. On a space that has no page at `base` they do not return, and neither does the
privileged `map_area`; that call refuses a range that goes round. -/
theorem untyped_pool_not_refused (mm : Memmap) (s : Kernel) (base size : Word) {q : Nat}
    (hsize : size ≠ 0#32) (hpool : mempoolSearch mm base size = some q)
    (hno : (mempoolGetbyid mm q).mappable = false) :
    (∀ mp as pf pl ret pf' pl' s', mp = none ∨ mp = some q →
      assignFpagesExt mm s mp as base size pf pl = .ok (ret, pf', pl', s') →
      ¬ Refused s s' ret) ∧
    (∀ as ret s', assignFpages mm s as base size = .ok (ret, s') → ¬ Refused s s' ret) ∧
    (Wf s → s.fpageTable.num = configMaxFpages → base < base + size →
      ∀ src, s.liveAs src = true →
      (∀ x ∈ s.pages src, addrInFpage base (s.fp x) false = false) →
      (∀ v, assignFpages mm s (some src) base size ≠ .ok v) ∧
      (∀ dst action v, mapArea mm s src dst base size action true ≠ .ok v)) ∧
    (¬ base < base + size → ∀ src dst action, src ≠ dst →
      mapArea mm s src dst base size action true = .ok (-1, s)) := by
  have hext : ∀ mp as pf pl ret pf' pl' s', mp = none ∨ mp = some q →
      assignFpagesExt mm s mp as base size pf pl = .ok (ret, pf', pl', s') →
      ¬ Refused s s' ret := by
    intro mp as pf pl ret pf' pl' s' hmp h href
    have := assignFpagesExt_ret hsize hpool hmp h
    rw [href.ret] at this
    exact absurd this (by decide)
  refine ⟨hext, ?_, ?_, ?_⟩
  · intro as ret s' h
    obtain ⟨⟨r, f, l, s1⟩, h1, h⟩ := Result.bind_ok.mp h
    obtain ⟨rfl, rfl⟩ := Prod.mk.inj (Result.pure_ok.mp h)
    exact hext _ _ _ _ _ _ _ _ (.inl rfl) h1
  · intro hwf hnum hlt src hsrc hfree
    have hnot : ∀ ret pf pl s1,
        assignFpagesExt mm s none (some src) base size none none ≠ .ok (ret, pf, pl, s1) :=
      fun _ _ _ _ => assignFpagesExt_untyped (hwf.chain src hsrc) (hwf.live src hsrc) hnum hsize
        hpool hno hlt hfree
    refine ⟨fun v h => ?_, fun dst action v h => ?_⟩
    · obtain ⟨⟨r, f, l, s1⟩, h1, _⟩ := Result.bind_ok.mp h
      exact hnot _ _ _ _ h1
    · obtain ⟨span, s1, hspan, _⟩ := mapArea_ok h
      obtain ⟨r, f, l, h1, _⟩ := mapAreaSpan_true hspan
      exact hnot _ _ _ _ h1
  · intro hlt src dst action hne
    have hspan : mapAreaSpan mm s src dst base size true = .ok (.span none none, s) := by
      unfold mapAreaSpan
      rw [if_pos rfl, assignFpagesExt_wrapped hsize hpool hlt]
      show (if src = dst then _ else _) = _
      rw [if_neg hne]
      rfl
    exact Result.bind_ok.mpr ⟨_, hspan, rfl⟩

/-- A request for kernel text in a new address space. -/
theorem untyped_pool_not_refused_kernelText : ∃ s,
    (system (memmap stm32f4Board) stm32f4Board).Reachable (fun _ _ => True) s ∧
    (∀ v, assignFpages (memmap stm32f4Board) s (some 0) 0x08001000#32 0x100#32 ≠ .ok v) ∧
    ∀ dst action v,
      mapArea (memmap stm32f4Board) s 0 dst 0x08001000#32 0x100#32 action true ≠ .ok v := by
  obtain ⟨s, hreach, _, hwf, hp⟩ := exists_bootRun
    [.asCreate 1#32] (fun s => decide (s.liveAs 0 = true ∧ s.pages 0 = [] ∧
      s.fpageTable.num = configMaxFpages)) (by decide +kernel)
  obtain ⟨hlive, hnil, hnum⟩ := of_decide_eq_true hp
  obtain ⟨-, -, h, -⟩ := untyped_pool_not_refused (memmap stm32f4Board) s 0x08001000#32 0x100#32
    (q := 0) (by decide) (by decide) (by decide)
  exact ⟨s, hreach, h hwf hnum (by decide) 0 hlive (by rw [hnil]; simp)⟩

/-- The request ends in the assertion; a request that goes round returns 0. -/
theorem untyped_pool_panics : ∃ s,
    (system (memmap stm32f4Board) stm32f4Board).Reachable (fun _ _ => True) s ∧
    assignFpages (memmap stm32f4Board) s (some 0) 0x08001000#32 0x100#32 = .error .panic ∧
    mapArea (memmap stm32f4Board) s 0 1 0x08001000#32 0x100#32 .map true = .error .panic ∧
    ∃ s', assignFpages (memmap stm32f4Board) s (some 0) 0x08001000#32 0xffffff00#32 =
      .ok (0, s') := by
  obtain ⟨s, hreach, _, _, hp⟩ := exists_bootRun
    [.asCreate 1#32, .asCreate 2#32] (fun s =>
      Result.failsWith .panic
        (assignFpages (memmap stm32f4Board) s (some 0) 0x08001000#32 0x100#32) &&
      Result.failsWith .panic
        (mapArea (memmap stm32f4Board) s 0 1 0x08001000#32 0x100#32 .map true) &&
      Result.okWith (fun v : Int × Kernel => decide (v.1 = 0))
        (assignFpages (memmap stm32f4Board) s (some 0) 0x08001000#32 0xffffff00#32))
    (by decide +kernel)
  rw [Bool.and_eq_true, Bool.and_eq_true, Result.failsWith_iff, Result.failsWith_iff,
    Result.okWith_iff] at hp
  obtain ⟨⟨h1, h2⟩, ⟨r, s'⟩, h3, hr⟩ := hp
  obtain rfl : r = 0 := of_decide_eq_true hr
  exact ⟨s, hreach, h1, h2, s', h3⟩

end F9
