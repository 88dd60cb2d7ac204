import F9.Kernel.System
import F9.Logic.Blocks
import F9.Lib.Result

/-!
# Building fpage chains

What `create_fpage` and `create_fpage_chain` do to the state: fresh slots are
filled, one for each block of the request, linked in order; nothing else
changes (`Built`). The statements are about runs that return; a full table
ends in the assertion of `create_fpage`.
-/

namespace F9

open Linked Result

variable {s s' t u s1 : Kernel} {r : FpRef} {mm : Memmap} {base size : Word} {mpid shift k : Nat}
  {prev plast pf pl pfirst : Option FpRef}

/-! ## Frames -/

/-- Two states that differ in the fpage table only. -/
structure SameRest (s s' : Kernel) : Prop where
  asTable : s'.asTable = s.asTable
  kipFpage : s'.kipFpage = s.kipFpage
  kipExtraFpage : s'.kipExtraFpage = s.kipExtraFpage
  mpu : s'.mpu = s.mpu
  mpuLog : s'.mpuLog = s.mpuLog
  junk : s'.junk = s.junk
  num : s'.fpageTable.num = s.fpageTable.num

theorem SameRest.refl (s : Kernel) : SameRest s s := ⟨rfl, rfl, rfl, rfl, rfl, rfl, rfl⟩

theorem SameRest.trans (h1 : SameRest s t) (h2 : SameRest t u) : SameRest s u :=
  ⟨h2.asTable.trans h1.asTable, h2.kipFpage.trans h1.kipFpage,
    h2.kipExtraFpage.trans h1.kipExtraFpage, h2.mpu.trans h1.mpu,
    h2.mpuLog.trans h1.mpuLog, h2.junk.trans h1.junk, h2.num.trans h1.num⟩

theorem SameRest.setFp (s : Kernel) (r : FpRef) (f : Fpage → Fpage) :
    SameRest s (s.setFp r f) := ⟨rfl, rfl, rfl, rfl, rfl, rfl, rfl⟩

theorem SameRest.freeFp (s : Kernel) (r : FpRef) : SameRest s (s.freeFp r) :=
  ⟨rfl, rfl, rfl, rfl, rfl, rfl, rfl⟩

theorem SameRest.as (h : SameRest s s') (a : AsRef) : s'.as a = s.as a := by
  unfold Kernel.as
  rw [h.asTable]

theorem SameRest.liveAs (h : SameRest s s') (a : AsRef) : s'.liveAs a = s.liveAs a := by
  unfold Kernel.liveAs
  rw [h.asTable]

/-! ## Allocation -/

/-- A successful `ktable_alloc(&fpage_table)`. -/
structure Allocated (s s' : Kernel) (r : FpRef) : Prop where
  rest : SameRest s s'
  fresh : s.liveFp r = false
  lt : r < s.fpageTable.num
  live : ∀ x, s'.liveFp x = (s.liveFp x || decide (x = r))
  fp : ∀ x, s'.fp x = s.fp x

theorem allocFp_spec (h : s.allocFp = some (r, s')) : Allocated s s' r := by
  unfold Kernel.allocFp at h
  split at h
  · simp at h
  · rename_i x kt halloc
    obtain ⟨rfl, rfl⟩ := h
    obtain ⟨h1, h2, h3, h4, h5⟩ := KTable.alloc_spec halloc
    exact ⟨⟨rfl, rfl, rfl, rfl, rfl, rfl, h3⟩, h1, h2, h5, fun y => congrFun h4 y⟩

/-- A successful `create_fpage`. -/
structure Created (mm : Memmap) (s s' : Kernel) (r : FpRef) (base : Word)
    (shift mpid : Nat) : Prop where
  rest : SameRest s s'
  fresh : s.liveFp r = false
  live : ∀ x, s'.liveFp x = (s.liveFp x || decide (x = r))
  page : s'.fp r = freshFpage mm r base shift mpid
  frame : ∀ x, x ≠ r → s'.fp x = s.fp x

theorem createFpage_spec (h : createFpage mm s base shift mpid = .ok (r, s')) :
    Created mm s s' r base shift mpid := by
  unfold createFpage at h
  split at h
  · simp at h
  · rename_i x s1 halloc
    obtain ⟨rfl, rfl⟩ := h
    have ha := allocFp_spec halloc
    refine ⟨ha.rest.trans (.setFp _ _ _), ha.fresh, ha.live, by simp, ?_⟩
    intro y hy
    rw [Kernel.setFp_fp_ne _ _ hy, ha.fp]

/-! ## Chains -/

/-- The chain `c` of fresh pages, one for each block, has been added and
linked to the page `prev`, if there is one. -/
structure Grown (mm : Memmap) (mpid : Nat) (s s' : Kernel) (prev : Option FpRef)
    (blocks : List (Word × Nat)) (c : List FpRef) : Prop where
  rest : SameRest s s'
  fresh : ∀ r ∈ c, s.liveFp r = false
  live : ∀ r, s'.liveFp r = (s.liveFp r || decide (r ∈ c))
  chain : Chain s'.asNext c.head? c
  pages : List.Forall₂ (fun r b => s'.fp r =
    { freshFpage mm r b.1 b.2 mpid with asNext := s'.asNext r }) c blocks
  frame : ∀ r, r ∉ c → some r ≠ prev → s'.fp r = s.fp r
  link : ∀ p, prev = some p → s'.fp p = { s.fp p with asNext := c.head? }

/-- A chain of its own. -/
abbrev Built (mm : Memmap) (mpid : Nat) (s s' : Kernel) (blocks : List (Word × Nat))
    (c : List FpRef) : Prop := Grown mm mpid s s' none blocks c

/-- `fpage->as_next = ...` when there is a page before. -/
def linkPrev (s : Kernel) (prev : Option FpRef) (r : FpRef) : Kernel :=
  match prev with
  | none => s
  | some p => s.setFp p fun f => { f with asNext := some r }

theorem linkPrev_rest (s : Kernel) (prev : Option FpRef) (r : FpRef) :
    SameRest s (linkPrev s prev r) := by
  cases prev with
  | none => exact .refl s
  | some p => exact SameRest.setFp s p fun f => { f with asNext := some r }

theorem linkPrev_live (s : Kernel) (prev : Option FpRef) (r x : FpRef) :
    (linkPrev s prev r).liveFp x = s.liveFp x := by
  cases prev <;> rfl

theorem linkPrev_fp_ne (s : Kernel) {x : FpRef} (h : some x ≠ prev) :
    (linkPrev s prev r).fp x = s.fp x := by
  cases prev with
  | none => rfl
  | some p => exact s.setFp_fp_ne _ (fun hx => h (by rw [hx]))

theorem Grown.nil (hprev : ∀ p, prev = some p → (s.fp p).asNext = none) :
    Grown mm mpid s s prev [] [] := by
  refine ⟨.refl s, by simp, by simp, by simp, .nil, fun _ _ _ => rfl, ?_⟩
  intro p hp
  rw [List.head?_nil, ← hprev p hp]

/-- One page is created, linked to `prev`, and the rest of the chain grows
from it. -/
theorem Grown.cons {b : Word} {blocks : List (Word × Nat)} {c : List FpRef}
    (hprev : ∀ p, prev = some p → s.liveFp p = true) (hcr : Created mm s s1 r b k mpid)
    (h : Grown mm mpid (linkPrev s1 prev r) s' (some r) blocks c) :
    Grown mm mpid s s' prev ((b, k) :: blocks) (r :: c) := by
  have hpr : some r ≠ prev := by
    rintro rfl
    exact ne_true_of_eq_false hcr.fresh (hprev r rfl)
  have hpage : (linkPrev s1 prev r).fp r = freshFpage mm r b k mpid := by
    rw [linkPrev_fp_ne s1 hpr, hcr.page]
  have hlive : ∀ x, (linkPrev s1 prev r).liveFp x = (s.liveFp x || decide (x = r)) := by
    intro x
    rw [linkPrev_live, hcr.live]
  have hlink := h.link r rfl
  have hnext : s'.asNext r = c.head? := by
    unfold Kernel.asNext
    rw [hlink]
  refine ⟨(hcr.rest.trans (linkPrev_rest _ _ _)).trans h.rest, ?_, ?_, ?_, ?_, ?_, ?_⟩
  · intro x hx
    rcases List.mem_cons.mp hx with rfl | hx
    · exact hcr.fresh
    · have := h.fresh x hx
      rw [hlive, Bool.or_eq_false_iff] at this
      exact this.1
  · intro x
    rw [h.live, hlive, Bool.or_assoc]
    simp [List.mem_cons]
  · rw [List.head?_cons, chain_cons, hnext]
    exact ⟨rfl, h.chain⟩
  · refine .cons ?_ h.pages
    rw [hnext, hlink, hpage]
  · intro x hx hxp
    rw [List.mem_cons, not_or] at hx
    rw [h.frame x hx.2 (by simpa using hx.1), linkPrev_fp_ne s1 hxp, hcr.frame x hx.1]
  · rintro p rfl
    have hp := hprev p rfl
    have hpne : p ≠ r := fun hp => hpr (by rw [hp])
    have hpc : p ∉ c := by
      intro hpc
      have := h.fresh p hpc
      rw [hlive, hp] at this
      simp at this
    rw [h.frame p hpc (by simpa using hpne), List.head?_cons, ← hcr.frame p hpne]
    exact s1.setFp_fp_self p _

theorem createChainLoop_zero (n : Nat) (pfirst plast : Option FpRef) :
    createChainLoop mm mpid n s base 0#32 prev pfirst plast = .ok (pfirst, plast, s) := by
  unfold createChainLoop
  rw [if_pos rfl]

/-- One pass: with a first page or without, the loop goes on from the new page, linked to `prev`. -/
theorem createChainLoop_succ (n : Nat) (hs : size ≠ 0#32) (hfirst : pfirst = none ↔ prev = none) :
    createChainLoop mm mpid (n + 1) s base size prev pfirst plast =
      (createFpage mm s base (chainShift base size) mpid).bind fun p =>
        createChainLoop mm mpid n (linkPrev p.2 prev p.1) (base + 1#32 <<< chainShift base size)
          (size - 1#32 <<< chainShift base size) (some p.1) (pfirst <|> some p.1) (some p.1) := by
  conv_lhs => unfold createChainLoop
  rw [if_neg hs]
  cases pfirst with
  | none =>
    rw [hfirst.mp rfl]
    rfl
  | some first =>
    cases prev with
    | none => exact absurd (hfirst.mpr rfl) (by simp)
    | some p => rfl

/-- The loop of `create_fpage_chain`, from any of its states. -/
theorem createChainLoop_spec : ∀ (n : Nat) (s s' : Kernel)
    (base size : Word) (prev pfirst plast pf pl : Option FpRef),
    (∀ p, prev = some p → s.liveFp p = true ∧ (s.fp p).asNext = none) →
    (pfirst = none ↔ prev = none) →
    createChainLoop mm mpid n s base size prev pfirst plast = .ok (pf, pl, s') →
    ∃ c, Grown mm mpid s s' prev (chainBlocks n base size) c ∧
      pf = (pfirst <|> c.head?) ∧ pl = (c.getLast? <|> plast) := by
  intro n s s' base size prev pfirst plast pf pl hprev hfirst h
  by_cases hs : size = 0#32
  · rw [hs, createChainLoop_zero] at h
    obtain ⟨rfl, rfl, rfl⟩ := h
    refine ⟨[], ?_, by simp, by simp⟩
    rw [hs, chainBlocks_zero]
    exact .nil fun p hp => (hprev p hp).2
  · cases n with
    | zero =>
      unfold createChainLoop at h
      simp [hs] at h
    | succ n =>
      rw [createChainLoop_succ n hs hfirst] at h
      obtain ⟨⟨r, s1⟩, hc, h⟩ := bind_ok.mp h
      have hcr := createFpage_spec hc
      have hlive : (linkPrev s1 prev r).liveFp r = true := by
        rw [linkPrev_live, hcr.live]
        simp
      have hnone : ((linkPrev s1 prev r).fp r).asNext = none := by
        rw [linkPrev_fp_ne s1, hcr.page]
        · rfl
        · rintro rfl
          exact ne_true_of_eq_false hcr.fresh ((hprev r rfl).1)
      obtain ⟨c, hg, hf, hl⟩ := createChainLoop_spec n _ s' _ _ (some r) _ (some r) pf pl
        (by rintro p hp; injection hp with hp; subst hp; exact ⟨hlive, hnone⟩)
        (by cases pfirst <;> simp) h
      refine ⟨r :: c, ?_, ?_, ?_⟩
      · rw [chainBlocks_succ n hs]
        exact .cons (fun p hp => (hprev p hp).1) hcr hg
      · rw [hf]
        cases pfirst <;> rfl
      · rw [hl]
        cases c with
        | nil => rfl
        | cons x c =>
          rfl

theorem createFpageChain_new
    (h : createFpageChain mm s base size mpid none plast = .ok (pf, pl, s')) :
    ∃ c, Built mm mpid s s' (chainBlocks size.toNat base size) c ∧
      pf = c.head? ∧ pl = (c.getLast? <|> plast) := by
  obtain ⟨c, hg, hf, hl⟩ := createChainLoop_spec _ _ _ _ _ _ _ _ _ _ (by simp) Iff.rfl h
  exact ⟨c, hg, by simpa using hf, hl⟩

/-- The case where both pointers are `NULL`, as most callers have it. -/
theorem createFpageChain_spec
    (h : createFpageChain mm s base size mpid none none = .ok (pf, pl, s')) :
    ∃ c, Built mm mpid s s' (chainBlocks size.toNat base size) c ∧
      pf = c.head? ∧ pl = c.getLast? := by
  obtain ⟨c, hg, hf, hl⟩ := createFpageChain_new h
  refine ⟨c, hg, hf, ?_⟩
  rw [hl]
  cases c.getLast? <;> rfl

end F9
