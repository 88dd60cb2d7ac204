import F9.Logic.Cover
import F9.Logic.MpuRegions
import F9.Logic.Steps
import F9.Theorems.Rights

/-!
# What a thread switch programs

* `first_switch_order` — on the first switch of a space the regions are the stack pages, then the
  pages of `pc`, the pages that are always mapped and the others;
* `mpu_indices_in_range` — the indices of a switch and of the faults after it stay below eight if
  and only if the stack has fewer than eight pages.
-/

namespace F9

open Linked Result

variable {mm : Memmap} {s s' t : Kernel} {a : AsRef} {l m : List FpRef} {stack : List FpRef}
  {pc addr sp stackBase stackSize : Word}

/-! ## The first switch -/

/-- The pages that hold `pc`. -/
def pcPages (s : Kernel) (pc : Word) (l : List FpRef) : List FpRef :=
  l.filter fun x => addrInFpage pc (s.fp x) false

/-- The other pages that are always mapped. -/
def alwaysPages (s : Kernel) (pc : Word) (l : List FpRef) : List FpRef :=
  l.filter fun x => !addrInFpage pc (s.fp x) false && (s.fp x).hasFlag FPAGE_ALWAYS

/-- The rest of the pages. -/
def otherPages (s : Kernel) (pc : Word) (l : List FpRef) : List FpRef :=
  l.filter fun x => !addrInFpage pc (s.fp x) false && !(s.fp x).hasFlag FPAGE_ALWAYS

theorem mpuOrder_eq (s : Kernel) (pc : Word) (l : List FpRef) :
    mpuOrder s pc l = pcPages s pc l ++ alwaysPages s pc l ++ otherPages s pc l := by
  have hclass : ∀ (i : Fin 3) (p : FpRef → Bool),
      (∀ x, (mpuPriority pc (s.fp x) = i) ↔ p x = true) → mpuClass s pc i l = l.filter p := by
    intro i p hp
    refine List.filter_congr fun x _ => ?_
    rw [Bool.eq_iff_iff, decide_eq_true_eq]
    exact hp x
  refine congrArg₂ _ (congrArg₂ _ (hclass 0 _ fun x => ?_) (hclass 1 _ fun x => ?_))
    (hclass 2 _ fun x => ?_)
  all_goals
    unfold mpuPriority
    cases addrInFpage pc (s.fp x) false <;> cases (s.fp x).hasFlag FPAGE_ALWAYS <;> decide

theorem mem_mpuOrder {x : FpRef} : x ∈ mpuOrder s pc l ↔ x ∈ l := by
  rw [mpuOrder_eq]
  simp only [pcPages, alwaysPages, otherPages, List.mem_append, List.mem_filter]
  cases addrInFpage pc (s.fp x) false <;> cases (s.fp x).hasFlag FPAGE_ALWAYS <;> simp

theorem nodup_mpuOrder (pc : Word) (hnd : l.Nodup) : (mpuOrder s pc l).Nodup := by
  have hdis : ∀ i j, i ≠ j → ∀ x ∈ mpuClass s pc i l, ∀ y ∈ mpuClass s pc j l, x ≠ y := by
    rintro i j hij x hx y hy rfl
    unfold mpuClass at hx hy
    rw [List.mem_filter, decide_eq_true_eq] at hx hy
    exact hij (hx.2.symm.trans hy.2)
  have hcl : ∀ i, (mpuClass s pc i l).Nodup := fun i => hnd.filter _
  refine List.nodup_append.mpr ⟨List.nodup_append.mpr ⟨hcl 0, hcl 1, hdis 0 1 (by decide)⟩,
    hcl 2, fun x hx y hy => ?_⟩
  rcases List.mem_append.mp hx with hx | hx
  · exact hdis 0 2 (by decide) x hx y hy
  · exact hdis 1 2 (by decide) x hx y hy

/-- A switch of a space whose MPU list ends: the fifo is the front of that list without the stack
pages. -/
theorem collectRegions_eq (hnd : stack.Nodup) (h8 : stack.length < 8)
    (hm : Chain s.mpuNext (s.as a).mpuFirst m) (hlen : m.length < 9 * s.walkBound) :
    ∃ s', collectRegions mm s a stack = .ok s' ∧
      Switched mm s s' a stack ((m.filter (· ∉ stack)).take (8 - stack.length)) := by
  have hfifo : fifoFpages s stack (9 * s.walkBound) (s.as a).mpuFirst [] =
      .ok ((m.filter (· ∉ stack)).take (8 - stack.length)) := fifoFpages_eq m _ _ [] hm hlen
  refine ⟨_, bind_ok.mpr ⟨_, hfifo, ?_⟩, setupRegions_switched mm s a hnd (fun x hx => ?_) ?_⟩
  · rw [if_neg (by omega)]
    rfl
  · have := List.mem_filter.mp (List.mem_of_mem_take hx)
    simpa using this.2
  · have := List.length_take_le (8 - stack.length) (m.filter (· ∉ stack))
    omega

/-- The first thread switch of a space. With `S` the pages of the stack, the regions are the first
eight of `S` and then the pages of `pc`, the pages that are always mapped and the others without
those in `S`. -/
theorem first_switch_order (mm : Memmap) (sp pc stackBase stackSize : Word)
    (hl : Chain s.asNext (s.as a).first l) (hlt : ∀ x ∈ l, x < s.fpageTable.num)
    (hfirst : (s.as a).mpuFirst = none) (hnext : ∀ x ∈ l, s.mpuNext x = none)
    (hstack : (stackRun s (stackBase + stackSize) stackBase l).length < 8) :
    ∃ s' W, asSetupMpu mm s a sp pc stackBase stackSize = .ok s' ∧
      W = (stackRun s (stackBase + stackSize) stackBase l ++
        (pcPages s pc l ++ alwaysPages s pc l ++ otherPages s pc l).filter
          (· ∉ stackRun s (stackBase + stackSize) stackBase l)).take 8 ∧
      W.Nodup ∧ ∀ i < 8, s'.regionOf i = W[i]? ∧ s'.mpu i = mpuRegionFor mm s W[i]? := by
  have hlen : l.length < s.walkBound :=
    Nat.lt_succ_of_le (length_le_of_nodup_lt hl.nodup hlt)
  obtain ⟨u, hu, hrun⟩ := asSetupMpu_run mm sp pc stackBase stackSize hl hlen
  have hpages : stackPages s stackBase stackSize l =
      stackRun s (stackBase + stackSize) stackBase l := List.take_of_length_le (by omega)
  rw [hpages] at hu hrun
  rw [← mpuOrder_eq]
  have hnd : (stackRun s (stackBase + stackSize) stackBase l).Nodup :=
    (stackRun_sublist _ l _).nodup hl.nodup
  generalize stackRun s (stackBase + stackSize) stackBase l = S at *
  have horder := nodup_mpuOrder (s := s) pc hl.nodup
  -- no page has a link, so the new list ends behind its last page
  have hm : Chain u.mpuNext (u.as a).mpuFirst (mpuOrder s pc l) := by
    rcases hu.list with ⟨hne, _⟩ | ⟨_, hhead, hseg, _⟩
    · exact absurd hfirst hne
    · have hstale : (mpuClass s pc 2 l).getLast?.bind s.mpuNext = none := by
        cases hz : (mpuClass s pc 2 l).getLast? with
        | none => rfl
        | some z => exact hnext z (List.mem_filter.mp (List.mem_of_getLast? hz)).1
      rw [hhead]
      rw [hstale] at hseg
      exact hseg
  have hmlen : (mpuOrder s pc l).length < 9 * u.walkBound := by
    have hle : (mpuOrder s pc l).length ≤ s.fpageTable.num :=
      length_le_of_nodup_lt horder fun x hx => hlt x (mem_mpuOrder.mp hx)
    unfold Kernel.walkBound
    rw [hu.num]
    omega
  obtain ⟨s', hok, hsw⟩ := collectRegions_eq hnd hstack hm hmlen
  refine ⟨s', _, hrun.trans hok, rfl, ?_, fun i hi => ?_⟩
  · refine (List.take_sublist 8 _).nodup (List.nodup_append.mpr ⟨hnd, horder.filter _, ?_⟩)
    rintro x hx y hy rfl
    have := (List.mem_filter.mp hy).2
    exact absurd hx (by simpa using this)
  · have htake : (S ++ (mpuOrder s pc l).filter (· ∉ S)).take 8 =
        S ++ ((mpuOrder s pc l).filter (· ∉ S)).take (8 - S.length) := by
      rw [List.take_append, List.take_of_length_le (Nat.le_of_lt hstack)]
    have hfor : ∀ p, mpuRegionFor mm u p = mpuRegionFor mm s p := by
      intro p
      cases p with
      | none => rfl
      | some r =>
        unfold mpuRegionFor
        dsimp only
        rw [hu.page]
        rfl
    rw [htake, ← hfor]
    exact ⟨hsw.regions i hi, hsw.registers i hi⟩

/-- Three pages, of which the second holds the stack and the last `pc`: regions 0, 1 and 2 are the
second, the last and the first page. -/
theorem first_switch_order_three : ∃ s,
    (system (memmap stm32f4Board) stm32f4Board).Reachable (fun _ _ => True) s ∧
    Chain s.asNext (s.as 0).first [2, 3, 4] ∧ (s.as 0).mpuFirst = none ∧
    ∃ s' W, asSetupMpu (memmap stm32f4Board) s 0 0#32 0x20008210#32 0x20008100#32 0x100#32 = .ok s' ∧
      W = [3, 4, 2] ∧ W.Nodup ∧
      ∀ i < 8, s'.regionOf i = W[i]? ∧ s'.mpu i = mpuRegionFor (memmap stm32f4Board) s W[i]? := by
  obtain ⟨s, hreach, _, _, hp⟩ := exists_bootRun (pageCalls 3)
    (fun s => decide (s.fpageTable.num = 256 ∧ (s.as 0).mpuFirst = none ∧
      ((s.as 0).first = some 2 ∧ s.asNext 2 = some 3 ∧ s.asNext 3 = some 4 ∧ s.asNext 4 = none) ∧
      (s.mpuNext 2 = none ∧ s.mpuNext 3 = none ∧ s.mpuNext 4 = none) ∧
      stackRun s (0x20008100#32 + 0x100#32) 0x20008100#32 [2, 3, 4] = [3] ∧
      pcPages s 0x20008210#32 [2, 3, 4] = [4] ∧ alwaysPages s 0x20008210#32 [2, 3, 4] = [] ∧
      otherPages s 0x20008210#32 [2, 3, 4] = [2, 3])) (by decide +kernel)
  obtain ⟨hnum, hfirst, ⟨h1, h2, h3, h4⟩, hnext, hrun, hpc, hal, hot⟩ := of_decide_eq_true hp
  have hl : Chain s.asNext (s.as 0).first [2, 3, 4] := by simp [h1, h2, h3, h4]
  obtain ⟨s', W, hok, hW, hnd, hreg⟩ := first_switch_order (memmap stm32f4Board) 0#32 0x20008210#32
    0x20008100#32 0x100#32 hl (by simp [hnum]) hfirst
    (by simp [hnext]) (by rw [hrun]; decide)
  refine ⟨s, hreach, hl, hfirst, s', W, hok, ?_, hnd, hreg⟩
  rw [hW, hrun, hpc, hal, hot]
  decide

/-! ## Indices -/

theorem attrWord_fields : ∀ ux : Bool, ∀ shift < 32, 5 ≤ shift →
    attrWord ux shift &&& 1#32 ≠ 0#32 ∧
      ((attrWord ux shift >>> 1) &&& 0x1F#32).toNat + 1 = shift := by
  decide

theorem Fpage.Aligned.base_masked {f : Fpage} (hf : f.Aligned) (h5 : 5 ≤ f.shift) :
    f.base &&& MPU_REGION_MASK = f.base := by
  refine BitVec.eq_of_toNat_eq ((and_not_low (k := 5) (by decide) _).trans ?_)
  exact Nat.div_mul_cancel ((Nat.pow_dvd_pow 2 h5).trans hf.aligned)

theorem region_test (mm : Memmap) {f : Fpage} (hf : f.Aligned) (h5 : 5 ≤ f.shift) (addr : Word) :
    (decide (mpuAttr mm f &&& 1#32 ≠ 0#32) && decide (f.base ≤ addr) && decide
      (addr < f.base + 1#32 <<< (((mpuAttr mm f >>> 1) &&& 0x1F#32).toNat + 1))) =
      addrInFpage addr f false := by
  obtain ⟨hen, hsize⟩ := attrWord_fields (mempoolGetbyid mm f.mpid).userExecute f.shift hf.shift h5
  rw [mpuAttr_eq, hsize, decide_eq_true hen, Bool.true_and]
  unfold addrInFpage
  rw [Bool.false_and, Bool.or_false]
  rfl

/-- A region that was set up from a page covers the addresses of the page. -/
theorem addrInMpu_of_region {i : Nat} {r : FpRef} (hi : i < 8)
    (hreg : s.mpu i = mpuRegionFor mm s (some r)) (hf : (s.fp r).Sized)
    (hin : addrInFpage addr (s.fp r) false = true) : addrInMpu s addr = true := by
  have h5 : 5 ≤ (s.fp r).shift := Nat.le_trans (by decide) hf.grain
  unfold addrInMpu
  refine List.any_eq_true.mpr ⟨i, List.mem_range.mpr hi, ?_⟩
  dsimp only
  rw [hreg, mpuRegionFor, hf.base_masked h5, region_test mm hf.toAligned h5]
  exact hin

/-- The stack pages of the last switch are in the first regions and on a list of their own. -/
structure StackProgrammed (mm : Memmap) (s : Kernel) (a : AsRef) (stack l : List FpRef) : Prop where
  chain : Chain s.asNext (s.as a).first l
  bound : ∀ x ∈ l, x < s.fpageTable.num
  sized : ∀ x ∈ l, (s.fp x).Sized
  few : stack.length < 8
  mem : ∀ x ∈ stack, x ∈ l
  stackChain : Chain s.mpuNext (s.as a).mpuStackFirst stack
  registers : ∀ i x, stack[i]? = some x → s.mpu i = mpuRegionFor mm s (some x)

section

variable (h : StackProgrammed mm s a stack l)
include h

theorem StackProgrammed.length_lt : l.length < s.walkBound :=
  Nat.lt_succ_of_le (length_le_of_nodup_lt h.chain.nodup h.bound)

/-- A fault: the page that is found is not a stack page, for those are in the MPU. It goes into the
region behind them. -/
theorem StackProgrammed.fault {ret : Int} (hrun : mpuSelectLru mm s (some a) addr = .ok (ret, s')) :
    (s' = s ∧ (addrInMpu s addr = true ∨
      l.find? (fun x => addrInFpage addr (s.fp x) false) = none)) ∨
    ∃ fp, addrInMpu s addr = false ∧
      l.find? (fun x => addrInFpage addr (s.fp x) false) = some fp ∧ fp ∉ stack ∧
      Selected mm s s' a fp stack.length := by
  obtain hsame | ⟨fp, i, hout, hfind, hcount, hsel⟩ := mpuSelectLru_ok h.chain h.length_lt hrun
  · exact .inl hsame
  have hfpl : fp ∈ l := List.mem_of_find?_eq_some hfind
  have hin : addrInFpage addr (s.fp fp) false = true := by
    have := List.find?_some hfind
    exact this
  have hfp : fp ∉ stack := by
    intro hmem
    obtain ⟨j, hj, hget⟩ := List.mem_iff_getElem.mp hmem
    have hreg := h.registers j fp (by rw [List.getElem?_eq_getElem hj, hget])
    have := addrInMpu_of_region (Nat.lt_trans hj h.few) hreg (h.sized fp hfpl) hin
    rw [hout] at this
    exact Bool.false_ne_true this
  have hapart : ∀ x ∈ stack, x ≠ fp := fun x hx hxf => hfp (hxf ▸ hx)
  have hstill : Chain (s.setFp fp fun f => { f with mpuNext := (s.as a).mpuFirst }).mpuNext
      (s.as a).mpuStackFirst stack := by
    refine h.stackChain.congr fun x hx => ?_
    rw [mpuNext_setFp, if_neg (hapart x hx)]
  have hslen : stack.length < s.walkBound :=
    Nat.lt_succ_of_le (length_le_of_nodup_lt h.stackChain.nodup fun x hx => h.bound x (h.mem x hx))
  rw [stackCount_eq stack _ _ 0 hstill hslen, Nat.zero_add] at hcount
  injection hcount with hi
  subst hi
  have h8 := h.few
  exact .inr ⟨fp, hout, hfind, hfp, hsel (by omega)⟩

theorem StackProgrammed.selected {fp : FpRef} (hfp : fp ∉ stack)
    (hsel : Selected mm s s' a fp stack.length) : StackProgrammed mm s' a stack l := by
  refine ⟨?_, ?_, ?_, h.few, h.mem, ?_, ?_⟩
  · rw [hsel.space]
    refine h.chain.congr fun x _ => ?_
    unfold Kernel.asNext
    rw [hsel.page]
  · rw [hsel.num]
    exact h.bound
  · intro x hx
    rw [hsel.page]
    exact (h.sized x hx).congr rfl
  · rw [hsel.space]
    refine h.stackChain.congr fun x hx => ?_
    rw [hsel.link, if_neg fun hxf : x = fp => hfp (hxf ▸ hx)]
  · intro i x hx
    have hlt : i < stack.length := (List.getElem?_eq_some_iff.mp hx).1
    rw [hsel.registers, programAll_apply, if_neg (by omega), h.registers i x hx]
    unfold mpuRegionFor
    dsimp only
    rw [hsel.page]
    rfl

end

/-- Faults one after the other, in a thread of the space. -/
inductive Faults (mm : Memmap) (a : AsRef) (s : Kernel) : Kernel → Prop
  | refl : Faults mm a s s
  | step {t t' : Kernel} {addr : Word} {ret : Int} : Faults mm a s t →
      mpuSelectLru mm t (some a) addr = .ok (ret, t') → Faults mm a s t'

theorem StackProgrammed.faults (h : StackProgrammed mm s a stack l) (hrun : Faults mm a s t) :
    StackProgrammed mm t a stack l ∧
      ∃ new, t.mpuLog = new ++ s.mpuLog ∧ ∀ e ∈ new, e.1 < 8 := by
  induction hrun with
  | refl => exact ⟨h, [], rfl, by simp⟩
  | step _ hstep ih =>
    obtain ⟨hinv, new, hlog, hnew⟩ := ih
    obtain ⟨rfl, _⟩ | ⟨fp, _, _, hfp, hsel⟩ := hinv.fault hstep
    · exact ⟨hinv, new, hlog, hnew⟩
    obtain ⟨new', hlog', hnew'⟩ := hsel.log
    refine ⟨hinv.selected hfp hsel, new' ++ new, by rw [hlog', hlog, List.append_assoc],
      fun e he => ?_⟩
    rcases List.mem_append.mp he with he | he
    · have hlt := hnew' e he
      have h8 := hinv.few
      omega
    · exact hnew e he

/-- The fifo loop either ends or does not. -/
theorem fifoFpages_fault {e : Fault} (n : Nat) (p : Option FpRef) (mpu : List FpRef)
    (h : fifoFpages s stack n p mpu = .error e) : e = .hang := by
  induction n generalizing p mpu with
  | zero =>
    injection h with h
    exact h.symm
  | succ n ih =>
    cases p with
    | none => cases h
    | some fp =>
      unfold fifoFpages at h
      split at h
      · exact ih _ _ h
      · cases h

/-- A switch and the faults after it keep to the eight entries of `mpu` and to the eight regions. -/
def IndicesInRange (mm : Memmap) (s : Kernel) (a : AsRef) (sp pc stackBase stackSize : Word) :
    Prop :=
  asSetupMpu mm s a sp pc stackBase stackSize ≠ .error .outOfBounds ∧
    ∀ s' t, asSetupMpu mm s a sp pc stackBase stackSize = .ok s' → Faults mm a s' t →
      ∃ new, t.mpuLog = new ++ s.mpuLog ∧ ∀ e ∈ new, e.1 < 8

/-- The stack pages after a switch that returned. -/
theorem asSetupMpu_programmed (hl : Chain s.asNext (s.as a).first l)
    (hlt : ∀ x ∈ l, x < s.fpageTable.num) (hsized : ∀ x ∈ l, (s.fp x).Sized)
    (h : asSetupMpu mm s a sp pc stackBase stackSize = .ok s') :
    StackProgrammed mm s' a (stackPages s stackBase stackSize l) l ∧
      ∃ new, s'.mpuLog = new ++ s.mpuLog ∧ ∀ e ∈ new, e.1 < 8 := by
  obtain ⟨u, fifo, hu, hfew, _, hsw⟩ :=
    asSetupMpu_ok hl (Nat.lt_succ_of_le (length_le_of_nodup_lt hl.nodup hlt)) h
  have hpage : ∀ x, s'.fp x = { s.fp x with mpuNext := s'.mpuNext x } := by
    intro x
    rw [hsw.page, hu.page]
  have hspace : (s'.as a).first = (s.as a).first := by
    rw [hsw.space, hu.space]
  have hstack : (s'.as a).mpuStackFirst = (stackPages s stackBase stackSize l).head? := by
    rw [hsw.space, hu.space]
  refine ⟨⟨?_, ?_, ?_, hfew, ?_, ?_, ?_⟩, ?_⟩
  · rw [hspace]
    refine hl.congr fun x _ => ?_
    unfold Kernel.asNext
    rw [hpage]
  · rw [hsw.num, hu.num]
    exact hlt
  · intro x hx
    rw [hpage]
    exact (hsized x hx).congr rfl
  · exact fun x hx => (stackPages_sublist s stackBase stackSize l).subset hx
  · rw [hstack]
    exact hsw.stackChain
  · intro i x hx
    have hi : i < (stackPages s stackBase stackSize l).length :=
      (List.getElem?_eq_some_iff.mp hx).1
    rw [hsw.registers i (by omega), List.getElem?_append_left hi, hx]
    unfold mpuRegionFor
    dsimp only
    rw [hsw.page]
    rfl
  · obtain ⟨new, hlog, hnew⟩ := hsw.log
    exact ⟨new, by rw [hlog, hu.mpuLog], hnew⟩

/-- The indices of a switch and of the faults after it are in range if and only if the stack has
fewer than eight pages: with eight, `mpu[mpu_first_i]` is the entry behind the array. -/
theorem mpu_indices_in_range (mm : Memmap) (sp pc stackBase stackSize : Word)
    (hl : Chain s.asNext (s.as a).first l) (hlt : ∀ x ∈ l, x < s.fpageTable.num)
    (hsized : ∀ x ∈ l, (s.fp x).Sized) :
    IndicesInRange mm s a sp pc stackBase stackSize ↔
      (stackRun s (stackBase + stackSize) stackBase l).length < 8 := by
  have hlen : l.length < s.walkBound :=
    Nat.lt_succ_of_le (length_le_of_nodup_lt hl.nodup hlt)
  obtain ⟨u, _, hrun⟩ := asSetupMpu_run mm sp pc stackBase stackSize hl hlen
  have hpages : (stackPages s stackBase stackSize l).length =
      min 8 (stackRun s (stackBase + stackSize) stackBase l).length := List.length_take
  constructor
  · rintro ⟨hne, _⟩
    refine Nat.lt_of_not_le fun h8 => hne ?_
    have h8' : (stackPages s stackBase stackSize l).length = 8 := by omega
    -- the fifo loop does not start, and the entry behind the array is read
    have hfifo : fifoFpages u (stackPages s stackBase stackSize l) (9 * u.walkBound)
        (u.as a).mpuFirst [] = .ok [] := by
      unfold Kernel.walkBound
      rw [show 9 * (u.fpageTable.num + 1) = (9 * u.fpageTable.num + 8) + 1 by omega]
      cases (u.as a).mpuFirst with
      | none => rfl
      | some fp =>
        unfold fifoFpages
        rw [if_neg (by rw [h8']; decide)]
    rw [hrun]
    unfold collectRegions
    rw [hfifo]
    dsimp only [Bind.bind, Except.bind]
    rw [if_pos (Nat.le_of_eq h8'.symm)]
    rfl
  · intro h8
    refine ⟨?_, fun s' t hok hfaults => ?_⟩
    · rw [hrun]
      unfold collectRegions
      cases hfifo : fifoFpages u (stackPages s stackBase stackSize l) (9 * u.walkBound)
          (u.as a).mpuFirst [] with
      | error e =>
        rw [fifoFpages_fault _ _ _ hfifo]
        exact fun h => by cases h
      | ok fifo =>
        dsimp only [Bind.bind, Except.bind]
        rw [if_neg (by omega)]
        exact fun h => by cases h
    · obtain ⟨hinv, new, hlog, hnew⟩ := asSetupMpu_programmed hl hlt hsized hok
      obtain ⟨_, new', hlog', hnew'⟩ := hinv.faults hfaults
      refine ⟨new' ++ new, by rw [hlog', hlog, List.append_assoc], fun e he => ?_⟩
      rcases List.mem_append.mp he with he | he
      · exact hnew' e he
      · exact hnew e he

/-- A stack of three pages among nine: the switch programs eight, and a fault brings in the ninth. -/
theorem mpu_indices_three_pages : ∃ s s' t,
    (system (memmap stm32f4Board) stm32f4Board).Reachable (fun _ _ => True) s ∧
    Chain s.asNext (s.as 0).first (List.range' 2 9) ∧
    stackRun s (0x20008000#32 + 0x300#32) 0x20008000#32 (List.range' 2 9) = [2, 3, 4] ∧
    asSetupMpu (memmap stm32f4Board) s 0 0#32 0#32 0x20008000#32 0x300#32 = .ok s' ∧
    mpuSelectLru (memmap stm32f4Board) s' (some 0) 0x20008810#32 = .ok (0, t) ∧
    s'.regionOf 3 = some 5 ∧ t.regionOf 3 = some 10 ∧
    ∃ new, t.mpuLog = new ++ s.mpuLog ∧ ∀ e ∈ new, e.1 < 8 := by
  obtain ⟨s, hreach, _, hwf, hp⟩ := exists_bootRun (pageCalls 9)
    (fun s => decide (s.liveAs 0 = true ∧ s.pages 0 = List.range' 2 9 ∧ s.fpageTable.num = 256 ∧
        (∀ x ∈ List.range' 2 9, (s.fp x).Sized) ∧
        stackRun s (0x20008000#32 + 0x300#32) 0x20008000#32 (List.range' 2 9) = [2, 3, 4]) &&
      okWith (fun s' : Kernel => okWith (fun r : Int × Kernel => decide (r.1 = 0 ∧
          s'.regionOf 3 = some 5 ∧ r.2.regionOf 3 = some 10))
        (mpuSelectLru (memmap stm32f4Board) s' (some 0) 0x20008810#32))
      (asSetupMpu (memmap stm32f4Board) s 0 0#32 0#32 0x20008000#32 0x300#32)) (by decide +kernel)
  obtain ⟨hpages, hrun⟩ := Bool.and_eq_true_iff.mp hp
  obtain ⟨hlive, hlist, hnum, hsized, hstack⟩ := of_decide_eq_true hpages
  obtain ⟨s', hswitch, hrun⟩ := okWith_iff.mp hrun
  obtain ⟨⟨ret, t⟩, hfault, hrun⟩ := okWith_iff.mp hrun
  obtain ⟨rfl, hbefore, hafter⟩ := of_decide_eq_true hrun
  have hl := hwf.chain 0 hlive
  rw [hlist] at hl
  have hlt : ∀ x ∈ List.range' 2 9, x < s.fpageTable.num := by
    rw [hnum]
    decide
  have hrange := (mpu_indices_in_range (memmap stm32f4Board) 0#32 0#32 0x20008000#32 0x300#32
    hl hlt hsized).mpr (by rw [hstack]; decide)
  exact ⟨s, s', t, hreach, hl, hstack, hswitch, hfault, hbefore, hafter,
    hrange.2 s' t hswitch (.step .refl hfault)⟩

/-- A stack of eight pages: the head of the MPU list is read from `mpu[8]`. -/
theorem mpu_indices_eight_pages : ∃ s,
    (system (memmap stm32f4Board) stm32f4Board).Reachable (fun _ _ => True) s ∧ Quiet s ∧
    ¬ IndicesInRange (memmap stm32f4Board) s 0 0#32 0#32 0x20008000#32 0x800#32 := by
  obtain ⟨s, hreach, hq, _, hp⟩ := exists_bootRun (pageCalls 8)
    (fun s => failsWith .outOfBounds
      (asSetupMpu (memmap stm32f4Board) s 0 0#32 0#32 0x20008000#32 0x800#32)) (by decide +kernel)
  exact ⟨s, hreach, hq, fun h => h.1 (failsWith_iff.mp hp)⟩

end F9
