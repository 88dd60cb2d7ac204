import F9.Logic.Frames
import F9.Logic.MpuLinks

/-!
# Programming the MPU

`as_setup_mpu` and `mpu_select_lru` read the list of a space and its MPU list,
relink the latter and program regions. `MpuStep s s' a T` collects what they
may do when the MPU list of `a` stays within `T`: only MPU links of pages of
`T` and the MPU heads of `a` change, and every region that is set up from a
page is set up from a page of `T`.
-/

namespace F9

open Linked Result

variable {l stack : List FpRef} {p last res : Option FpRef}
  {pc addr stop sp stackBase stackSize : Word} {mm : Memmap}

/-- The list of `a` holds pages of `A` only. -/
structure AsIn (s : Kernel) (a : AsRef) (A : Set FpRef) : Prop where
  head : ∀ r, (s.as a).first = some r → r ∈ A
  next : ∀ x ∈ A, ∀ r, s.asNext x = some r → r ∈ A

theorem AsIn.of_chain {s : Kernel} {a : AsRef} (h : Chain s.asNext (s.as a).first l) :
    AsIn s a {x | x ∈ l} :=
  ⟨fun _ hr => List.mem_of_mem_head? (h.head_eq.symm.trans hr), fun _ hx _ hr => h.next_mem hx hr⟩

/-- Steps of the MPU routines for the space `a` over the pages `T`. -/
structure MpuStep (s s' : Kernel) (a : AsRef) (T : Set FpRef) : Prop where
  num : s'.fpageTable.num = s.fpageTable.num
  live : ∀ x, s'.liveFp x = s.liveFp x
  sharing : s'.sharing = s.sharing
  kipFpage : s'.kipFpage = s.kipFpage
  kipExtraFpage : s'.kipExtraFpage = s.kipExtraFpage
  junk : s'.junk = s.junk
  fp : ∀ x, s'.fp x = { s.fp x with mpuNext := s'.mpuNext x }
  as : ∀ b, s'.as b = { s.as b with
    mpuFirst := (s'.as b).mpuFirst, mpuStackFirst := (s'.as b).mpuStackFirst }
  as_ne : ∀ b, b ≠ a → s'.as b = s.as b
  frame : ∀ x, x ∉ T → s'.mpuNext x = s.mpuNext x
  inside : MpuIn s a T → MpuIn s' a T
  log : ∃ new, s'.mpuLog = new ++ s.mpuLog ∧ ∀ e ∈ new, ∀ r, e.2 = some r → r ∈ T

section

variable {s s' t : Kernel} {a : AsRef} {A T : Set FpRef} {next : Option FpRef}

theorem MpuStep.refl (s : Kernel) (a : AsRef) (T : Set FpRef) : MpuStep s s a T :=
  ⟨rfl, fun _ => rfl, rfl, rfl, rfl, rfl, fun _ => rfl, fun _ => rfl, fun _ _ => rfl,
    fun _ _ => rfl, id, [], rfl, by simp⟩

theorem MpuStep.trans (h1 : MpuStep s s' a T) (h2 : MpuStep s' t a T) : MpuStep s t a T := by
  obtain ⟨new1, hlog1, hin1⟩ := h1.log
  obtain ⟨new2, hlog2, hin2⟩ := h2.log
  refine ⟨h2.num.trans h1.num, fun x => (h2.live x).trans (h1.live x),
    h2.sharing.trans h1.sharing, h2.kipFpage.trans h1.kipFpage,
    h2.kipExtraFpage.trans h1.kipExtraFpage, h2.junk.trans h1.junk, ?_, ?_, ?_, ?_,
    fun h => h2.inside (h1.inside h), new2 ++ new1, ?_, ?_⟩
  · intro x
    rw [h2.fp, h1.fp]
  · intro b
    rw [h2.as, h1.as]
  · intro b hb
    rw [h2.as_ne b hb, h1.as_ne b hb]
  · intro x hx
    rw [h2.frame x hx, h1.frame x hx]
  · rw [hlog2, hlog1, List.append_assoc]
  · intro e he
    rcases List.mem_append.mp he with he | he
    · exact hin2 e he
    · exact hin1 e he

theorem mpuNext_setFp (s : Kernel) (r x : FpRef) (p : Option FpRef) :
    (s.setFp r fun f => { f with mpuNext := p }).mpuNext x =
      if x = r then p else s.mpuNext x := by
  unfold Kernel.mpuNext
  rw [Kernel.setFp_fp]
  by_cases hx : x = r
  · rw [if_pos hx, if_pos hx]
  · rw [if_neg hx, if_neg hx]

/-- Relinking a page of `T` to a page of `T` or to `NULL`. -/
theorem MpuStep.setNext (s : Kernel) (a : AsRef) {r : FpRef} (hr : r ∈ T)
    (hp : ∀ q, p = some q → q ∈ T) :
    MpuStep s (s.setFp r fun f => { f with mpuNext := p }) a T := by
  refine ⟨rfl, fun _ => rfl, rfl, rfl, rfl, rfl, ?_, fun _ => rfl, fun _ _ => rfl, ?_, ?_, [],
    rfl, by simp⟩
  · intro x
    rw [mpuNext_setFp, Kernel.setFp_fp]
    by_cases hx : x = r
    · rw [if_pos hx, if_pos hx, hx]
    · rw [if_neg hx, if_neg hx]
      rfl
  · intro x hx
    rw [mpuNext_setFp, if_neg (fun hxr : x = r => hx (hxr ▸ hr))]
  · intro h
    refine ⟨h.head, ?_⟩
    intro x hx q hq
    rw [mpuNext_setFp] at hq
    by_cases hxr : x = r
    · rw [if_pos hxr] at hq
      exact hp q hq
    · rw [if_neg hxr] at hq
      exact h.next x hx q hq

/-- Writing the heads of the MPU lists, with a page of `T` or `NULL` as the first. -/
theorem MpuStep.setHeads (s : Kernel) (a : AsRef) {f : AddressSpace → AddressSpace}
    (hf : ∀ b, f b = { b with mpuFirst := (f b).mpuFirst, mpuStackFirst := (f b).mpuStackFirst })
    (hp : MpuIn s a T → ∀ q, (f (s.as a)).mpuFirst = some q → q ∈ T) :
    MpuStep s (s.setAs a f) a T := by
  refine ⟨rfl, fun _ => rfl, sharing_setAs ?_, rfl, rfl, rfl, fun _ => rfl, ?_, ?_,
    fun _ _ => rfl, ?_, [], rfl, by simp⟩
  · rw [hf]
  · intro b
    rw [Kernel.setAs_as]
    by_cases hb : b = a
    · rw [if_pos hb, hb]
      exact hf _
    · rw [if_neg hb]
  · intro b hb
    exact Kernel.setAs_as_ne _ _ hb
  · intro h
    refine ⟨fun q hq => ?_, h.next⟩
    rw [Kernel.setAs_as_self] at hq
    exact hp h q hq

theorem MpuStep.setFirst (s : Kernel) (a : AsRef) (hp : ∀ q, p = some q → q ∈ T) :
    MpuStep s (s.setAs a fun b => { b with mpuFirst := p }) a T :=
  .setHeads s a (fun _ => rfl) fun _ => hp

theorem MpuStep.region (mm : Memmap) (s : Kernel) (a : AsRef) (n : Nat)
    (hp : ∀ q, p = some q → q ∈ T) : MpuStep s (mpuSetupRegion mm s n p) a T := by
  refine ⟨rfl, fun _ => rfl, rfl, rfl, rfl, rfl, fun _ => rfl, fun _ => rfl,
    fun _ _ => rfl, fun _ _ => rfl, fun h => ⟨h.head, h.next⟩, [(n, p)], rfl, ?_⟩
  intro e he r hr
  rw [List.mem_singleton.mp he] at hr
  exact hp r hr

theorem MpuStep.liveAs (h : MpuStep s s' a T) (b : AsRef) : s'.liveAs b = s.liveAs b :=
  liveAs_of_sharing h.sharing b

theorem MpuStep.asNext (h : MpuStep s s' a T) (x : FpRef) : s'.asNext x = s.asNext x := by
  unfold Kernel.asNext
  rw [h.fp]

theorem MpuStep.first (h : MpuStep s s' a T) (b : AsRef) :
    (s'.as b).first = (s.as b).first := by
  rw [h.as]

/-! ## Thread switches -/

theorem stackFpages_mem (hA : ∀ x ∈ A, ∀ r, s.asNext x = some r → r ∈ A) (hAT : A ⊆ T) (n : Nat)
    (p : Option FpRef) (start : Word) (mpu res : List FpRef) (hp : ∀ q, p = some q → q ∈ A)
    (hmT : ∀ x ∈ mpu, x ∈ T) (h : stackFpages s stop n p start mpu = .ok res) :
    ∀ x ∈ res, x ∈ T := by
  induction n generalizing p start mpu res with
  | zero => simp [stackFpages] at h
  | succ n ih =>
    cases p with
    | none =>
      simp only [stackFpages, Except.ok.injEq] at h
      subst h
      exact hmT
    | some fp =>
      have hnext := hA fp (hp fp rfl)
      unfold stackFpages at h
      split at h
      · split at h
        · refine ih _ _ _ _ hnext ?_ h
          intro x hx
          rcases List.mem_append.mp hx with hx | hx
          · exact hmT x hx
          · rw [List.mem_singleton.mp hx]
            exact hAT (hp fp rfl)
        · exact ih _ _ _ _ hnext hmT h
      · injection h with h
        subst h
        exact hmT

/-- Heads and tails of the classes are pages of `T`. -/
def MpuClasses.In (c : MpuClasses) (T : Set FpRef) : Prop :=
  ∀ i, (∀ q, c.first i = some q → q ∈ T) ∧ ∀ q, c.last i = some q → q ∈ T

theorem MpuClasses.In.push {c : MpuClasses} (h : c.In T) (priv : Fin 3) {fp : FpRef}
    (hfp : fp ∈ T) : MpuClasses.In
      { first := fun i => if i = priv then c.first i <|> some fp else c.first i
        last := fun i => if i = priv then some fp else c.last i } T := by
  intro i
  refine ⟨?_, ?_⟩
  · intro q hq
    dsimp only at hq
    by_cases hi : i = priv
    · rw [if_pos hi] at hq
      cases hf : c.first i with
      | none =>
        rw [hf] at hq
        injection hq with hq
        exact hq ▸ hfp
      | some y =>
        rw [hf] at hq
        injection hq with hq
        exact hq ▸ (h i).1 y hf
    · rw [if_neg hi] at hq
      exact (h i).1 q hq
  · intro q hq
    dsimp only at hq
    by_cases hi : i = priv
    · rw [if_pos hi] at hq
      injection hq with hq
      exact hq ▸ hfp
    · rw [if_neg hi] at hq
      exact (h i).2 q hq

theorem classify_step (hAT : A ⊆ T) (n : Nat) (s s' : Kernel) (p : Option FpRef) (c c' : MpuClasses)
    (hA : ∀ x ∈ A, ∀ r, s.asNext x = some r → r ∈ A) (hp : ∀ q, p = some q → q ∈ A) (hc : c.In T)
    (h : classify pc n s p c = .ok (c', s')) : MpuStep s s' a T ∧ c'.In T := by
  induction n generalizing s s' p c c' with
  | zero => simp [classify] at h
  | succ n ih =>
    cases p with
    | none =>
      obtain ⟨rfl, rfl⟩ := h
      exact ⟨.refl _ _ _, hc⟩
    | some fp =>
      have hfp : fp ∈ T := hAT (hp fp rfl)
      -- what the rest of the loop does from the state `s1` after this page
      have hrest : ∀ s1, MpuStep s s1 a T →
          classify pc n s1 (s1.fp fp).asNext
            { first := fun i => if i = mpuPriority pc (s.fp fp)
                then c.first i <|> some fp else c.first i
              last := fun i => if i = mpuPriority pc (s.fp fp) then some fp else c.last i } =
            .ok (c', s') → MpuStep s s' a T ∧ c'.In T := by
        intro s1 h1 h
        have hA1 : ∀ x ∈ A, ∀ r, s1.asNext x = some r → r ∈ A := by
          intro x hx r hr
          rw [h1.asNext] at hr
          exact hA x hx r hr
        obtain ⟨h2, hc'⟩ := ih s1 s' _ _ c' hA1 (hA1 fp (hp fp rfl)) (hc.push _ hfp) h
        exact ⟨h1.trans h2, hc'⟩
      unfold classify at h
      dsimp only at h
      cases hfirst : c.first (mpuPriority pc (s.fp fp)) with
      | none =>
        rw [hfirst] at h
        exact hrest s (.refl _ _ _) h
      | some y =>
        rw [hfirst] at h
        obtain ⟨z, hz, h⟩ := bind_ok.mp h
        rw [deref_ok] at hz
        have hzT : z ∈ T := (hc _).2 z hz
        refine hrest _ (MpuStep.setNext s a hzT ?_) h
        intro q hq
        injection hq with hq
        exact hq ▸ hfp

theorem joinClass_step {first : Option FpRef} (hf : ∀ q, first = some q → q ∈ T)
    (hl : ∀ q, last = some q → q ∈ T) (hn : ∀ q, next = some q → q ∈ T)
    (h : joinClass s first last next = .ok (res, s')) :
    MpuStep s s' a T ∧ ∀ q, res = some q → q ∈ T := by
  cases first with
  | none =>
    obtain ⟨rfl, rfl⟩ := h
    exact ⟨.refl _ _ _, hn⟩
  | some y =>
    obtain ⟨z, hz, h⟩ := bind_ok.mp h
    rw [deref_ok] at hz
    obtain ⟨h1, h2⟩ := pure_pair.mp h
    subst h1 h2
    exact ⟨MpuStep.setNext s a (hl z hz) hn, hf⟩

theorem buildMpuList_step (hA : AsIn s a A) (hAT : A ⊆ T) (h : buildMpuList s a pc = .ok s') :
    MpuStep s s' a T := by
  obtain ⟨⟨c, s1⟩, h1, h⟩ := bind_ok.mp h
  obtain ⟨⟨first1, s2⟩, h2, h⟩ := bind_ok.mp h
  obtain ⟨⟨first0, s3⟩, h3, h⟩ := bind_ok.mp h
  obtain ⟨hs1, hc⟩ := classify_step (a := a) hAT _ _ _ _ _ _ hA.next hA.head
    (fun i => by constructor <;> (intro q hq; exact absurd hq (by simp))) h1
  obtain ⟨hs2, hf1⟩ := joinClass_step (a := a) (hc 1).1 (hc 1).2 (hc 2).1 h2
  obtain ⟨hs3, hf0⟩ := joinClass_step (a := a) (hc 0).1 (hc 0).2 hf1 h3
  have := pure_ok.mp h
  subst this
  exact ((hs1.trans hs2).trans hs3).trans (MpuStep.setFirst s3 a hf0)

theorem fifoFpages_mem (hin : ∀ x ∈ T, ∀ r, s.mpuNext x = some r → r ∈ T) (n : Nat)
    (p : Option FpRef) (mpu res : List FpRef) (hp : ∀ q, p = some q → q ∈ T) (hm : ∀ x ∈ mpu, x ∈ T)
    (h : fifoFpages s stack n p mpu = .ok res) : ∀ x ∈ res, x ∈ T := by
  induction n generalizing p mpu res with
  | zero => simp [fifoFpages] at h
  | succ n ih =>
    cases p with
    | none =>
      simp only [fifoFpages, Except.ok.injEq] at h
      subst h
      exact hm
    | some fp =>
      have hfp := hp fp rfl
      unfold fifoFpages at h
      split at h
      · refine ih _ _ _ (hin fp hfp) ?_ h
        intro x hx
        split at hx
        · exact hm x hx
        · rcases List.mem_append.mp hx with hx | hx
          · exact hm x hx
          · rw [List.mem_singleton.mp hx]
            exact hfp
      · injection h with h
        subst h
        exact hm

theorem head?_mem (hl : ∀ x ∈ l, x ∈ T) : ∀ q, l.head? = some q → q ∈ T :=
  fun q hq => hl q (List.mem_of_mem_head? hq)

theorem setupStackRegions_step (mm : Memmap) (a : AsRef) (l : List FpRef) (s : Kernel) (j : Nat)
    (hl : ∀ x ∈ l, x ∈ T) : MpuStep s (setupStackRegions mm s j l) a T := by
  induction l generalizing s j with
  | nil => exact .refl _ _ _
  | cons r rest ih =>
    have hr : r ∈ T := hl r List.mem_cons_self
    have hrest : ∀ x ∈ rest, x ∈ T := fun x hx => hl x (List.mem_cons_of_mem _ hx)
    refine (MpuStep.region mm s a j ?_).trans
      ((MpuStep.setNext _ a hr (head?_mem hrest)).trans (ih _ (j + 1) hrest))
    intro q hq
    injection hq with hq
    exact hq ▸ hr

theorem setupFifoRegions_step (mm : Memmap) (a : AsRef) (l : List FpRef) (s : Kernel) (j : Nat)
    (hl : ∀ x ∈ l, x ∈ T) : MpuStep s (setupFifoRegions mm s j l) a T := by
  induction l generalizing s j with
  | nil => exact .refl _ _ _
  | cons r rest ih =>
    have hr : r ∈ T := hl r List.mem_cons_self
    have hrest : ∀ x ∈ rest, x ∈ T := fun x hx => hl x (List.mem_cons_of_mem _ hx)
    have hreg : MpuStep s (mpuSetupRegion mm s j (some r)) a T := by
      refine MpuStep.region mm s a j fun q hq => ?_
      injection hq with hq
      exact hq ▸ hr
    cases rest with
    | nil => exact hreg.trans (ih _ (j + 1) hrest)
    | cons nx rest =>
      refine hreg.trans ((MpuStep.setNext _ a hr ?_).trans (ih _ (j + 1) hrest))
      intro q hq
      injection hq with hq
      exact hq ▸ hrest nx List.mem_cons_self

theorem cleanRegions_step (mm : Memmap) (a : AsRef) (n : Nat) (s : Kernel) (j : Nat) :
    MpuStep s (cleanRegions mm s j n) a T := by
  induction n generalizing s j with
  | zero => exact .refl _ _ _
  | succ n ih =>
    exact (MpuStep.region mm s a j (by simp)).trans (ih _ (j + 1))

/-- `as_setup_mpu` programs pages of the space only, if its MPU list holds only
those. -/
theorem asSetupMpu_step (hA : AsIn s a A) (hAT : A ⊆ T) (hin : MpuIn s a T)
    (h : asSetupMpu mm s a sp pc stackBase stackSize = .ok s') : MpuStep s s' a T := by
  obtain ⟨stack, hstack, h⟩ := bind_ok.mp h
  have hst := stackFpages_mem hA.next hAT _ _ _ _ _ hA.head (by simp) hstack
  have h1 : MpuStep s (s.setAs a fun b => { b with mpuStackFirst := stack.head? }) a T :=
    .setHeads s a (fun _ => rfl) fun hin => hin.head
  generalize (s.setAs a fun b => { b with mpuStackFirst := stack.head? }) = s1 at h h1
  -- the rest of the routine, once there is an MPU list
  have hrest : ∀ s2, MpuStep s s2 a T → (do
      let fifo ← fifoFpages s2 stack (9 * s2.walkBound) (s2.as a).mpuFirst []
      if 8 ≤ stack.length then throw Fault.outOfBounds
      let s := s2.setAs a fun b => { b with mpuFirst := fifo.head? }
      let s := setupStackRegions mm s 0 stack
      let s := setupFifoRegions mm s stack.length fifo
      let used := stack.length + fifo.length
      return cleanRegions mm s used (8 - used) : Except Fault Kernel) = .ok s' →
      MpuStep s s' a T := by
    intro s2 h2 h
    obtain ⟨fifo, hfifo, h⟩ := bind_ok.mp h
    have hin2 := h2.inside hin
    have hf := fifoFpages_mem hin2.next _ _ _ _ hin2.head (by simp) hfifo
    by_cases hlen : 8 ≤ stack.length
    · rw [if_pos hlen] at h
      exact absurd h throw_ok
    · rw [if_neg hlen] at h
      have := pure_ok.mp h
      subst this
      exact (((h2.trans (MpuStep.setFirst s2 a (head?_mem hf))).trans
        (setupStackRegions_step mm a stack _ 0 hst)).trans
        (setupFifoRegions_step mm a fifo _ _ hf)).trans (cleanRegions_step mm a _ _ _)
  dsimp only at h
  cases hfirst : (s1.as a).mpuFirst with
  | some y =>
    rw [hfirst] at h
    obtain ⟨_, hs2, h⟩ := bind_ok.mp h
    rw [← pure_ok.mp hs2] at h
    exact hrest s1 h1 h
  | none =>
    rw [hfirst] at h
    obtain ⟨s2, hbuild, h⟩ := bind_ok.mp h
    have hA1 : AsIn s1 a A := by
      refine ⟨by rw [h1.first]; exact hA.head, fun x hx r hr => ?_⟩
      rw [h1.asNext] at hr
      exact hA.next x hx r hr
    exact hrest s2 (h1.trans (buildMpuList_step hA1 hAT hbuild)) h

/-! ## Memory faults -/

theorem lruSearch_mem (hA : ∀ x ∈ A, ∀ r, s.asNext x = some r → r ∈ A) (n : Nat)
    (p res : Option FpRef) (hp : ∀ q, p = some q → q ∈ A) (h : lruSearch s addr n p = .ok res) :
    ∀ q, res = some q → q ∈ A := by
  induction n generalizing p res with
  | zero => simp [lruSearch] at h
  | succ n ih =>
    cases p with
    | none =>
      simp only [lruSearch, Except.ok.injEq] at h
      rw [← h]
      simp
    | some fp =>
      unfold lruSearch at h
      split at h
      · injection h with h
        rw [← h]
        exact hp
      · exact ih _ res (hA fp (hp fp rfl)) h

theorem lruProgram_step (mm : Memmap) (a : AsRef) (n : Nat) (s : Kernel) (i : Nat) (fp : FpRef)
    (hfp : fp ∈ T) (hin : ∀ x ∈ T, ∀ r, s.mpuNext x = some r → r ∈ T) :
    MpuStep s (lruProgram mm n s i fp) a T := by
  induction n generalizing s i fp with
  | zero => exact .refl _ _ _
  | succ n ih =>
    unfold lruProgram
    cases hnx : (s.fp fp).mpuNext with
    | none => exact .refl _ _ _
    | some nx =>
      have hnxT : nx ∈ T := hin fp hfp nx hnx
      have hreg : MpuStep s (mpuSetupRegion mm s i (some nx)) a T := by
        refine MpuStep.region mm s a i fun q hq => ?_
        injection hq with hq
        exact hq ▸ hnxT
      exact hreg.trans (ih _ (i + 1) nx hnxT hin)

theorem mpuSelectLru_step {ret : Int} (hA : AsIn s a A) (hAT : A ⊆ T) (hin : MpuIn s a T)
    (h : mpuSelectLru mm s (some a) addr = .ok (ret, s')) : MpuStep s s' a T := by
  unfold mpuSelectLru at h
  dsimp only at h
  split at h
  · obtain ⟨_, h2⟩ := pure_pair.mp h
    subst h2
    exact .refl _ _ _
  · obtain ⟨res, hsearch, h⟩ := bind_ok.mp h
    cases res with
    | none =>
      obtain ⟨_, h2⟩ := pure_pair.mp h
      subst h2
      exact .refl _ _ _
    | some fp =>
      have hfp : fp ∈ T := hAT (lruSearch_mem hA.next _ _ _ hA.head hsearch fp rfl)
      obtain ⟨i, _, h⟩ := bind_ok.mp h
      obtain ⟨_, h2⟩ := pure_pair.mp h
      subst h2
      have hself : ∀ q, some fp = some q → q ∈ T := by
        intro q hq
        injection hq with hq
        exact hq ▸ hfp
      have h1 := MpuStep.setNext s a hfp hin.head
      have h2 := h1.trans (MpuStep.setFirst _ a hself)
      have h3 := h2.trans (MpuStep.region mm _ a i hself)
      exact h3.trans (lruProgram_step mm a _ _ _ fp hfp (h3.inside hin).next)

end

end F9
