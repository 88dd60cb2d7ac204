import F9.Logic.Handed
import F9.Logic.MpuSetup

/-!
# Runs of the memory subsystem

Boot and the calls one by one: `threadInitSubsys` leaves no address space and
only pages that nothing maps; every call keeps the lists of the spaces well
formed (`step_wf`), in particular along every run.
-/

namespace F9

open Linked Result

variable {caller : Option (AsRef × Bool)} {op : MemOp} {C : Kernel → FpRef → Prop} {m : Nat}
  {bl : List (Word × Nat)} {c : List FpRef} {space : Option AsRef} {utcb : Word}
  {ok : Kernel → MemOp → Bool}

/-- The space in which a call may cut or unmap pages. -/
def MemOp.cuts : MemOp → AsRef → Prop
  | .threadSpace caller _ _ _, a => ∃ c ∈ caller, a = c.1
  | .mapArea src _ _ _ _ _, a => a = src
  | .unmapFpage as _, a | .splitFpage as _ _ _, a => a = as
  | _, _ => False

/-- The call takes a slot of `as_table`. -/
def MemOp.creates : MemOp → Bool
  | .asCreate _ | .threadSpace _ none _ _ => true
  | _ => false

/-- What a call does to the lists: primitive effects, on the state as it is, on
one with a new space, or on one with a space that has one more user; the
destruction of a space; or one of the MPU routines. -/
inductive Effect (mm : Memmap) (C : Kernel → FpRef → Prop) (op : MemOp) :
    Kernel → Kernel → Prop
  | prims {s s'} : Prims mm op.cuts C s s' → Effect mm C op s s'
  | created {s s1 s' a id} : op.creates = true → AsCreated s s1 a id →
      Prims mm op.cuts C s1 s' → Effect mm C op s s'
  | shared {s s'} (a : AsRef) : Prims mm op.cuts C
      (s.setAs a fun a => { a with shared := a.shared + 1 }) s' → Effect mm C op s s'
  | destroyed {s s' a} : op = .asDestroy a → s.liveAs a = true → asDestroy s a = .ok s' →
      Effect mm C op s s'
  | mpu {s s' a} : s.liveAs a = true →
      (∀ T : Set FpRef, (∀ x ∈ s.pages a, x ∈ T) → MpuIn s a T → MpuStep s s' a T) →
      Effect mm C op s s'

variable {mm : Memmap} {s s' : Kernel}

/-! ## Boot -/

/-- Pages that are created outside of any address space. -/
theorem assignFpagesExt_kernel {base size : Word} {pl f l : Option FpRef} {ret : Int}
    (h : assignFpagesExt mm s none none base size none pl = .ok (ret, f, l, s')) :
    ∃ m n b sz c, Built mm m s s' (chainBlocks n b sz) c ∧ f = c.head? := by
  rcases assignFpagesExt_refuses h with ⟨_, rfl, _, rfl⟩ | ⟨hs, m, hm⟩
  · refine ⟨0, 0, 0#32, 0#32, [], ?_, rfl⟩
    exact .nil (by simp)
  · unfold assignFpagesExt at h
    rw [if_neg hs, hm] at h
    obtain ⟨⟨pf, pl', s1⟩, hc, h⟩ := bind_ok.mp h
    have := pure_ok.mp h
    obtain ⟨_, rfl, _, rfl⟩ := this
    obtain ⟨c, hb, hf, _⟩ := createFpageChain_new hc
    exact ⟨m, _, _, _, c, hb, hf⟩

/-- The state after boot: no address space, and pages as `create_fpage` leaves
them. -/
structure Booted (mm : Memmap) (junk : Nat → Bool) (s : Kernel) : Prop where
  liveAs : ∀ a, s.liveAs a = false
  junk : s.junk = junk
  num : s.fpageTable.num = configMaxFpages
  page : ∀ x, s.liveFp x = true → ∃ m n b sz, ∃ bk ∈ chainBlocks n b sz,
    s.fp x = { freshFpage mm x bk.1 bk.2 m with asNext := s.asNext x }
  kip : ∀ r, s.kipFpage = some r → s.liveFp r = true
  kipExtra : ∀ r, s.kipExtraFpage = some r → s.liveFp r = true

theorem Built.live_head (h : Built mm m s s' bl c) {r : FpRef} (hr : c.head? = some r) :
    s'.liveFp r = true := by
  rw [h.live]
  simp [List.mem_of_mem_head? hr]

theorem Built.page (h : Built mm m s s' bl c) {x : FpRef} (hx : x ∈ c) :
    ∃ bk ∈ bl, s'.fp x = { freshFpage mm x bk.1 bk.2 m with asNext := s'.asNext x } := by
  obtain ⟨i, hi, rfl⟩ := List.mem_iff_getElem.mp hx
  have hlen := h.pages.length_eq
  refine ⟨bl[i], List.getElem_mem _, ?_⟩
  exact (List.forall₂_iff_get.mp h.pages).2 i hi (hlen ▸ hi)

variable {junk : Nat → Bool}

theorem threadInitSubsys_booted {b : Board} (h : threadInitSubsys mm b (emptyKernel junk) = .ok s) :
    Booted mm junk s := by
  obtain ⟨⟨r1, f1, l1, s1⟩, h1, h⟩ := bind_ok.mp h
  obtain ⟨⟨r2, f2, l2, s2⟩, h2, h⟩ := bind_ok.mp h
  have := pure_ok.mp h
  subst this
  obtain ⟨m1, n1, b1, z1, c1, hb1, hf1⟩ := assignFpagesExt_kernel h1
  obtain ⟨m2, n2, b2, z2, c2, hb2, hf2⟩ := assignFpagesExt_kernel h2
  have hrest := hb1.rest.trans hb2.rest
  have hlive : ∀ x, s2.liveFp x = (decide (x ∈ c1) || decide (x ∈ c2)) := by
    intro x
    have h0 : (emptyKernel junk).liveFp x = false := by
      show (decide (x < configMaxFpages) && (0 : Nat).testBit x) = false
      simp
    rw [hb2.live, hb1.live, h0, Bool.false_or]
  refine ⟨?_, hrest.junk, hrest.num, ?_, ?_, ?_⟩
  · intro a
    show s2.liveAs a = false
    rw [hrest.liveAs]
    show (decide (a < configMaxAdressSpaces) && (0 : Nat).testBit a) = false
    simp
  · intro x hx
    have hx : s2.liveFp x = true := hx
    by_cases hx2 : x ∈ c2
    · obtain ⟨bk, hbk, hpage⟩ := hb2.page hx2
      exact ⟨m2, n2, b2, z2, bk, hbk, hpage⟩
    · have hx1 : x ∈ c1 := by
        rw [hlive] at hx
        simpa [hx2] using hx
      obtain ⟨bk, hbk, hpage⟩ := hb1.page hx1
      refine ⟨m1, n1, b1, z1, bk, hbk, ?_⟩
      have hkeep : s2.fp x = s1.fp x := hb2.frame x hx2 (by simp)
      show s2.fp x = { freshFpage mm x bk.1 bk.2 m1 with asNext := (s2.fp x).asNext }
      rw [hkeep]
      exact hpage
  · intro r hr
    have hr1 : s1.liveFp r = true := hb1.live_head (hf1 ▸ hr)
    show s2.liveFp r = true
    rw [hb2.live, hr1, Bool.true_or]
  · intro r hr
    exact hb2.live_head (hf2 ▸ hr)

theorem Booted.wf (h : Booted mm junk s) : Wf s := by
  have hno : ∀ a, ¬ s.liveAs a = true := by
    intro a ha
    rw [h.liveAs] at ha
    simp at ha
  exact ⟨fun a ha => absurd ha (hno a), fun a ha => absurd ha (hno a),
    fun a _ ha => absurd ha (hno a)⟩

/-! ## The MPU routines -/

section Mpu

variable {a : AsRef} {T : Set FpRef}

theorem MpuStep.lists {L : AsRef → List FpRef} (h : MpuStep s s' a T) (hL : Lists s L) :
    Lists s' L := by
  refine hL.same h.liveAs ?_ ?_
  · intro b
    rw [h.as]
  · intro b hb r hr
    exact ⟨(h.live r).trans (hL.live b hb r hr), h.asNext r⟩

theorem MpuStep.quiet (h : MpuStep s s' a T) (hq : Quiet s) : Quiet s' := by
  unfold Quiet
  rw [h.junk]
  exact hq

end Mpu

/-! ## `thread_space` -/

/-- The space `thread_space` works on: a new one with the two KIP grants, or
one that is shared once more. -/
def SpaceReady (s s1 : Kernel) (space : Option AsRef) (globalid : Word) (as : AsRef) : Prop :=
  (space = none ∧ ∃ s0 t, AsCreated s s0 as globalid ∧
    mapFpage s0 as s0.kipFpage .grant = .ok t ∧
    mapFpage t as t.kipExtraFpage .grant = .ok s1) ∨
  (space = some as ∧ s1 = s.setAs as fun a => { a with shared := a.shared + 1 })

/-- The second half of `thread_space`: the UTCB, from the caller or from the
kernel. -/
theorem utcbGrant_ok {as : AsRef} {utcb : Word} (h : (match caller with
      | some (callerAs, priv) => do
        let (_, s) ← mapArea mm s callerAs as utcb sizeofUtcb .grant priv
        return s
      | none => do
        let (_, s) ← mapArea mm s as as utcb sizeofUtcb .grant true
        return s : Except Fault Kernel) = .ok s') :
    ∃ ret, mapArea mm s ((caller.map Prod.fst).getD as) as utcb sizeofUtcb .grant
      ((caller.map Prod.snd).getD true) = .ok (ret, s') := by
  cases caller with
  | none => exact bind_snd_ok h
  | some c => exact bind_snd_ok h

theorem threadSpace_ok {globalid utcb : Word}
    (h : threadSpace mm s caller space globalid utcb = .ok s') :
    ∃ as s1 ret, SpaceReady s s1 space globalid as ∧
      mapArea mm s1 ((caller.map Prod.fst).getD as) as utcb sizeofUtcb .grant
        ((caller.map Prod.snd).getD true) = .ok (ret, s') := by
  cases space with
  | none =>
    obtain ⟨⟨as, s0⟩, hc, h⟩ := bind_ok.mp h
    obtain ⟨t, hm1, h⟩ := bind_ok.mp h
    obtain ⟨s1, hm2, h⟩ := bind_ok.mp h
    obtain ⟨⟨as', s1'⟩, hp, h⟩ := bind_ok.mp h
    have := pure_ok.mp hp
    obtain ⟨rfl, rfl⟩ := this
    obtain ⟨ret, hmap⟩ := utcbGrant_ok h
    exact ⟨as, s1, ret, .inl ⟨rfl, s0, t, asCreate_spec hc, hm1, hm2⟩, hmap⟩
  | some as =>
    obtain ⟨⟨as', s1⟩, hready, h⟩ := bind_ok.mp h
    have := pure_ok.mp hready
    obtain ⟨rfl, rfl⟩ := this
    obtain ⟨ret, hmap⟩ := utcbGrant_ok h
    exact ⟨as, _, ret, .inr ⟨rfl, rfl⟩, hmap⟩

/-! ## Calls -/

/-- The pages that a call clones satisfy `C`: the page of `map_fpage`, the two
KIP pages for a new space, and those of `map_area`, called as such or for the
UTCB. -/
structure ClonesOk (mm : Memmap) (C : Kernel → FpRef → Prop) (s : Kernel) (op : MemOp) :
    Prop where
  fpage : ∀ dst r action, op = .mapFpage dst r action → C s r
  kip : ∀ as id s0 r, op.creates = true → AsCreated s s0 as id → s.kipFpage = some r → C s0 r
  kipExtra : ∀ as id s0 t r f q, op.creates = true → AsCreated s s0 as id →
    s.kipFpage = some r → Cloned s0 t as r f .grant (s0.pages as) →
    s.kipExtraFpage = some q → C t q
  area : ∀ src dst base size action priv ret s',
    op = .mapArea src dst base size action priv →
    mapArea mm s src dst base size action priv = .ok (ret, s') → Prims mm op.cuts C s s'
  utcb : ∀ c space id utcb as s1 ret s', op = .threadSpace (some c) space id utcb →
    SpaceReady s s1 space id as → Quiet s1 → Wf s1 → s1.liveAs c.1 = true →
    s1.liveAs as = true → mapArea mm s1 c.1 as utcb sizeofUtcb .grant c.2 = .ok (ret, s') →
    Prims mm op.cuts C s1 s'

theorem ClonesOk.any (hq : Quiet s) (hwf : Wf s) (hv : op.valid s) :
    ClonesOk mm (fun _ _ => True) s op where
  fpage _ _ _ _ := trivial
  kip _ _ _ _ _ _ _ := trivial
  kipExtra _ _ _ _ _ _ _ _ _ _ _ _ := trivial
  area := by
    rintro src dst base size action priv ret s' rfl h
    exact mapArea_prims hq hwf rfl (fun _ _ => trivial) hv.1 hv.2 h
  utcb := by
    rintro c space id utcb as s1 ret s' rfl _ hq1 hwf1 hc has h
    exact mapArea_prims hq1 hwf1 ⟨c, rfl, rfl⟩ (fun _ _ => trivial) hc has h

theorem threadSpace_effect {id : Word} (hq : Quiet s) (hwf : Wf s)
    (hv : (MemOp.threadSpace caller space id utcb).valid s)
    (hC : ClonesOk mm C s (.threadSpace caller space id utcb))
    (h : threadSpace mm s caller space id utcb = .ok s') :
    Effect mm C (.threadSpace caller space id utcb) s s' := by
  obtain ⟨hvc, hvs⟩ := hv
  obtain ⟨as, s1, ret, hready, hmap⟩ := threadSpace_ok h
  -- the UTCB grant, in a state in which both spaces are allocated
  have hgrant : Quiet s1 → Wf s1 → s1.liveAs as = true →
      (∀ c ∈ caller, s1.liveAs c.1 = true) →
      Prims mm (MemOp.threadSpace caller space id utcb).cuts C s1 s' := by
    intro hq1 hwf1 has hcs
    cases caller with
    | none => exact mapArea_self_prims hwf1 has hmap
    | some c => exact hC.utcb c space id utcb as s1 ret s' rfl hready hq1 hwf1 (hcs c rfl) has hmap
  rcases hready with ⟨rfl, s0, t, hc, h1, h2⟩ | ⟨hsome, rfl⟩
  · have hlive : s0.liveAs as = true := by rw [hc.liveAs]; simp
    have hwf0 : Wf s0 := (hc.lists hwf).wf
    have hq0 : Quiet s0 := by
      unfold Quiet
      rw [hc.junk]
      exact hq
    obtain ⟨r, f, hr, hc1⟩ := mapFpage_spec (hwf0.chain as hlive) (hwf0.live as hlive) h1
    rw [hc.kipFpage] at hr
    have hp1 : Prims mm (MemOp.threadSpace caller none id utcb).cuts C s0 t :=
      .single hwf0 (.clone (hC.kip as id s0 r rfl hc hr) hlive hc1)
    have hp2 : Prims mm (MemOp.threadSpace caller none id utcb).cuts C t s1 := by
      refine mapFpage_prims (hp1.wf hwf0) ?_ (hp1.out.live hlive) h2
      intro q hq
      rw [hp1.out.kipExtraFpage, hc.kipExtraFpage] at hq
      exact hC.kipExtra as id s0 t r f q rfl hc hr hc1 hq
    have hp := hp1.trans hp2
    refine .created rfl hc (hp.trans (hgrant (hp.out.quiet hq0) (hp.wf hwf0)
      (hp.out.live hlive) ?_))
    intro c hcc
    rw [hp.out.liveAs, hc.liveAs, hvc c hcc, Bool.true_or]
  · exact .shared as (hgrant hq (Lists.setShared hwf as (· + 1)).wf (hvs as hsome) hvc)

theorem MemOp.run_effect (hq : Quiet s) (hwf : Wf s) (hv : op.valid s) (hC : ClonesOk mm C s op)
    (h : op.run mm s = .ok s') : Effect mm C op s s' := by
  cases op with
  | asCreate id =>
    obtain ⟨a, h1⟩ := bind_snd_ok h
    exact .created rfl (asCreate_spec h1) .refl
  | asMapUser a => exact .prims (asMapUser_prims hwf hv h)
  | assignFpages a base size =>
    obtain ⟨ret, h1⟩ := bind_snd_ok h
    exact .prims (assignFpages_prims hwf hv h1)
  | threadSpace caller space id utcb => exact threadSpace_effect hq hwf hv hC h
  | mapArea src dst base size action priv =>
    obtain ⟨ret, h1⟩ := bind_snd_ok h
    exact .prims (hC.area src dst base size action priv ret s' rfl h1)
  | mapFpage dst fpage action =>
    refine .prims (mapFpage_prims hwf ?_ hv.1 h)
    intro r hr
    injection hr with hr
    exact hr ▸ hC.fpage dst fpage action rfl
  | unmapFpage a fpage =>
    obtain ⟨ret, h1⟩ := bind_snd_ok h
    exact .prims (unmapFpage_prims hq hwf rfl hv.1 hv.2 h1)
  | splitFpage a fpage split rl =>
    obtain ⟨res, h1⟩ := bind_snd_ok h
    exact .prims (splitFpage_prims hq hwf rfl hv.1 h1)
  | asDestroy a => exact .destroyed rfl hv h
  | asSetupMpu a sp pc stackBase stackSize =>
    have h : F9.asSetupMpu mm s a sp pc stackBase stackSize = .ok s' := h
    exact .mpu hv fun T hT hin => asSetupMpu_step (.of_chain (hwf.chain a hv)) hT hin h
  | mpuSelectLru as addr =>
    obtain ⟨ret, h1⟩ := bind_snd_ok h
    cases as with
    | none =>
      have hs := pure_pair.mp h1
      rw [← hs.2]
      exact .prims .refl
    | some a =>
      exact .mpu (hv a rfl) fun T hT hin =>
        mpuSelectLru_step (.of_chain (hwf.chain a (hv a rfl))) hT hin h1

theorem Effect.wf (hq : Quiet s) (hwf : Wf s) (h : Effect mm C op s s') : Quiet s' ∧ Wf s' := by
  cases h with
  | prims hp => exact ⟨hp.out.quiet hq, hp.wf hwf⟩
  | created _ hc hp =>
    refine ⟨hp.out.quiet ?_, hp.wf (hc.lists hwf).wf⟩
    unfold Quiet
    rw [hc.junk]
    exact hq
  | shared a hp => exact ⟨hp.out.quiet hq, hp.wf (Lists.setShared hwf a (· + 1)).wf⟩
  | destroyed _ ha hd =>
    obtain ⟨hq', hL⟩ := asDestroy_lists hq hwf ha hd
    exact ⟨hq', hL.wf⟩
  | mpu ha hm =>
    have hstep := hm Set.univ (by simp) ⟨by simp, by simp⟩
    exact ⟨hstep.quiet hq, (hstep.lists hwf).wf⟩

theorem MemOp.run_wf (hq : Quiet s) (hwf : Wf s) (hv : op.valid s) (h : op.run mm s = .ok s') :
    Quiet s' ∧ Wf s' :=
  (MemOp.run_effect hq hwf hv (ClonesOk.any hq hwf hv) h).wf hq hwf

/-! ## Runs -/

variable {P : Kernel → MemOp → Prop} {b : Board}

theorem MemOp.exec_step (s : Kernel) (op : MemOp) (s' : Kernel) (h : op.exec mm s = some s') :
    (system mm b).step s op s' := by
  unfold MemOp.exec at h
  split at h
  · rename_i hv
    cases hrun : op.run mm s with
    | error e =>
      rw [hrun] at h
      exact absurd h (by simp [Except.toOption])
    | ok s1 =>
      rw [hrun] at h
      obtain rfl := Option.some.inj h
      exact ⟨hv, hrun⟩
  · simp at h

theorem bootRun_reachable {ops : List MemOp} (hP : ∀ s op, Quiet s → ok s op = true → P s op)
    (h : bootRun mm b ok ops = some s) : (system mm b).Reachable P s ∧ Quiet s ∧ Wf s := by
  unfold bootRun at h
  cases hboot : threadInitSubsys mm b (emptyKernel fun _ => false) with
  | error e =>
    rw [hboot] at h
    simp at h
  | ok s0 =>
    rw [hboot] at h
    have hb := threadInitSubsys_booted hboot
    refine TSys.Reachable.runAll_inv (I := fun s => Quiet s ∧ Wf s) MemOp.exec_step
      (fun s op hi => hP s op hi.1) (fun s op s' hi _ hstep => MemOp.run_wf hi.1 hi.2 hstep.1 hstep.2)
      ops (.init ⟨_, hboot⟩) ⟨?_, hb.wf⟩ h
    unfold Quiet
    rw [hb.junk]
    exact fun _ => rfl

/-- A new space and `n` requests of 256 bytes, one behind the other. -/
def pageCalls (n : Nat) : List MemOp :=
  .asCreate 1#32 :: (List.range n).map fun i =>
    .assignFpages 0 (0x20008000#32 + 0x100#32 * BitVec.ofNat 32 i) 0x100#32

/-- A computed run of the board to a state with a property. -/
theorem exists_bootRun (ops : List MemOp) (p : Kernel → Bool)
    (h : (bootRun (memmap stm32f4Board) stm32f4Board (fun _ _ => true) ops).map p = some true) :
    ∃ s, (system (memmap stm32f4Board) stm32f4Board).Reachable (fun _ _ => True) s ∧ Quiet s ∧
      Wf s ∧ p s = true := by
  obtain ⟨s, hs, hp⟩ := Option.map_eq_some_iff.mp h
  obtain ⟨hreach, hq, hwf⟩ :=
    bootRun_reachable (P := fun _ _ => True) (fun _ _ _ _ => trivial) hs
  exact ⟨s, hreach, hq, hwf, hp⟩

/-- A computed run and a request of the first space that succeeds, with a property of the states
before and after it and of the last page. -/
theorem exists_assignRun (ops : List MemOp) (base size : Word)
    (p : Kernel → Option FpRef → Kernel → Bool)
    (h : (bootRun (memmap stm32f4Board) stm32f4Board (fun _ _ => true) ops).map (fun s =>
      okWith (fun r : Int × Option FpRef × Option FpRef × Kernel =>
          decide (r.1 = 0) && p s r.2.2.1 r.2.2.2)
        (assignFpagesExt (memmap stm32f4Board) s none (some 0) base size none none)) = some true) :
    ∃ s s' pf pl, (system (memmap stm32f4Board) stm32f4Board).Reachable (fun _ _ => True) s ∧
      Wf s ∧ assignFpagesExt (memmap stm32f4Board) s none (some 0) base size none none =
        .ok (0, pf, pl, s') ∧ p s pl s' = true := by
  obtain ⟨s, hreach, _, hwf, hp⟩ := exists_bootRun ops _ h
  obtain ⟨⟨ret, pf, pl, s'⟩, hrun, hres⟩ := okWith_iff.mp hp
  rw [Bool.and_eq_true] at hres
  obtain rfl : ret = 0 := of_decide_eq_true hres.1
  exact ⟨s, s', pf, pl, hreach, hwf, hrun, hres.2⟩

/-- Two spaces, the first one in order. -/
def spacesOrdered (s : Kernel) : Bool :=
  decide (s.fpageTable.num = configMaxFpages ∧ s.liveAs 0 = true ∧ s.liveAs 1 = true ∧ s.Sized 0 ∧
    s.Ordered (s.pages 0))

theorem exists_spacesRun (ops : List MemOp) (p : Kernel → Bool)
    (h : (bootRun (memmap stm32f4Board) stm32f4Board (fun _ _ => true)
      (.asCreate 1#32 :: .asCreate 2#32 :: ops)).map (fun s => spacesOrdered s && p s) = some true) :
    ∃ s, (system (memmap stm32f4Board) stm32f4Board).Reachable (fun _ _ => True) s ∧ Ready s ∧
      SortedSpace s 0 ∧ s.liveAs 1 = true ∧ p s = true := by
  obtain ⟨s, hreach, hq, hwf, hp⟩ := exists_bootRun _ _ h
  rw [Bool.and_eq_true, spacesOrdered, decide_eq_true_eq] at hp
  obtain ⟨⟨hnum, h0, h1, hsz, hord⟩, hp⟩ := hp
  exact ⟨s, hreach, ⟨hq, hwf, hnum⟩, ⟨h0, hsz, hord⟩, h1, hp⟩

/-- The second space is handed pages of the first one. -/
theorem exists_mapRun (ops : List MemOp) (base size : Word) (priv : Bool)
    (p : Kernel → Kernel → Bool)
    (h : (bootRun (memmap stm32f4Board) stm32f4Board (fun _ _ => true)
      (.asCreate 1#32 :: .asCreate 2#32 :: ops)).map (fun s => spacesOrdered s &&
        okWith (fun v : Int × Kernel => decide (v.1 = 0) && p s v.2)
          (mapArea (memmap stm32f4Board) s 0 1 base size .map priv)) = some true) :
    ∃ s s', (system (memmap stm32f4Board) stm32f4Board).Reachable (fun _ _ => True) s ∧ Ready s ∧
      SortedSpace s 0 ∧ s.liveAs 1 = true ∧
      mapArea (memmap stm32f4Board) s 0 1 base size .map priv = .ok (0, s') ∧ p s s' = true := by
  obtain ⟨s, hreach, hr, hs, h1, hp⟩ := exists_spacesRun ops _ h
  obtain ⟨⟨ret, s'⟩, hrun, hres⟩ := okWith_iff.mp hp
  rw [Bool.and_eq_true, decide_eq_true_eq] at hres
  obtain ⟨rfl, hps⟩ := hres
  exact ⟨s, s', hreach, hr, hs, h1, hrun, hps⟩

/-- A computed run and one more call, with a property of the states before and
after it. -/
theorem exists_bootRun_step (mm : Memmap) (b : Board) (ok : Kernel → MemOp → Bool)
    (ops : List MemOp) (op : MemOp) (p : Kernel → Kernel → Bool)
    (h : ((bootRun mm b ok ops).bind fun s =>
      (op.exec mm s).map (p s)) = some true) :
    ∃ s s', bootRun mm b ok ops = some s ∧ (system mm b).step s op s' ∧ p s s' = true := by
  obtain ⟨s, hs, h⟩ := Option.bind_eq_some_iff.mp h
  obtain ⟨s', hs', hp⟩ := Option.map_eq_some_iff.mp h
  exact ⟨s, s', hs, MemOp.exec_step s op s' hs', hp⟩

end F9
