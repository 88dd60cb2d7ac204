import F9.Logic.ThreadTree

/-!
# The state after boot

The three system threads are allocated and no others, without links, each in its slot and runnable
(`ThreadsBooted`). This is what `bootThreads` leaves behind (`bootThreads_booted`).
-/

namespace F9

open Result Linked

variable {k : Stacks} {mm : Memmap} {code : Word → BitVec 8} {s0 : Core} {kip : Word}
  {idle kernel root : TcbRef} {b : Board} {junk : Nat → Bool}

/-- Each system thread in its slot. -/
def systemSlots (idle root kernel : TcbRef) : SchedSlot → Option TcbRef
  | .softirq => some kernel
  | .rootThread => some root
  | .idle => some idle
  | _ => none

/-- The threads after boot. -/
structure ThreadsBooted (s : Core) (idle root kernel : TcbRef) : Prop where
  distinct : idle ≠ root ∧ idle ≠ kernel ∧ root ≠ kernel
  live : ∀ t, s.live t = true ↔ t = idle ∨ t = root ∨ t = kernel
  idleNumber : s.number idle = THREAD_IDLE
  rootNumber : s.number root = THREAD_ROOT
  kernelNumber : s.number kernel = THREAD_KERNEL
  unlinked : ∀ t, s.links.child t = none ∧ s.links.sibling t = none ∧ s.links.parent t = none
  runnable : ∀ t, s.live t = true → (s.tcb t).state = .runnable
  others : ∀ t, s.live t = false → (s.tcb t).state = .inactive
  idleAs : (s.tcb idle).as = none
  kernelAs : (s.tcb kernel).as = none
  slots : s.slots = systemSlots idle root kernel
  caller : s.caller = none

/-- A system thread has been made: initialised, put into its slot and set runnable. -/
structure Spawned (s s' : Core) (id : Word) (utcb : Option Word) (slot : SchedSlot)
    (thr : TcbRef) : Prop where
  init : ∃ s0, Initted s s0 id utcb thr ∧ SameTable s0 s'
  others : ∀ t, t ≠ thr → s'.tcb t = s.tcb t
  unlinked : (s'.tcb thr).tChild = none ∧ (s'.tcb thr).tSibling = none ∧
    (s'.tcb thr).tParent = none
  state : (s'.tcb thr).state = .runnable
  slots : s'.slots = fun i => if i = slot then some thr else s.slots i
  caller : s'.caller = s.caller

namespace Spawned

variable {s s' : Core} {id : Word} {utcb : Option Word} {slot : SchedSlot} {thr : TcbRef}

section

variable (h : Spawned s s' id utcb slot thr)
include h

theorem fresh : s.live thr = false := by
  obtain ⟨_, hinit, _⟩ := h.init
  exact hinit.fresh

theorem live (t : TcbRef) : s'.live t = (s.live t || decide (t = thr)) := by
  obtain ⟨_, hinit, hsame⟩ := h.init
  rw [hsame.live, hinit.live]

theorem number (t : TcbRef) : s'.number t = if t = thr then globalidToTid id else s.number t := by
  split
  · rename_i ht
    obtain ⟨_, hinit, hsame⟩ := h.init
    rw [ht, hsame.number]
    unfold Core.number
    rw [hinit.new]
  · rename_i ht
    unfold Core.number
    rw [h.others t ht]

end

end Spawned

variable {s s' : Core} {id : Word} {utcb : Option Word} {slot : SchedSlot} {thr : TcbRef}

/-- What is done to a new thread after `thread_init` leaves its id and its links alone. -/
theorem Initted.spawned (h : Initted s s0 id utcb thr) (htable : SameTable s0 s')
    (hlinks : s'.links = s0.links) (hothers : ∀ t, t ≠ thr → s'.tcb t = s0.tcb t)
    (hstate : (s'.tcb thr).state = .runnable)
    (hslots : s'.slots = fun i => if i = slot then some thr else s0.slots i)
    (hcaller : s'.caller = s0.caller) : Spawned s s' id utcb slot thr := by
  have hnew : s0.links.child thr = none ∧ s0.links.sibling thr = none ∧
      s0.links.parent thr = none := by
    show (s0.tcb thr).tChild = none ∧ (s0.tcb thr).tSibling = none ∧ (s0.tcb thr).tParent = none
    rw [h.new]
    exact ⟨rfl, rfl, rfl⟩
  rw [← hlinks] at hnew
  refine ⟨⟨s0, h, htable⟩, fun t ht => ?_, hnew, hstate, ?_, ?_⟩
  · rw [hothers t ht, h.others t ht]
  · rw [hslots, h.slots]
  · rw [hcaller, h.caller]

/-- A thread of the kernel has only its context set before it is put into its slot. -/
theorem threadInit_spawned {s s' : Core} {id : Word} {utcb : Option Word} {slot : SchedSlot}
    {thr : TcbRef} {f : Tcb → Tcb} (hinit : threadInit s id utcb = .ok (some thr, s0))
    (hf : (f (s0.tcb thr)).static = (s0.tcb thr).static)
    (hs' : ((s0.setTcb thr f).schedSlotDispatch slot thr).setTcb thr
      (fun tcb => { tcb with state := .runnable }) = s') :
    Spawned s s' id utcb slot thr ∧ (s'.tcb thr).as = none := by
  have h0 := threadInit_effect hinit
  have h1 : SameThreads s0 (s0.setTcb thr f) := setTcb_same hf
  have h2 : SameThreads (s0.setTcb thr f) ((s0.setTcb thr f).schedSlotDispatch slot thr) :=
    ⟨fun _ => rfl, rfl, rfl, rfl, rfl, rfl⟩
  have hsame : SameThreads s0 s' := by
    rw [← hs']
    exact (h1.trans h2).trans (setTcb_same rfl)
  refine ⟨h0.spawned hsame.table hsame.links (fun t ht => ?_) ?_ (by rw [← hs']; rfl)
    (by rw [← hs']; rfl), ?_⟩
  · rw [← hs', Core.tcb_setTcb, if_neg ht]
    show (s0.setTcb thr f).tcb t = _
    rw [Core.tcb_setTcb, if_neg ht]
  · rw [← hs', Core.tcb_setTcb, if_pos rfl]
  · rw [hsame.as, h0.new]

theorem createIdleThread_spawned (h : createIdleThread kip k s = .ok (idle, s')) :
    Spawned s s' (tidToGlobalid THREAD_IDLE) none .idle idle ∧ (s'.tcb idle).as = none := by
  obtain ⟨⟨p, s0⟩, hinit, h⟩ := bind_ok.mp h
  obtain ⟨thr, hthr, h⟩ := bind_ok.mp h
  rw [nonNull_ok.mp hthr] at hinit
  have heq := pure_ok.mp h
  simp only [Prod.mk.injEq] at heq
  obtain ⟨rfl, hs'⟩ := heq
  exact threadInit_spawned hinit rfl hs'

theorem createKernelThread_spawned (h : createKernelThread k s = .ok (kernel, s')) :
    Spawned s s' (tidToGlobalid THREAD_KERNEL) none .softirq kernel ∧
      (s'.tcb kernel).as = none := by
  obtain ⟨⟨p, s0⟩, hinit, h⟩ := bind_ok.mp h
  obtain ⟨thr, hthr, h⟩ := bind_ok.mp h
  rw [nonNull_ok.mp hthr] at hinit
  have heq := pure_ok.mp h
  simp only [Prod.mk.injEq] at heq
  obtain ⟨rfl, hs'⟩ := heq
  exact threadInit_spawned hinit rfl hs'

theorem createRootThread_spawned (h : createRootThread mm kip k s = .ok (root, s')) :
    Spawned s s' (tidToGlobalid THREAD_ROOT) (some k.rootUtcb) .rootThread root := by
  obtain ⟨⟨p, s0⟩, hinit, h⟩ := bind_ok.mp h
  obtain ⟨thr, hthr, h⟩ := bind_ok.mp h
  rw [nonNull_ok.mp hthr] at hinit
  obtain ⟨s1, hspace, h⟩ := bind_ok.mp h
  obtain ⟨as, _, h⟩ := bind_ok.mp h
  obtain ⟨mem, _, h⟩ := bind_ok.mp h
  have h0 := threadInit_effect hinit
  obtain ⟨as', mem', hs1⟩ := threadSetSpace_effect hspace
  have heq := pure_ok.mp h
  simp only [Prod.mk.injEq] at heq
  obtain ⟨rfl, hs'⟩ := heq
  generalize hs2 : ({ s1 with mem := mem } : Core) = s2 at hs'
  generalize hs3 : threadInitCtx kip s2 k.rootStackEnd k.rootThread thr = s3 at hs'
  generalize hs4 : s3.setTcb thr _ = s4 at hs'
  have htcb2 : ∀ t, s2.tcb t = (s0.setTcb thr fun tcb => { tcb with as := some as' }).tcb t := by
    intro t
    rw [← hs2, hs1]
    rfl
  have htcb1 : ∀ t, t ≠ thr → s2.tcb t = s0.tcb t := by
    intro t ht
    rw [htcb2, Core.tcb_setTcb, if_neg ht]
  have htable : SameTable s0 s2 := by
    have := threadSetSpace_table hspace
    exact this.trans (by rw [← hs2]; exact ⟨fun _ => rfl, fun _ => rfl, rfl, rfl⟩)
  have hlinks : s2.links = s0.links := by
    unfold Core.links
    simp only [htcb2, Core.tcb_setTcb, Links.mk.injEq]
    refine ⟨?_, ?_, ?_⟩ <;>
    · funext t
      split
      · rename_i ht
        rw [ht]
      · rfl
  have h3 : SameThreads s2 s3 := by
    rw [← hs3]
    exact setTcb_same rfl
  have h4 : SameThreads s3 s4 := by
    rw [← hs4]
    exact setTcb_same rfl
  have h5 : SameThreads s4 (s4.schedSlotDispatch .rootThread thr) :=
    ⟨fun _ => rfl, rfl, rfl, rfl, rfl, rfl⟩
  have hsame : SameThreads s2 s' := by
    rw [← hs']
    exact ((h3.trans h4).trans h5).trans (setTcb_same rfl)
  have hrest : s4.slots = s0.slots ∧ s4.caller = s0.caller := by
    rw [← hs4, ← hs3, ← hs2, hs1]
    exact ⟨rfl, rfl⟩
  refine h0.spawned (htable.trans hsame.table) (hsame.links.trans hlinks) (fun t ht => ?_) ?_ ?_ ?_
  · rw [← htcb1 t ht, ← hs', Core.tcb_setTcb, if_neg ht]
    show s4.tcb t = _
    rw [← hs4, Core.tcb_setTcb, if_neg ht, ← hs3]
    unfold threadInitCtx
    rw [Core.tcb_setTcb, if_neg ht]
  · rw [← hs', Core.tcb_setTcb, if_pos rfl]
  · rw [← hs', ← hrest.1]
    rfl
  · rw [← hs', ← hrest.2]
    rfl

/-- The threads that `bootThreads` makes. -/
theorem bootThreads_booted (h : bootThreads mm b k junk code = .ok s) :
    ∃ idle root kernel, ThreadsBooted s idle root kernel := by
  obtain ⟨mem, _, h⟩ := bind_ok.mp h
  obtain ⟨⟨idle, s1⟩, hidle, h⟩ := bind_ok.mp h
  obtain ⟨⟨root, s2⟩, hroot, h⟩ := bind_ok.mp h
  obtain ⟨⟨kernel, s3⟩, hkernel, h⟩ := bind_ok.mp h
  have hs : s3 = s := pure_ok.mp h
  rw [hs] at hkernel
  obtain ⟨h1, has1⟩ := createIdleThread_spawned hidle
  have h2 := createRootThread_spawned hroot
  obtain ⟨h3, has3⟩ := createKernelThread_spawned hkernel
  have hdead : ∀ t, (emptyCore mem code).live t = false := by
    intro t
    simp [emptyCore, Core.live, KTable.live]
  have hlive1 : ∀ t, s1.live t = decide (t = idle) := by
    intro t
    rw [h1.live, hdead, Bool.false_or]
  have hlive2 : ∀ t, s2.live t = (decide (t = idle) || decide (t = root)) := by
    intro t
    rw [h2.live, hlive1]
  have hlive : ∀ t,
      s.live t = (decide (t = idle) || decide (t = root) || decide (t = kernel)) := by
    intro t
    rw [h3.live, hlive2]
  have hir : idle ≠ root := by
    rintro rfl
    have := h2.fresh
    rw [hlive1] at this
    simp at this
  have hfresh3 := h3.fresh
  rw [hlive2, Bool.or_eq_false_iff, decide_eq_false_iff_not, decide_eq_false_iff_not] at hfresh3
  have hik : idle ≠ kernel := fun heq => hfresh3.1 heq.symm
  have hrk : root ≠ kernel := fun heq => hfresh3.2 heq.symm
  -- each thread is as it was made
  have htcbIdle : s.tcb idle = s1.tcb idle := (h3.others idle hik).trans (h2.others idle hir)
  have htcbRoot : s.tcb root = s2.tcb root := h3.others root hrk
  have hrest : ∀ t, t ≠ idle → t ≠ root → t ≠ kernel → s.tcb t = default := by
    intro t hi hr hk
    rw [h3.others t hk, h2.others t hr, h1.others t hi]
    rfl
  refine ⟨idle, root, kernel, ⟨hir, hik, hrk⟩, fun t => ?_, ?_, ?_, ?_, fun t => ?_,
    fun t ht => ?_, fun t ht => ?_, ?_, has3, ?_, ?_⟩
  · rw [hlive]
    simp [or_assoc]
  · rw [h3.number, if_neg hik, h2.number, if_neg hir, h1.number, if_pos rfl]
    decide
  · rw [h3.number, if_neg hrk, h2.number, if_pos rfl]
    decide
  · rw [h3.number, if_pos rfl]
    decide
  · show (s.tcb t).tChild = none ∧ (s.tcb t).tSibling = none ∧ (s.tcb t).tParent = none
    by_cases hi : t = idle
    · rw [hi, htcbIdle]
      exact h1.unlinked
    by_cases hr : t = root
    · rw [hr, htcbRoot]
      exact h2.unlinked
    by_cases hk : t = kernel
    · rw [hk]
      exact h3.unlinked
    rw [hrest t hi hr hk]
    exact ⟨rfl, rfl, rfl⟩
  · rw [hlive, Bool.or_eq_true, Bool.or_eq_true, decide_eq_true_eq, decide_eq_true_eq,
      decide_eq_true_eq] at ht
    rcases ht with (ht | ht) | ht
    · rw [ht, htcbIdle]
      exact h1.state
    · rw [ht, htcbRoot]
      exact h2.state
    · rw [ht]
      exact h3.state
  · rw [hlive, Bool.or_eq_false_iff, Bool.or_eq_false_iff, decide_eq_false_iff_not,
      decide_eq_false_iff_not, decide_eq_false_iff_not] at ht
    rw [hrest t ht.1.1 ht.1.2 ht.2]
    rfl
  · rw [htcbIdle, has1]
  · rw [h3.slots, h2.slots, h1.slots]
    funext i
    cases i <;> rfl
  · rw [h3.caller, h2.caller, h1.caller]
    rfl

/-! ## Before boot -/

/-- The tables after `ktable_init`: no thread is allocated and the map is empty. -/
structure Core.Blank (s : Core) : Prop where
  bitmap : s.threadTable.bitmap = 0
  threadCount : s.threadCount = 0

theorem Core.Blank.mapWf (h : s.Blank) : MapWf s := by
  have hnone : ∀ i, ¬ i < s.threadCount := by
    intro i
    rw [h.threadCount]
    omega
  exact ⟨by rw [h.threadCount]; decide, fun i hi => absurd hi (hnone i),
    fun i j _ hj => absurd hj (hnone j), fun i j t hi _ _ _ => absurd hi (hnone i)⟩

theorem emptyCore_blank (mem : Kernel) (code : Word → BitVec 8) : (emptyCore mem code).Blank :=
  ⟨rfl, rfl⟩

theorem Spawned.mapWf (h : Spawned s s' id utcb slot thr) (hwf : MapWf s) : MapWf s' := by
  obtain ⟨_, hinit, hsame⟩ := h.init
  exact hsame.mapWf (hinit.mapWf hwf).1

theorem bootThreads_mapWf (h : bootThreads mm b k junk code = .ok s) : MapWf s := by
  obtain ⟨mem, _, h⟩ := bind_ok.mp h
  obtain ⟨⟨idle, s1⟩, hidle, h⟩ := bind_ok.mp h
  obtain ⟨⟨root, s2⟩, hroot, h⟩ := bind_ok.mp h
  obtain ⟨⟨kernel, s3⟩, hkernel, h⟩ := bind_ok.mp h
  rw [← pure_ok.mp h]
  have h1 := (createIdleThread_spawned hidle).1.mapWf (emptyCore_blank mem code).mapWf
  exact (createKernelThread_spawned hkernel).1.mapWf ((createRootThread_spawned hroot).mapWf h1)

/-- At boot the tree is root alone. -/
theorem ThreadsBooted.tree (h : ThreadsBooted s idle root kernel) : ThreadTree s root := by
  have hnone : ∀ t, t ∉ s.created := by
    rintro t ⟨hl, hn⟩
    rcases (h.live t).mp hl with rfl | rfl | rfl
    · rw [h.idleNumber] at hn
      exact absurd hn (by decide)
    · rw [h.rootNumber] at hn
      exact absurd hn (by decide)
    · rw [h.kernelNumber] at hn
      exact absurd hn (by decide)
  refine ⟨(h.live root).mpr (.inr (.inl rfl)), created_finite s, fun _ => [], hnone root,
    (h.unlinked root).2.2, fun p _ => ?_, fun p _ x => ?_, fun x hx => absurd hx (hnone x),
    fun x hx => absurd hx (hnone x)⟩
  · rw [(h.unlinked p).1, chain_nil]
  · exact ⟨fun hx => absurd hx (by simp), fun hx => absurd hx.1 (hnone x)⟩

/-! ## A small board

Concrete runs use a memory map with two pools, the KIP and free memory. -/

def twoPools : Memmap :=
  [⟨0x20000400#32, 0x20000600#32, MP_KR ||| MP_KW ||| MP_UR ||| MP_SRAM, .kernelData⟩,
    ⟨0x20008000#32, 0x2001c000#32, MP_UR ||| MP_UW ||| MP_SRAM, .available⟩]

/-- Where the system threads are on this board. -/
def smallStacks : Stacks :=
  ⟨0x20000200#32, 0x20000300#32, 0x20000600#32, 0x20000700#32, 0x8000100#32, 0x8000200#32,
    0x20000580#32⟩

/-- The boot of this board, with the given instructions in memory. -/
def smallBoot (code : Word → BitVec 8) : Except Fault Core :=
  bootThreads twoPools stm32f4Board smallStacks (fun _ => false) code

theorem smallBoot_root (h : smallBoot code = .ok s) (hroot : s.slots .rootThread = some 1) :
    ∃ idle kernel, ThreadsBooted s idle 1 kernel := by
  obtain ⟨idle, root, kernel, hboot⟩ := bootThreads_booted h
  rw [hboot.slots] at hroot
  have hr : root = 1 := Option.some.inj hroot
  rw [hr] at hboot
  exact ⟨idle, kernel, hboot⟩

/-- The memory after `thread_init_subsys`. -/
def twoPoolsKernel : Kernel :=
  match threadInitSubsys twoPools stm32f4Board (emptyKernel fun _ => false) with
  | .ok s => s
  | .error _ => emptyKernel fun _ => false

/-- The calls that make the system threads: idle is 0, root 1 and kernel 2. -/
def systemThreads : List ThreadCall :=
  [.init (tidToGlobalid THREAD_IDLE) none,
    .init (tidToGlobalid THREAD_ROOT) (some 0x20000580#32),
    .space 1 (tidToGlobalid THREAD_ROOT) 0x20000580#32,
    .init (tidToGlobalid THREAD_KERNEL) none]

/-- A computed run after these calls to a state that passes a test. -/
theorem exists_threadRun {I : Core → Prop} {P : Core → ThreadCall → Prop}
    {t : Core → ThreadCall → Bool} (hI : I (emptyCore twoPoolsKernel fun _ => 0#8))
    (ht : ∀ s a, t s a = true → P s a) (as : List ThreadCall) (p : Core → Bool)
    (h : ((TSys.runAll (ThreadCall.exec twoPools) t (emptyCore twoPoolsKernel fun _ => 0#8)
      (systemThreads ++ as)).any p) = true) :
    ∃ s, (threads twoPools I).Reachable P s ∧ p s = true := by
  obtain ⟨s, hrun, hp⟩ := (Option.any_eq_true _ _).mp h
  exact ⟨s, .runAll ThreadCall.exec_step ht _ (.init hI) hrun, hp⟩

/-- A thread creates another, in a new space if the numbers are the same. -/
def createCall (c : TcbRef) (tid space : Nat) (utcb : Word) : ThreadCall :=
  .control c { (default : Frame) with r0 := tidToGlobalid tid, r1 := tidToGlobalid space }
    fun _ => utcb

def removeCall (c : TcbRef) (tid : Nat) : ThreadCall :=
  .control c { (default : Frame) with r0 := tidToGlobalid tid } fun _ => 0#32

/-! The machine after the boot of this board, with an SVC instruction for thread control at one
address and for IPC at the others. -/

def smallCode (addr : Word) : BitVec 8 :=
  if addr = 0x100#32 then SYS_THREAD_CONTROL else SYS_IPC

def smallMachine : Option Machine :=
  (smallBoot smallCode).toOption.map fun s =>
    ⟨s, Ktimer.initial ⟨.ipcDeliver, 0#32⟩, false⟩

/-- A thread calls for the creation of another, or with space 0 for its removal. -/
def controlTrap (t : TcbRef) (tid space pager : Nat) (utcb : Word) : Event :=
  .svc t
    { sp := 0x20009000#32
      frame := { (default : Frame) with
        r0 := tidToGlobalid tid
        r1 := tidToGlobalid space
        r3 := tidToGlobalid pager
        pc := 0x102#32 }
      regs := fun _ => utcb
      mr := fun _ => 0#32 }

/-- A thread sends the message that starts another. -/
def startTrap (t : TcbRef) (tid : Nat) (sp : Word) : Event :=
  .svc t
    { sp := 0x20009000#32
      frame := { (default : Frame) with r0 := tidToGlobalid tid, pc := 0x202#32 }
      regs := fun i => if i = 0 then 0x00000003#32 else sp
      mr := fun _ => 0#32 }

end F9
