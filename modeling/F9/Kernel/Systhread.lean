import F9.Kernel.Ipc
import F9.Lib.Result

/-!
# System threads (`systhread.c`) and thread control as a system

The three threads that the kernel makes at boot, and the calls that change which threads there
are: `thread_init` and `thread_space` at boot, then `sys_thread_control` by any thread with any
arguments.
-/

namespace F9

/-! ## System threads -/

/-- The stacks and entry points of the system threads, and the UTCB of root. -/
structure Stacks where
  idleStackEnd : Word
  kernelStackEnd : Word
  rootStackStart : Word
  rootStackEnd : Word
  idleThread : Word
  rootThread : Word
  rootUtcb : Word

def createIdleThread (kip : Word) (k : Stacks) (s : Core) : Except Fault (TcbRef × Core) := do
  let (idle, s) ← threadInit s (tidToGlobalid THREAD_IDLE) none
  let idle ← nonNull idle
  let s := threadInitCtx kip s k.idleStackEnd k.idleThread idle
  let s := s.schedSlotDispatch .idle idle
  return (idle, s.setTcb idle fun tcb => { tcb with state := .runnable })

def createRootThread (mm : Memmap) (kip : Word) (k : Stacks) (s : Core) :
    Except Fault (TcbRef × Core) := do
  let (root, s) ← threadInit s (tidToGlobalid THREAD_ROOT) (some k.rootUtcb)
  let root ← nonNull root
  let s ← threadSetSpace mm s root (tidToGlobalid THREAD_ROOT) k.rootUtcb
  let as ← nonNull (s.tcb root).as
  let mem ← asMapUser mm s.mem as
  let s := threadInitCtx kip { s with mem := mem } k.rootStackEnd k.rootThread root
  let s := s.setTcb root fun tcb =>
    { tcb with stackBase := k.rootStackStart, stackSize := k.rootStackEnd - k.rootStackStart }
  let s := s.schedSlotDispatch .rootThread root
  return (root, s.setTcb root fun tcb => { tcb with state := .runnable })

/-- `create_kernel_thread`, with `thread_init_kernel_ctx`. -/
def createKernelThread (k : Stacks) (s : Core) : Except Fault (TcbRef × Core) := do
  let (kernel, s) ← threadInit s (tidToGlobalid THREAD_KERNEL) none
  let kernel ← nonNull kernel
  let s := s.setTcb kernel fun tcb =>
    { tcb with ctx := { tcb.ctx with
        sp := k.kernelStackEnd - RESERVED_STACK
        ret := 0xFFFFFFF9#32
        ctl := 0x0#32 } }
  -- This will prevent running other threads than kernel until it will be initialized
  let s := s.schedSlotDispatch .softirq kernel
  return (kernel, s.setTcb kernel fun tcb => { tcb with state := .runnable })

/-- The tables of the threads before the first one: nothing is allocated. -/
def emptyCore (mem : Kernel) (code : Word → BitVec 8) : Core where
  mem := mem
  threadTable := { num := configMaxThreads, bitmap := 0, data := fun _ => default }
  threadMap := fun _ => none
  threadCount := 0
  utcbs := fun _ => default
  slots := fun _ => none
  caller := none
  code := code
  transfers := []
  calls := []

/-- The threads that `main` makes: idle, root and kernel, in this order. -/
def bootThreads (mm : Memmap) (b : Board) (k : Stacks) (junk : Nat → Bool)
    (code : Word → BitVec 8) : Except Fault Core := do
  let mem ← threadInitSubsys mm b (emptyKernel junk)
  let (_, s) ← createIdleThread b.kip k (emptyCore mem code)
  let (_, s) ← createRootThread mm b.kip k s
  let (_, s) ← createKernelThread k s
  return s

/-! ## Thread control -/

/-- A thread calls: its frame and r4 to r11 are what it left there, and it is the caller. -/
def Core.enter (s : Core) (c : TcbRef) (frame : Frame) (regs : Nat → Word) : Core :=
  { s.setTcb c fun tcb => { tcb with frame := frame, ctx := { tcb.ctx with regs := regs } } with
    caller := some c }

/-- A call that changes which threads there are: `thread_init` and `thread_space`, which the kernel
itself uses at boot, or the system call of a thread. Between them threads run: `thread_switch` sets
the MPU up for the space of one, with the context it has then. -/
inductive ThreadCall
  | init (globalid : Word) (utcb : Option Word)
  | space (thr : TcbRef) (spaceid utcb : Word)
  | control (caller : TcbRef) (frame : Frame) (regs : Nat → Word)
  | switch (thr : TcbRef) (sp pc stackBase stackSize : Word)

/-- One call that returns. `thread_space` is for a thread that has no space yet. -/
inductive ThreadCall.Step (mm : Memmap) : Core → ThreadCall → Core → Prop
  | init {s globalid utcb thr s'} : threadInit s globalid utcb = .ok (thr, s') →
      Step mm s (.init globalid utcb) s'
  | space {s thr spaceid utcb s'} : s.live thr = true → (s.tcb thr).as = none →
      threadSetSpace mm s thr spaceid utcb = .ok s' → Step mm s (.space thr spaceid utcb) s'
  | control {s c frame regs s'} : sysThreadControl mm (s.enter c frame regs) c = .ok s' →
      Step mm s (.control c frame regs) s'
  | switch {s thr sp pc stackBase stackSize as mem} : (s.tcb thr).as = some as →
      asSetupMpu mm s.mem as sp pc stackBase stackSize = .ok mem →
      Step mm s (.switch thr sp pc stackBase stackSize) { s with mem := mem }

/-- Carry out a call, if it returns. -/
def ThreadCall.exec (mm : Memmap) (s : Core) : ThreadCall → Option Core
  | .init globalid utcb => (threadInit s globalid utcb).toOption.map Prod.snd
  | .space thr spaceid utcb =>
    if s.live thr = true ∧ (s.tcb thr).as = none then
      (threadSetSpace mm s thr spaceid utcb).toOption
    else none
  | .control c frame regs => (sysThreadControl mm (s.enter c frame regs) c).toOption
  | .switch thr sp pc stackBase stackSize =>
    (s.tcb thr).as.bind fun as =>
      (asSetupMpu mm s.mem as sp pc stackBase stackSize).toOption.map fun mem =>
        { s with mem := mem }

/-- Thread control from the empty tables on. -/
def threads (mm : Memmap) (init : Core → Prop) : TSys Core ThreadCall where
  init := init
  step := ThreadCall.Step mm

theorem ThreadCall.exec_step {mm : Memmap} {init : Core → Prop} (s : Core) (a : ThreadCall)
    (s' : Core) (h : a.exec mm s = some s') : (threads mm init).step s a s' := by
  cases a with
  | init globalid utcb =>
    obtain ⟨⟨thr, s1⟩, h1, rfl⟩ := Option.map_eq_some_iff.mp h
    exact .init (Result.toOption_some.mp h1)
  | space thr spaceid utcb =>
    simp only [ThreadCall.exec] at h
    split at h
    · rename_i hg
      exact .space hg.1 hg.2 (Result.toOption_some.mp h)
    · simp at h
  | control c frame regs => exact .control (Result.toOption_some.mp h)
  | switch thr sp pc stackBase stackSize =>
    obtain ⟨as, has, h⟩ := Option.bind_eq_some_iff.mp h
    obtain ⟨mem, h1, rfl⟩ := Option.map_eq_some_iff.mp h
    exact .switch has (Result.toOption_some.mp h1)

end F9
