import F9.Kernel.Systhread

/-!
# The scheduler (`sched.c`, `thread.c`) and the running kernel

`schedule_select` tries the slots in order. Only the slot of normal threads has a handler,
`thread_select`, which walks through the thread tree from root. The walk only reads, so it does not
end if it takes more steps than there are threads.

The running kernel is the machine with the thread that is on the CPU. The current thread traps, the
kernel thread carries out system calls and timer events, ticks come at any time, and at any time the
scheduler may be called, which may switch to another thread.
-/

namespace F9

/-! ## Selection -/

def threadIsrunnable (s : Core) (thr : TcbRef) : Bool := decide ((s.tcb thr).state = .runnable)

/-- The inner loop of `thread_select`: up to a parent with a next sibling, which is returned. `none`
if `parent` is reached. -/
def selectClimb (s : Core) (parent : TcbRef) : Nat → TcbRef → Except Fault (Option TcbRef)
  | 0, _ => .error .hang
  | n + 1, thr =>
    if (s.tcb thr).tParent = some parent then .ok none
    else do
      let thr ← nonNull (s.tcb thr).tParent
      match (s.tcb thr).tSibling with
      | some sibling => return some sibling
      | none => selectClimb s parent n thr

/-- The outer loop of `thread_select`. -/
def selectLoop (s : Core) (parent : TcbRef) : Nat → TcbRef → Except Fault (Option TcbRef)
  | 0, _ => .error .hang
  | n + 1, thr =>
    if threadIsrunnable s thr then .ok (some thr)
    else
      match (s.tcb thr).tChild, (s.tcb thr).tSibling with
      | some child, _ => selectLoop s parent n child
      | none, some sibling => selectLoop s parent n sibling
      | none, none => do
        match ← selectClimb s parent s.treeBound thr with
        | none => return none
        | some sibling => selectLoop s parent n sibling

def threadSelect (s : Core) (parent : TcbRef) : Except Fault (Option TcbRef) :=
  match (s.tcb parent).tChild with
  | none => .ok none
  | some thr => selectLoop s parent s.treeBound thr

/-- The slots in the order of their ids. -/
def schedSlots : List SchedSlot :=
  [.softirq, .intrThread, .rootThread, .ipcThread, .normalThread, .idle]

/-- The loop of `schedule_select`. The handler of `SSI_NORMAL_THREAD` is `thread_sched`. -/
def selectSlot (root : TcbRef) (s : Core) : List SchedSlot → Except Fault (TcbRef × Core)
  -- not reached (last slot is IDLE which is always runnable)
  | [] => .error .panic
  | slot :: slots =>
    match (s.slots slot).filter (threadIsrunnable s) with
    | some scheduled => .ok (scheduled, s)
    | none =>
      if slot = .normalThread then do
        match ← threadSelect s root with
        | some scheduled => return (scheduled, s.schedSlotDispatch slot scheduled)
        | none => selectSlot root s slots
      else selectSlot root s slots

def scheduleSelect (root : TcbRef) (s : Core) : Except Fault (TcbRef × Core) :=
  selectSlot root s schedSlots

/-- `thread_switch`, without `current`. The assertion is a panic. -/
def threadSwitch (mm : Memmap) (s : Core) (thr : TcbRef) : Except Fault Core :=
  if threadIsrunnable s thr then
    match (s.tcb thr).as with
    | none => .ok s
    | some as => do
      let mem ← asSetupMpu mm s.mem as (s.tcb thr).ctx.sp (s.tcb thr).frame.pc
        (s.tcb thr).stackBase (s.tcb thr).stackSize
      return { s with mem := mem }
  else .error .panic

/-! ## The running kernel -/

/-- The machine and `current`. -/
structure Running where
  machine : Machine
  current : TcbRef

/-- The system threads: `idle`, `root` and `kernel`. -/
structure SystemThreads where
  idle : TcbRef
  root : TcbRef
  kernel : TcbRef

/-- What happens: an event of the machine, `set_kernel_state`, which interrupts and the kernel thread
use, or the scheduler. -/
inductive CpuEvent
  | event (e : Event)
  | kernelState (state : ThreadState)
  | schedule

def scheduleInIrq (mm : Memmap) (root : TcbRef) (r : Running) : Except Fault Running := do
  let (sel, s) ← scheduleSelect root r.machine.core
  if sel ≠ r.current then
    let s ← threadSwitch mm s sel
    return { machine := { r.machine with core := s }, current := sel }
  else return { r with machine := { r.machine with core := s } }

/-- One step. The thread that traps is the current one; it runs, and it is not the kernel thread or
idle, which has no SVC in its loop. What softirqs do is done while the kernel thread is current. -/
inductive Running.Step (mm : Memmap) (kip : Word) (sys : SystemThreads) :
    Running → CpuEvent → Running → Prop
  | svc {r user} : r.machine.syscallSoftirq = false → r.current ≠ sys.kernel →
      r.current ≠ sys.idle → (r.machine.core.tcb r.current).state = .runnable →
      Step mm kip sys r (.event (.svc r.current user))
        { r with machine := svcHandler r.machine r.current user }
  | syscall {r m'} : r.current = sys.kernel → r.machine.syscallSoftirq = true →
      syscallHandler mm kip r.machine = .ok m' →
      Step mm kip sys r (.event .syscall) { r with machine := { m' with syscallSoftirq := false } }
  | tick {r} : Step mm kip sys r (.event .tick)
      { r with machine := { r.machine with timer := r.machine.timer.tick } }
  | timer {r core timer} : r.current = sys.kernel → r.machine.timer.kteSoftirq = true →
      Ktimer.eventHandler (TimerHandler.run mm) r.machine.core
        { r.machine.timer with kteSoftirq := false } = .ok (core, timer) →
      Step mm kip sys r (.event .timer)
        { r with machine := { r.machine with core := core, timer := timer } }
  | deliver {r n core} : r.current = sys.kernel → ipcDeliver mm r.machine.core = .ok (n, core) →
      Step mm kip sys r (.event .deliver) { r with machine := { r.machine with core := core } }
  | kernelState {r state} : state = .runnable ∨ state = .inactive →
      Step mm kip sys r (.kernelState state)
        { r with machine := { r.machine with
            core := r.machine.core.setTcb sys.kernel fun tcb => { tcb with state := state } } }
  | schedule {r r'} : scheduleInIrq mm sys.root r = .ok r' → Step mm kip sys r .schedule r'

/-- The running kernel from the initial states on. -/
def Running.system (mm : Memmap) (kip : Word) (sys : SystemThreads) (init : Running → Prop) :
    TSys Running CpuEvent where
  init := init
  step := Running.Step mm kip sys

/-- Carry out a step, if it is possible and returns. -/
def Running.exec (mm : Memmap) (kip : Word) (sys : SystemThreads) (r : Running) :
    CpuEvent → Option Running
  | .event (.svc thr user) =>
    if r.machine.syscallSoftirq = false ∧ r.current ≠ sys.kernel ∧ r.current ≠ sys.idle ∧
        (r.machine.core.tcb r.current).state = .runnable ∧ thr = r.current then
      some { r with machine := svcHandler r.machine r.current user }
    else none
  | .event .syscall =>
    if r.current = sys.kernel ∧ r.machine.syscallSoftirq = true then
      (syscallHandler mm kip r.machine).toOption.map fun m' =>
        { r with machine := { m' with syscallSoftirq := false } }
    else none
  | .event .tick => some { r with machine := { r.machine with timer := r.machine.timer.tick } }
  | .event .timer =>
    if r.current = sys.kernel ∧ r.machine.timer.kteSoftirq = true then
      (Ktimer.eventHandler (TimerHandler.run mm) r.machine.core
        { r.machine.timer with kteSoftirq := false }).toOption.map fun p =>
        { r with machine := { r.machine with core := p.1, timer := p.2 } }
    else none
  | .event .deliver =>
    if r.current = sys.kernel then
      (ipcDeliver mm r.machine.core).toOption.map fun p =>
        { r with machine := { r.machine with core := p.2 } }
    else none
  | .kernelState state =>
    if state = .runnable ∨ state = .inactive then
      some { r with machine := { r.machine with
        core := r.machine.core.setTcb sys.kernel fun tcb => { tcb with state := state } } }
    else none
  | .schedule => (scheduleInIrq mm sys.root r).toOption

theorem Running.exec_step {mm : Memmap} {kip : Word} {sys : SystemThreads} {init : Running → Prop}
    (r : Running) (e : CpuEvent) (r' : Running) (h : r.exec mm kip sys e = some r') :
    (Running.system mm kip sys init).step r e r' := by
  cases e with
  | event e =>
    cases e with
    | svc thr user =>
      simp only [Running.exec] at h
      split at h
      · rename_i hg
        obtain ⟨h1, h2, h3, h4, rfl⟩ := hg
        injection h with h
        rw [← h]
        exact .svc h1 h2 h3 h4
      · simp at h
    | syscall =>
      simp only [Running.exec] at h
      split at h
      · rename_i hg
        obtain ⟨m', hm', rfl⟩ := Option.map_eq_some_iff.mp h
        exact .syscall hg.1 hg.2 (Result.toOption_some.mp hm')
      · simp at h
    | tick =>
      injection h with h
      rw [← h]
      exact .tick
    | timer =>
      simp only [Running.exec] at h
      split at h
      · rename_i hg
        obtain ⟨p, hp, rfl⟩ := Option.map_eq_some_iff.mp h
        exact .timer hg.1 hg.2 (Result.toOption_some.mp hp)
      · simp at h
    | deliver =>
      simp only [Running.exec] at h
      split at h
      · rename_i hg
        obtain ⟨p, hp, rfl⟩ := Option.map_eq_some_iff.mp h
        exact .deliver hg (Result.toOption_some.mp hp)
      · simp at h
  | kernelState state =>
    simp only [Running.exec] at h
    split at h
    · rename_i hg
      injection h with h
      rw [← h]
      exact .kernelState hg
    · simp at h
  | schedule => exact .schedule (Result.toOption_some.mp h)

end F9
