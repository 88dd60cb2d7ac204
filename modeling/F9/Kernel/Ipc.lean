import F9.Kernel.Thread
import F9.Kernel.Ktimer

/-!
# IPC and system calls (`ipc.c`, `syscall.c`)

A message goes from the registers and the UTCB of one thread to those of another in
`do_ipc`. It is called from three places: `sys_ipc`, if the receiver waits, and the two
branches of `ipc_deliver`, which the timer runs to pair threads that are blocked.
The printing of `user_log` and of the debug messages is left out.
-/

namespace F9

/-! ## Messages -/

def IPC_TI_MAP_GRANT : Word := 0x8#32
def IPC_TI_GRANT : Word := 0x2#32
def IPC_MR_COUNT : Nat := 16

/-- `tag.s.n_untyped`. -/
def nUntyped (tag : Word) : Nat := (tag &&& 0x3F#32).toNat

/-- `tag.s.n_typed`. -/
def nTyped (tag : Word) : Nat := ((tag >>> 6) &&& 0x3F#32).toNat

def ipcReadMr (s : Core) (fromThr : TcbRef) (i : Nat) : Except Fault Word :=
  if 8 ≤ i then do
    let utcb ← nonNull (s.tcb fromThr).utcb
    return (s.utcbs utcb).mr (i - 8)
  else .ok ((s.tcb fromThr).ctx.regs i)

def ipcWriteMr (s : Core) (toThr : TcbRef) (i : Nat) (data : Word) : Except Fault Core :=
  if 8 ≤ i then do
    let utcb ← nonNull (s.tcb toThr).utcb
    return s.setUtcb utcb fun u => { u with mr := fun j => if j = i - 8 then data else u.mr j }
  else .ok (s.setTcb toThr fun tcb =>
    { tcb with ctx :=
      { tcb.ctx with regs := fun j => if j = i then data else tcb.ctx.regs j } })

/-- Copy the untyped words: `n` of them from `untyped_idx` on. -/
def copyUntyped (fromThr toThr : TcbRef) : Nat → Nat → Core → Except Fault Core
  | 0, _, s => .ok s
  | n + 1, untypedIdx, s => do
    let data ← ipcReadMr s fromThr untypedIdx
    let s ← ipcWriteMr s toThr untypedIdx data
    copyUntyped fromThr toThr n (untypedIdx + 1) s

/-- Copy the typed words: `n` of them from `typed_idx` on. `item` is the first word of the
current item, `none` if the next word is one (`typed_item_idx == -1`). An item that is not a
map or grant item never ends. -/
def copyTyped (mm : Memmap) (fromThr toThr : TcbRef) :
    Nat → Nat → Option Word → Core → Except Fault Core
  | 0, _, _, s => .ok s
  | n + 1, typedIdx, item, s => do
    let mrData ← ipcReadMr s fromThr typedIdx
    let s ← ipcWriteMr s toThr typedIdx mrData
    match item with
    | none => copyTyped mm fromThr toThr n (typedIdx + 1) (some mrData) s
    | some raw =>
      if raw &&& IPC_TI_MAP_GRANT ≠ 0#32 then
        -- MapItem / GrantItem have 1xxx in header
        let src ← nonNull (s.tcb fromThr).as
        let dst ← nonNull (s.tcb toThr).as
        let (_, mem) ← mapArea mm s.mem src dst (raw &&& 0xFFFFFFC0#32)
          (mrData &&& 0xFFFFFFC0#32)
          (if raw &&& IPC_TI_GRANT ≠ 0#32 then .grant else .map)
          (threadIspriviliged s fromThr)
        copyTyped mm fromThr toThr n (typedIdx + 1) none { s with mem := mem }
      else copyTyped mm fromThr toThr n (typedIdx + 1) (some raw) s

/-- The end of `do_ipc`: the threads are released, or the sender waits for its answer. -/
def completeIpc (s : Core) (fromThr toThr : TcbRef) : Except Fault Core := do
  let fromId := (s.tcb fromThr).tGlobalid
  let utcb ← nonNull (s.tcb toThr).utcb
  let transfer : Transfer :=
    { sender := fromThr
      senderId := fromId
      receiver := toThr
      receiverId := (s.tcb toThr).tGlobalid
      dest := (s.tcb fromThr).frame.r0
      awaited := if (s.tcb toThr).state = .recvBlocked then some (s.tcb toThr).ipcFrom else none }
  let s := s.setUtcb utcb fun u => { u with sender := fromId }
  let s := s.setTcb toThr fun tcb =>
    { tcb with
      state := .runnable
      ipcFrom := L4_NILTHREAD
      frame := { tcb.frame with r0 := fromId } }
  -- If from has receive phases, lock myself
  let fromRecvTid := (s.tcb fromThr).frame.r1
  let s := s.setTcb fromThr fun tcb =>
    if fromRecvTid = L4_NILTHREAD then { tcb with state := .runnable }
    else { tcb with state := .recvBlocked, ipcFrom := fromRecvTid }
  -- Dispatch communicating threads
  let s := (s.schedSlotDispatch .normalThread fromThr).schedSlotDispatch .ipcThread toThr
  return { s with transfers := transfer :: s.transfers }

def doIpc (mm : Memmap) (s : Core) (fromThr toThr : TcbRef) : Except Fault Core := do
  -- Copy tag of message
  let tag ← ipcReadMr s fromThr 0
  let untypedLast := nUntyped tag + 1
  let typedLast := untypedLast + nTyped tag
  if IPC_MR_COUNT < typedLast then
    let s ← setUserError s fromThr (UE_IPC_MSG_OVERFLOW ||| UE_IPC_PHASE_SEND)
    setUserError s toThr (UE_IPC_MSG_OVERFLOW ||| UE_IPC_PHASE_RECV)
  else
    let s ← ipcWriteMr s toThr 0 tag
    let s ← copyUntyped fromThr toThr (nUntyped tag) 1 s
    let s ← copyTyped mm fromThr toThr (nTyped tag) untypedLast none s
    if (s.tcb toThr).ctx.sp = 0#32 ∨ (s.tcb fromThr).ctx.sp = 0#32 then
      let caller ← nonNull s.caller
      return s.setTcb caller fun tcb => { tcb with state := .runnable }
    else completeIpc s fromThr toThr

/-! ## Timer callbacks -/

def ipcTimeout (s : Core) (fromThr : TcbRef) : Core :=
  (s.setTcb fromThr fun tcb => { tcb with state := .runnable }).schedSlotDispatch
    .normalThread fromThr

/-- One pass of the loop of `ipc_deliver`. -/
def deliverAt (mm : Memmap) (s : Core) (i : Nat) : Except Fault Core :=
  if configMaxThreads ≤ i then .error .outOfBounds
  else do
    let thr ← nonNull (s.threadMap i)
    match (s.tcb thr).state with
    | .recvBlocked =>
      if (s.tcb thr).ipcFrom ≠ L4_NILTHREAD ∧ (s.tcb thr).ipcFrom ≠ L4_ANYTHREAD then
        let fromThr ← nonNull (← threadByGlobalid s (s.tcb thr).ipcFrom)
        if (s.tcb fromThr).state = .sendBlocked then doIpc mm s fromThr thr
        else return s
      else return s
    | .sendBlocked =>
      let utcb ← nonNull (s.tcb thr).utcb
      let receiver := (s.utcbs utcb).intendedReceiver
      if receiver ≠ L4_NILTHREAD ∧ receiver ≠ L4_ANYTHREAD then
        let toThr ← nonNull (← threadByGlobalid s receiver)
        if (s.tcb toThr).state = .recvBlocked then doIpc mm s thr toThr
        else return s
      else return s
    | _ => return s

/-- The loop of `ipc_deliver`: `n` threads from index `i` on. -/
def deliverLoop (mm : Memmap) : Nat → Nat → Core → Except Fault Core
  | 0, _, s => .ok s
  | n + 1, i, s => do
    let s ← deliverAt mm s i
    deliverLoop mm n (i + 1) s

def ipcDeliver (mm : Memmap) (s : Core) : Except Fault (Word × Core) := do
  let s ← deliverLoop mm (s.threadCount - 1) 1 s
  return (4096#32, s)

/-- The handlers of timer events. -/
inductive TimerHandler
  | ipcDeliver
  | ipcTimeout (thr : TcbRef)
  deriving DecidableEq, Repr

/-- The call of a handler. -/
def TimerHandler.run (mm : Memmap) (s : Core) : TimerHandler → Except Fault (Word × Core)
  | .ipcDeliver => F9.ipcDeliver mm s
  | .ipcTimeout thr => .ok (0#32, F9.ipcTimeout s thr)

/-! ## System calls -/

/-- The kernel with its timer. -/
structure Machine where
  core : Core
  timer : Ktimer TimerHandler
  syscallSoftirq : Bool

/-- Microseconds per tick as `sys_ipc` computes them:
`1000000 / (CORE_CLOCK / CONFIG_KTIMER_HEARTBEAT)`. -/
def usPerTick : Word := BitVec.ofNat 32 (1000000 / (168000000 / 65536))

/-- The sleep of a timeout word in ticks. Only the lower 16 bits are used; the shift and the
division are those of `int`. -/
def sleepTicks (timeout : Word) : Word :=
  let m := timeout &&& 0x3FF#32
  let e := ((timeout >>> 10) &&& 0x1F#32).toNat
  (m <<< e).sdiv usPerTick

/-- The start of a thread by its pager. -/
def startThread (kip : Word) (s : Core) (caller toThr : TcbRef) : Except Fault Core := do
  let sp ← ipcReadMr s caller 2
  let stackSize ← ipcReadMr s caller 3
  let s := s.setTcb toThr fun tcb =>
    { tcb with stackBase := sp - stackSize, stackSize := stackSize }
  let pc ← ipcReadMr s caller 1
  let s := threadInitCtx kip s sp pc toThr
  let s := s.setTcb caller fun tcb => { tcb with state := .runnable }
  -- Start thread
  return s.setTcb toThr fun tcb => { tcb with state := .runnable }

/-- `to_thr && to_thr->state == T_RECV_BLOCKED`. -/
def waitsInRecv (s : Core) (toThr : Option TcbRef) : Bool :=
  match toThr with
  | none => false
  | some t => decide ((s.tcb t).state = .recvBlocked)

/-- The test for an inactive thread whose pager is the caller. -/
def inactiveOfPager (s : Core) (caller : TcbRef) : Option TcbRef → Except Fault Bool
  | none => .ok false
  | some toThr =>
    if (s.tcb toThr).state = .inactive then do
      let utcb ← nonNull (s.tcb toThr).utcb
      return decide (globalidToTid (s.utcbs utcb).tPager =
        globalidToTid (s.tcb caller).tGlobalid)
    else .ok false

/-- The send phase of `sys_ipc`. -/
def sysIpcSend (mm : Memmap) (kip : Word) (s : Core) (caller : TcbRef) (toTid : Word) :
    Except Fault Core := do
  let toThr ← threadByGlobalid s toTid
  if toTid = tidToGlobalid THREAD_LOG then
    return s.setTcb caller fun tcb => { tcb with state := .runnable }
  else if waitsInRecv s toThr = true ∨ toTid = (s.tcb caller).tGlobalid then
    -- To thread who is waiting for us or sends to myself
    let toThr ← nonNull toThr
    doIpc mm s caller toThr
  else
    let inactive ← inactiveOfPager s caller toThr
    match toThr, inactive with
    | some t, true =>
      if (← ipcReadMr s caller 0) = 0x00000003#32 then startThread kip s caller t
      else
        let s ← doIpc mm s caller t
        return s.setTcb t fun tcb => { tcb with state := .inactive }
    | _, _ =>
      -- No waiting, block myself
      let utcb ← nonNull (s.tcb caller).utcb
      let s := s.setTcb caller fun tcb => { tcb with state := .sendBlocked }
      return s.setUtcb utcb fun u => { u with intendedReceiver := toTid }

def sysIpc (mm : Memmap) (kip : Word) (m : Machine) (caller : TcbRef) :
    Except Fault Machine := do
  let frame := (m.core.tcb caller).frame
  let toTid := frame.r0
  let fromTid := frame.r1
  let timeout := frame.r2
  let s := { m.core with calls := (caller, toTid) :: m.core.calls }
  if toTid = L4_NILTHREAD ∧ timeout ≠ 0#32 then
    -- Timeout/Sleep
    let s := s.setTcb caller fun tcb => { tcb with state := .inactive }
    let (_, timer) := m.timer.eventCreate (sleepTicks timeout) (.ipcTimeout caller)
    return { m with core := s, timer := timer }
  else if toTid ≠ L4_NILTHREAD then
    let s ← sysIpcSend mm kip s caller toTid
    return { m with core := s }
  else if fromTid ≠ L4_NILTHREAD then
    -- Only receive phases, simply lock myself
    let s := s.setTcb caller fun tcb => { tcb with state := .recvBlocked, ipcFrom := fromTid }
    return { m with core := s }
  else
    let s := s.setTcb caller fun tcb => { tcb with state := .sendBlocked }
    return { m with core := s }

/-- `UTCB_SIZE`. -/
def UTCB_SIZE : Word := 128#32

def sysThreadControl (mm : Memmap) (s : Core) (caller : TcbRef) : Except Fault Core := do
  let frame := (s.tcb caller).frame
  let dest := frame.r0
  let space := frame.r1
  let pager := frame.r3
  if space ≠ L4_NILTHREAD then
    -- Creation of thread
    let utcb := (s.tcb caller).ctx.regs 0
    match mempoolSearch mm utcb UTCB_SIZE with
    | none => return s
    | some mpid =>
      if (mempoolGetbyid mm mpid).flags &&& (MP_UR ||| MP_UW) = 0#32 then
        -- Incorrect UTCB relocation
        return s
      else
        let (thr, s) ← threadCreate s dest (some utcb)
        let thr ← nonNull thr
        let s ← threadSetSpace mm s thr space utcb
        let thrUtcb ← nonNull (s.tcb thr).utcb
        let s := s.setUtcb thrUtcb fun u => { u with tPager := pager }
        return s.setTcb caller fun tcb => { tcb with frame := { tcb.frame with r0 := 1#32 } }
  else
    -- Removal of thread
    let thr ← nonNull (← threadByGlobalid s dest)
    let s ← threadFreeSpace s thr
    threadDestroy s thr

def SYS_THREAD_CONTROL : BitVec 8 := 2#8
def SYS_IPC : BitVec 8 := 6#8

/-- `syscall_handler`. The number of the call is in the SVC instruction before the return
address. -/
def syscallHandler (mm : Memmap) (kip : Word) (m : Machine) : Except Fault Machine := do
  let caller ← nonNull m.core.caller
  let svcNum := m.core.code ((m.core.tcb caller).frame.pc - 2#32)
  if svcNum = SYS_THREAD_CONTROL then
    let s ← sysThreadControl mm m.core caller
    return { m with core := s.setTcb caller fun tcb => { tcb with state := .runnable } }
  else if svcNum = SYS_IPC then sysIpc mm kip m caller
  else
    return { m with core := m.core.setTcb caller fun tcb => { tcb with state := .runnable } }

/-! ## Runs -/

/-- The number of the system call of a thread. -/
def svcNum (s : Core) (c : TcbRef) : BitVec 8 := s.code ((s.tcb c).frame.pc - 2#32)

/-- What a user thread leaves behind when it traps: its stack pointer, the frame, r4 to r11,
and the message registers in its UTCB. -/
structure UserState where
  sp : Word
  frame : Frame
  regs : Nat → Word
  mr : Nat → Word

/-- The trap of a thread: the context is saved and `__svc_handler` runs. -/
def svcHandler (m : Machine) (thr : TcbRef) (user : UserState) : Machine :=
  let s := m.core.setTcb thr fun tcb =>
    { tcb with
      ctx := { tcb.ctx with sp := user.sp, regs := user.regs }
      frame := user.frame
      state := .svcBlocked }
  let s := match (s.tcb thr).utcb with
    | none => s
    | some u => s.setUtcb u fun utcb => { utcb with mr := user.mr }
  { m with core := { s with caller := some thr }, syscallSoftirq := true }

/-- What happens: a thread traps, the system call is carried out, a tick, a run of the timer
handler. A pass of `ipc_deliver` may come at any time. -/
inductive Event
  | svc (thr : TcbRef) (user : UserState)
  | syscall
  | tick
  | timer
  | deliver

/-- One step. A thread that traps is not the kernel thread and runs, which it does only while no
system call is pending. It may have removed itself, and then runs on in its freed entry. -/
inductive Machine.Step (mm : Memmap) (kip : Word) : Machine → Event → Machine → Prop
  | svc {m thr user} : m.syscallSoftirq = false →
      globalidToTid (m.core.tcb thr).tGlobalid ≠ THREAD_KERNEL →
      (m.core.tcb thr).state = .runnable → Step mm kip m (.svc thr user) (svcHandler m thr user)
  | syscall {m m'} : m.syscallSoftirq = true → syscallHandler mm kip m = .ok m' →
      Step mm kip m .syscall { m' with syscallSoftirq := false }
  | tick {m} : Step mm kip m .tick { m with timer := m.timer.tick }
  | timer {m core timer} : m.timer.kteSoftirq = true →
      Ktimer.eventHandler (TimerHandler.run mm) m.core { m.timer with kteSoftirq := false } =
        .ok (core, timer) →
      Step mm kip m .timer { m with core := core, timer := timer }
  | deliver {m n core} : ipcDeliver mm m.core = .ok (n, core) →
      Step mm kip m .deliver { m with core := core }

/-- The bytes of two UTCBs are apart. -/
def UtcbsApart (u u' : Word) : Prop := UTCB_SIZE ≤ u' - u ∧ UTCB_SIZE ≤ u - u'

/-- The UTCBs of allocated threads do not overlap. -/
def OwnUtcbs (s : Core) : Prop :=
  ∀ t t' u u', s.live t = true → s.live t' = true → (s.tcb t).utcb = some u →
    (s.tcb t').utcb = some u' → t ≠ t' → UtcbsApart u u'

/-- A set of threads, each with a UTCB of its own and none blocked, before the first call. -/
structure Machine.Start (m : Machine) : Prop where
  unblocked : ∀ t, (m.core.tcb t).state = .inactive ∨ (m.core.tcb t).state = .runnable
  own : OwnUtcbs m.core
  transfers : m.core.transfers = []
  calls : m.core.calls = []
  syscallSoftirq : m.syscallSoftirq = false

/-- The machine from the initial states on. -/
def Machine.system (mm : Memmap) (kip : Word) (init : Machine → Prop) : TSys Machine Event where
  init := init
  step := Machine.Step mm kip

end F9
