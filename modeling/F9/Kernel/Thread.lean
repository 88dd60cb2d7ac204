import F9.Kernel.System

/-!
# Threads (`thread.c`, `sched.c`, `error.c`)

The thread table, its index `thread_map`, the thread tree and the scheduler
slots. Pointers to thread control blocks are indices of `thread_table`. A UTCB is
a record behind its user address, so threads created with one address share it.
The exception frame at `ctx.sp` is kept with the thread: the stacks of two threads
do not overlap.

`thread_by_globalid` reads `thread_map[thread_count]` when the search runs past the
end. The entry is an old one, `NULL`, or out of bounds.
-/

namespace F9

/-! ## Configuration -/

/-- `CONFIG_MAX_THREADS`. -/
def configMaxThreads : Nat := 32

def L4_NILTHREAD : Word := 0#32
def L4_ANYLOCALTHREAD : Word := 0xFFFFFFC0#32
def L4_ANYTHREAD : Word := 0xFFFFFFFF#32

/-- `GLOBALID_TO_TID`: the thread number, without the version bits. -/
def globalidToTid (id : Word) : Nat := (id >>> 14).toNat

/-- `TID_TO_GLOBALID`. -/
def tidToGlobalid (tid : Nat) : Word := BitVec.ofNat 32 tid <<< 14

/-- `thread_tag_t`. -/
def THREAD_IDLE : Nat := 0
def THREAD_KERNEL : Nat := 1
def THREAD_ROOT : Nat := 2
def THREAD_LOG : Nat := 3
def THREAD_SYS : Nat := 16

/-- `user_error_t`, the errors that are set. -/
def UE_OUT_OF_MEM : Word := 8#32
def UE_TC_NOT_AVAILABLE : Word := 2#32
def UE_IPC_PHASE_SEND : Word := 0#32
def UE_IPC_PHASE_RECV : Word := 1#32
def UE_IPC_MSG_OVERFLOW : Word := 8#32

/-! ## State -/

/-- A pointer to an element of `thread_table`. -/
abbrev TcbRef := Nat

/-- `thread_state_t`. -/
inductive ThreadState
  | inactive
  | runnable
  | svcBlocked
  | recvBlocked
  | sendBlocked
  deriving DecidableEq, Repr

/-- The words that the hardware saves on the stack (`register_stack_t`). -/
structure Frame where
  r0 : Word
  r1 : Word
  r2 : Word
  r3 : Word
  r12 : Word
  lr : Word
  pc : Word
  xpsr : Word
  deriving DecidableEq, Repr

instance : Inhabited Frame := ⟨⟨0#32, 0#32, 0#32, 0#32, 0#32, 0#32, 0#32, 0#32⟩⟩

/-- `context_t`. `regs` holds r4 to r11, the message registers 0 to 7. -/
structure Context where
  sp : Word
  ret : Word
  ctl : Word
  regs : Nat → Word

/-- A thread control block (`tcb_t`). `frame` are the words at `ctx.sp`. -/
structure Tcb where
  tGlobalid : Word
  tLocalid : Word
  state : ThreadState
  stackBase : Word
  stackSize : Word
  ctx : Context
  frame : Frame
  as : Option AsRef
  utcb : Option Word
  ipcFrom : Word
  tSibling : Option TcbRef
  tParent : Option TcbRef
  tChild : Option TcbRef

/-- Statically allocated tables are zero at boot. -/
instance : Inhabited Tcb :=
  ⟨⟨0#32, 0#32, .inactive, 0#32, 0#32, ⟨0#32, 0#32, 0#32, fun _ => 0#32⟩, default, none, none,
    0#32, none, none, none⟩⟩

/-- A user thread control block (`utcb_t`), the fields the kernel uses. `mr` are the message
registers 8 to 15. -/
structure Utcb where
  tGlobalid : Word
  tPager : Word
  errorCode : Word
  intendedReceiver : Word
  sender : Word
  mr : Nat → Word

instance : Inhabited Utcb := ⟨⟨0#32, 0#32, 0#32, 0#32, 0#32, fun _ => 0#32⟩⟩

/-- `sched_slot_id_t`. -/
inductive SchedSlot
  | softirq
  | intrThread
  | rootThread
  | ipcThread
  | normalThread
  | idle
  deriving DecidableEq, Repr

/-- A message that has been transferred: by whom and to whom, the destination and the source
that the sender and the receiver had asked for. The source is `none` if the receiver was not
in `T_RECV_BLOCKED`. -/
structure Transfer where
  sender : TcbRef
  senderId : Word
  receiver : TcbRef
  receiverId : Word
  dest : Word
  awaited : Option Word
  deriving DecidableEq, Repr

/-- What thread control and IPC work on. `code` is the instruction memory. `transfers` and
`calls` are not in the source: they record the transfers that `do_ipc` has completed and the
calls of `sys_ipc` with their destination, latest first. -/
structure Core where
  mem : Kernel
  threadTable : KTable Tcb
  threadMap : Nat → Option TcbRef
  threadCount : Nat
  utcbs : Word → Utcb
  slots : SchedSlot → Option TcbRef
  caller : Option TcbRef
  code : Word → BitVec 8
  transfers : List Transfer
  calls : List (TcbRef × Word)

namespace Core

/-- The thread behind a pointer. -/
def tcb (s : Core) (t : TcbRef) : Tcb := s.threadTable.data t

/-- The thread is allocated. -/
def live (s : Core) (t : TcbRef) : Bool := s.threadTable.live t

/-- Update one thread in place. -/
def setTcb (s : Core) (t : TcbRef) (f : Tcb → Tcb) : Core :=
  { s with threadTable := s.threadTable.write t (f (s.tcb t)) }

/-- Update one UTCB in place. -/
def setUtcb (s : Core) (u : Word) (f : Utcb → Utcb) : Core :=
  { s with utcbs := fun v => if v = u then f (s.utcbs u) else s.utcbs v }

def schedSlotDispatch (s : Core) (slot : SchedSlot) (thread : TcbRef) : Core :=
  { s with slots := fun i => if i = slot then some thread else s.slots i }

end Core

/-- The value behind a pointer that may be `NULL`. -/
def nonNull {α : Type} : Option α → Except Fault α
  | none => .error .nullDeref
  | some a => .ok a

/-! ## Errors -/

def setUserError (s : Core) (thread : TcbRef) (error : Word) : Except Fault Core :=
  match (s.tcb thread).utcb with
  | none => .error .panic
  | some u => .ok (s.setUtcb u fun utcb => { utcb with errorCode := error })

def setCallerError (s : Core) (error : Word) : Except Fault Core :=
  match s.caller with
  | none => .error .panic
  | some caller => setUserError s caller error

/-! ## The thread map -/

/-- The thread number behind `thread_map[i]`. -/
def threadMapTid (s : Core) (i : Nat) : Except Fault Nat :=
  if configMaxThreads ≤ i then .error .outOfBounds
  else do
    let thr ← nonNull (s.threadMap i)
    return globalidToTid (s.tcb thr).tGlobalid

/-- The loop of `thread_map_search`. -/
def threadMapLoop (s : Core) (tid : Nat) : Nat → Nat → Nat → Except Fault Nat
  | 0, _, _ => .error .hang
  | n + 1, first, last =>
    -- not reached: the index -1
    if last < first then .error .outOfBounds
    else
      let mid := first + (last - first) / 2
      if last - first ≤ 1 then .ok last
      else do
        let midTid ← threadMapTid s mid
        if tid < midTid then threadMapLoop s tid n first mid
        else if midTid < tid then threadMapLoop s tid n mid last
        else return mid

def threadMapSearch (s : Core) (globalid : Word) (first last : Nat) : Except Fault Nat := do
  let tid := globalidToTid globalid
  -- Upper bound if beginning of array
  if last = first then return first
  else if tid ≤ (← threadMapTid s first) then return first
  else threadMapLoop s tid (last - first + 1) first last

def threadMapInsert (s : Core) (globalid : Word) (thr : TcbRef) : Except Fault Core :=
  if s.threadCount = 0 then
    .ok { s with
      threadMap := fun j => if j = 0 then some thr else s.threadMap j
      threadCount := 1 }
  else do
    let i ← threadMapSearch s globalid 0 s.threadCount
    if configMaxThreads ≤ s.threadCount then .error .outOfBounds
    else
      -- Move forward
      return { s with
        threadMap := fun j =>
          if j = i then some thr
          else if i < j ∧ j ≤ s.threadCount then s.threadMap (j - 1)
          else s.threadMap j
        threadCount := s.threadCount + 1 }

/-- `thread_map_delete`. The last entry stays where it is. -/
def threadMapDelete (s : Core) (globalid : Word) : Except Fault Core :=
  if s.threadCount = 1 then .ok { s with threadCount := 0 }
  -- the count would become negative
  else if s.threadCount = 0 then .error .outOfBounds
  else do
    let i ← threadMapSearch s globalid 0 s.threadCount
    return { s with
      threadMap := fun j =>
        if i ≤ j ∧ j < s.threadCount - 1 then s.threadMap (j + 1) else s.threadMap j
      threadCount := s.threadCount - 1 }

def threadByGlobalid (s : Core) (globalid : Word) : Except Fault (Option TcbRef) := do
  let idx ← threadMapSearch s globalid 0 s.threadCount
  let tid ← threadMapTid s idx
  if tid ≠ globalidToTid globalid then return none
  else return s.threadMap idx

/-! ## Creation -/

/-- The id of a new thread in its UTCB, if it has one. -/
def utcbSetGlobalid (s : Core) (globalid : Word) : Option Word → Core
  | none => s
  | some u => s.setUtcb u fun utcb => { utcb with tGlobalid := globalid }

def threadInit (s : Core) (globalid : Word) (utcb : Option Word) :
    Except Fault (Option TcbRef × Core) :=
  match s.threadTable.alloc with
  | none => do
    let s ← setCallerError s UE_OUT_OF_MEM
    return (none, s)
  | some (thr, table) => do
    let s ← threadMapInsert { s with threadTable := table } globalid thr
    let s := utcbSetGlobalid s globalid utcb
    return (some thr, s.setTcb thr fun tcb =>
      { tcb with
        tLocalid := 0#32
        tChild := none
        tParent := none
        tSibling := none
        tGlobalid := globalid
        as := none
        utcb := utcb
        state := .inactive })

/-- The walk to the last sibling in `thread_create`. -/
def lastSibling (s : Core) : Nat → TcbRef → Except Fault TcbRef
  | 0, _ => .error .hang
  | n + 1, t =>
    match (s.tcb t).tSibling with
    | none => .ok t
    | some t => lastSibling s n t

/-- A loop that follows thread links for more steps than the table has elements is in a
cycle. -/
def Core.treeBound (s : Core) : Nat := s.threadTable.num + 1

def threadCreate (s : Core) (globalid : Word) (utcb : Option Word) :
    Except Fault (Option TcbRef × Core) :=
  match s.caller with
  | none => .error .panic
  | some caller =>
    if globalidToTid globalid < THREAD_SYS ∨ globalid = L4_ANYTHREAD ∨
        globalid = L4_ANYLOCALTHREAD then do
      let s ← setCallerError s UE_TC_NOT_AVAILABLE
      return (none, s)
    else do
      let (thr, s) ← threadInit s globalid utcb
      let thr ← nonNull thr
      let s := s.setTcb thr fun tcb => { tcb with tParent := some caller }
      -- Place under
      match (s.tcb caller).tChild with
      | some child =>
        let t ← lastSibling s s.treeBound child
        let s := s.setTcb t fun tcb => { tcb with tSibling := some thr }
        let localid := (s.tcb t).tLocalid + 1#32 <<< 6
        return (some thr, s.setTcb thr fun tcb => { tcb with tLocalid := localid })
      | none =>
        let s := s.setTcb caller fun tcb => { tcb with tChild := some thr }
        return (some thr, s.setTcb thr fun tcb => { tcb with tLocalid := 1#32 <<< 6 })

/-! ## Removal -/

/-- The search for `thr` among the children in `thread_destroy`: the child before it. -/
def prevSibling (s : Core) (thr : TcbRef) : Nat → TcbRef → Option TcbRef → Except Fault TcbRef
  | 0, _, _ => .error .hang
  | n + 1, prev, child => do
    if child = some thr then return prev
    else
      let child ← nonNull child
      prevSibling s thr n child (s.tcb child).tSibling

/-- The loop of `thread_destroy` over the children: they move to the caller. The last child
is returned. -/
def adoptChildren (caller : TcbRef) : Nat → Core → TcbRef → Except Fault (TcbRef × Core)
  | 0, _, _ => .error .hang
  | n + 1, s, child =>
    let s := s.setTcb child fun tcb => { tcb with tParent := some caller }
    match (s.tcb child).tSibling with
    | none => .ok (child, s)
    | some sibling => adoptChildren caller n s sibling

def threadDeinit (s : Core) (thr : TcbRef) : Except Fault Core := do
  let s ← threadMapDelete s (s.tcb thr).tGlobalid
  return { s with threadTable := s.threadTable.free thr }

/-- The first part of `thread_destroy`: remove thr from its parent and its siblings. -/
def unlinkThread (s : Core) (thr : TcbRef) : Except Fault Core := do
  let parent ← nonNull (s.tcb thr).tParent
  if (s.tcb parent).tChild = some thr then
    return s.setTcb parent fun tcb => { tcb with tChild := (s.tcb thr).tSibling }
  else
    let child ← nonNull (s.tcb parent).tChild
    let prev ← prevSibling s thr s.treeBound child (s.tcb child).tSibling
    return s.setTcb prev fun tcb => { tcb with tSibling := (s.tcb thr).tSibling }

/-- The second part of `thread_destroy`: move thr's children to caller. -/
def moveChildren (s : Core) (thr : TcbRef) : Except Fault Core :=
  match (s.tcb thr).tChild with
  | none => .ok s
  | some child => do
    let caller ← nonNull s.caller
    let (last, s) ← adoptChildren caller s.treeBound s child
    -- connect thr's children to caller's children
    let s := s.setTcb last fun tcb => { tcb with tSibling := (s.tcb caller).tChild }
    return s.setTcb caller fun tcb => { tcb with tChild := (s.tcb thr).tChild }

def threadDestroy (s : Core) (thr : TcbRef) : Except Fault Core := do
  let s ← unlinkThread s thr
  let s ← moveChildren s thr
  threadDeinit s thr

/-! ## Spaces -/

def threadIspriviliged (s : Core) (thr : TcbRef) : Bool :=
  decide (globalidToTid (s.tcb thr).tGlobalid = THREAD_ROOT)

/-- The `caller` argument of `threadSpace`. -/
def callerSpace (s : Core) : Except Fault (Option (AsRef × Bool)) :=
  match s.caller with
  | none => .ok none
  | some caller => do
    let as ← nonNull (s.tcb caller).as
    return some (as, threadIspriviliged s caller)

/-- `thread_space` for a thread: its part in `thread.c` around `threadSpace`. -/
def threadSetSpace (mm : Memmap) (s : Core) (thr : TcbRef) (spaceid utcb : Word) :
    Except Fault Core := do
  let globalid := (s.tcb thr).tGlobalid
  if globalidToTid globalid = globalidToTid spaceid then
    let (as, _) ← asCreate s.mem globalid
    let s := s.setTcb thr fun tcb => { tcb with as := some as }
    let caller ← callerSpace s
    let mem ← threadSpace mm s.mem caller none globalid utcb
    return { s with mem := mem }
  else
    let space ← nonNull (← threadByGlobalid s spaceid)
    let as ← nonNull (s.tcb space).as
    let s := s.setTcb thr fun tcb => { tcb with as := some as }
    let caller ← callerSpace s
    let mem ← threadSpace mm s.mem caller (some as) globalid utcb
    return { s with mem := mem }

def threadFreeSpace (s : Core) (thr : TcbRef) : Except Fault Core := do
  let as ← nonNull (s.tcb thr).as
  let mem ← asDestroy s.mem as
  return { s with mem := mem }

/-! ## Contexts -/

/-- `RESERVED_STACK`: the size of a frame. -/
def RESERVED_STACK : Word := 32#32

/-- The frame that `thread_init_ctx` makes. `kip` is the address of the KIP. -/
def initFrame (kip pc : Word) (tcb : Tcb) : Frame :=
  if THREAD_ROOT ≤ globalidToTid tcb.tGlobalid then
    ⟨kip, tcb.utcb.getD 0#32, 0#32, 0#32, 0#32, 0xFFFFFFFF#32, pc, 0x1000000#32⟩
  else ⟨0#32, 0#32, 0#32, 0#32, 0#32, 0xFFFFFFFF#32, pc, 0x1000000#32⟩

/-- `thread_init_ctx`. The frame is kept with the thread, not in the memory below `sp`. -/
def threadInitCtx (kip : Word) (s : Core) (sp pc : Word) (thr : TcbRef) : Core :=
  s.setTcb thr fun tcb =>
    let user := decide (THREAD_ROOT ≤ globalidToTid tcb.tGlobalid)
    { tcb with
      ctx := { tcb.ctx with
        sp := sp - RESERVED_STACK
        ret := if user then 0xFFFFFFFD#32 else 0xFFFFFFF9#32
        ctl := if user then 0x3#32 else 0x0#32 }
      frame := initFrame kip pc tcb }

end F9
