import F9.Kernel.Ipc
import F9.Lib.Traced

/-!
# Writes at addresses of the caller

The system calls once more, with a log of the words that the kernel writes at addresses it takes
from the call: two fields of the UTCB of a new thread, and the frame that starts a thread. What the
calls do is the same.
-/

namespace F9

open Traced

/-- The offset of `t_globalid` in `utcb_t`. -/
def utcbTGlobalid : Word := 0#32

/-- The offset of `t_pager` in `utcb_t`. -/
def utcbTPager : Word := 12#32

/-- The words of a frame: `((uint32_t *) sp)[REG_R0]` to `[REG_xPSR]`. -/
def frameWords (sp : Word) : List Word :=
  (List.range 8).map fun i => sp + BitVec.ofNat 32 (4 * i)

/-- The call of `c` is the message that starts thread `t`. -/
structure Starts (s : Core) (c t : TcbRef) : Prop where
  dest : (s.tcb c).frame.r0 ≠ L4_NILTHREAD
  found : threadByGlobalid s (s.tcb c).frame.r0 = .ok (some t)
  log : (s.tcb c).frame.r0 ≠ tidToGlobalid THREAD_LOG
  other : (s.tcb c).frame.r0 ≠ (s.tcb c).tGlobalid
  pager : inactiveOfPager s c (some t) = .ok true
  tag : (s.tcb c).ctx.regs 0 = 0x00000003#32

/-- The pending call starts a thread, and `w` is a word of the frame. -/
def FrameWord (m : Machine) (w : Word) : Prop :=
  ∃ c t, m.core.caller = some c ∧ svcNum m.core c = SYS_IPC ∧ Starts m.core c t ∧
    w ∈ frameWords ((m.core.tcb c).ctx.regs 2 - RESERVED_STACK)

/-- A word of the frame is not where user code may write. -/
def StrayFrame (mm : Memmap) (m : Machine) : Prop :=
  ∃ w, FrameWord m w ∧
    ∀ q, mempoolSearch mm w 4#32 = some q → (mempoolGetbyid mm q).flags &&& MP_UW = 0#32

/-- A word of the frame is in the UTCB of a thread. -/
def FrameInUtcb (m : Machine) : Prop :=
  ∃ w, FrameWord m w ∧ ∃ t u, m.core.live t = true ∧ (m.core.tcb t).utcb = some u ∧
    (w - u < UTCB_SIZE ∨ u - w < 4#32)

/-- A caller whose message is not a start writes no frame. -/
theorem not_frameWord {m : Machine} {w : Word}
    (h : ∀ c, m.core.caller = some c → (m.core.tcb c).ctx.regs 0 ≠ 0x00000003#32) :
    ¬ FrameWord m w := by
  rintro ⟨c, _, hc, _, hstart, _⟩
  exact h c hc hstart.tag

namespace UserWrites

def threadInit (s : Core) (globalid utcb : Word) :
    Traced Word Fault (Option TcbRef × Core) :=
  match s.threadTable.alloc with
  | none => do
    let s ← lift (setCallerError s UE_OUT_OF_MEM)
    return (none, s)
  | some (thr, table) => do
    let s ← lift (threadMapInsert { s with threadTable := table } globalid thr)
    tell [utcb + utcbTGlobalid]
    let s := utcbSetGlobalid s globalid (some utcb)
    return (some thr, s.setTcb thr fun tcb =>
      { tcb with
        tLocalid := 0#32
        tChild := none
        tParent := none
        tSibling := none
        tGlobalid := globalid
        as := none
        utcb := some utcb
        state := .inactive })

def threadCreate (s : Core) (globalid utcb : Word) :
    Traced Word Fault (Option TcbRef × Core) :=
  match s.caller with
  | none => lift (.error .panic)
  | some caller =>
    if globalidToTid globalid < THREAD_SYS ∨ globalid = L4_ANYTHREAD ∨
        globalid = L4_ANYLOCALTHREAD then do
      let s ← lift (setCallerError s UE_TC_NOT_AVAILABLE)
      return (none, s)
    else do
      let (thr, s) ← threadInit s globalid utcb
      let thr ← lift (nonNull thr)
      let s := s.setTcb thr fun tcb => { tcb with tParent := some caller }
      -- Place under
      match (s.tcb caller).tChild with
      | some child =>
        let t ← lift (lastSibling s s.treeBound child)
        let s := s.setTcb t fun tcb => { tcb with tSibling := some thr }
        let localid := (s.tcb t).tLocalid + 1#32 <<< 6
        return (some thr, s.setTcb thr fun tcb => { tcb with tLocalid := localid })
      | none =>
        let s := s.setTcb caller fun tcb => { tcb with tChild := some thr }
        return (some thr, s.setTcb thr fun tcb => { tcb with tLocalid := 1#32 <<< 6 })

def sysThreadControl (mm : Memmap) (s : Core) (caller : TcbRef) : Traced Word Fault Core := do
  let frame := (s.tcb caller).frame
  let dest := frame.r0
  let space := frame.r1
  let pager := frame.r3
  if space ≠ L4_NILTHREAD then
    -- Creation of thread
    let utcb := (s.tcb caller).ctx.regs 0
    match mempoolSearch mm utcb UTCB_SIZE with
    | none => return s
    | some mpid =>
      if (mempoolGetbyid mm mpid).flags &&& (MP_UR ||| MP_UW) = 0#32 then
        -- Incorrect UTCB relocation
        return s
      else
        let (thr, s) ← threadCreate s dest utcb
        let thr ← lift (nonNull thr)
        let s ← lift (threadSetSpace mm s thr space utcb)
        let thrUtcb ← lift (nonNull (s.tcb thr).utcb)
        tell [thrUtcb + utcbTPager]
        let s := s.setUtcb thrUtcb fun u => { u with tPager := pager }
        return s.setTcb caller fun tcb => { tcb with frame := { tcb.frame with r0 := 1#32 } }
  else
    -- Removal of thread
    let found ← lift (threadByGlobalid s dest)
    let thr ← lift (nonNull found)
    let s ← lift (threadFreeSpace s thr)
    lift (threadDestroy s thr)

/-- The start of a thread by its pager. -/
def startThread (kip : Word) (s : Core) (caller toThr : TcbRef) : Traced Word Fault Core := do
  let sp ← lift (ipcReadMr s caller 2)
  let stackSize ← lift (ipcReadMr s caller 3)
  let s := s.setTcb toThr fun tcb =>
    { tcb with stackBase := sp - stackSize, stackSize := stackSize }
  let pc ← lift (ipcReadMr s caller 1)
  tell (frameWords (sp - RESERVED_STACK))
  let s := threadInitCtx kip s sp pc toThr
  let s := s.setTcb caller fun tcb => { tcb with state := .runnable }
  -- Start thread
  return s.setTcb toThr fun tcb => { tcb with state := .runnable }

/-- The send phase of `sys_ipc`. -/
def sysIpcSend (mm : Memmap) (kip : Word) (s : Core) (caller : TcbRef) (toTid : Word) :
    Traced Word Fault Core := do
  let toThr ← lift (threadByGlobalid s toTid)
  if toTid = tidToGlobalid THREAD_LOG then
    return s.setTcb caller fun tcb => { tcb with state := .runnable }
  else if waitsInRecv s toThr = true ∨ toTid = (s.tcb caller).tGlobalid then
    -- To thread who is waiting for us or sends to myself
    let toThr ← lift (nonNull toThr)
    lift (doIpc mm s caller toThr)
  else
    let inactive ← lift (inactiveOfPager s caller toThr)
    match toThr, inactive with
    | some t, true =>
      let tag ← lift (ipcReadMr s caller 0)
      if tag = 0x00000003#32 then startThread kip s caller t
      else
        let s ← lift (doIpc mm s caller t)
        return s.setTcb t fun tcb => { tcb with state := .inactive }
    | _, _ =>
      -- No waiting, block myself
      let utcb ← lift (nonNull (s.tcb caller).utcb)
      let s := s.setTcb caller fun tcb => { tcb with state := .sendBlocked }
      return s.setUtcb utcb fun u => { u with intendedReceiver := toTid }

def sysIpc (mm : Memmap) (kip : Word) (m : Machine) (caller : TcbRef) :
    Traced Word Fault Machine :=
  let frame := (m.core.tcb caller).frame
  let toTid := frame.r0
  let timeout := frame.r2
  if toTid = L4_NILTHREAD ∧ timeout ≠ 0#32 then lift (F9.sysIpc mm kip m caller)
  else if toTid ≠ L4_NILTHREAD then do
    let s ← sysIpcSend mm kip { m.core with calls := (caller, toTid) :: m.core.calls } caller toTid
    return { m with core := s }
  else lift (F9.sysIpc mm kip m caller)

def syscallHandler (mm : Memmap) (kip : Word) (m : Machine) : Traced Word Fault Machine := do
  let caller ← lift (nonNull m.core.caller)
  let svcNum := m.core.code ((m.core.tcb caller).frame.pc - 2#32)
  if svcNum = SYS_THREAD_CONTROL then
    let s ← sysThreadControl mm m.core caller
    return { m with core := s.setTcb caller fun tcb => { tcb with state := .runnable } }
  else if svcNum = SYS_IPC then sysIpc mm kip m caller
  else
    return { m with core := m.core.setTcb caller fun tcb => { tcb with state := .runnable } }

/-! ## Without the log -/

theorem threadInit_result (s : Core) (globalid utcb : Word) :
    (threadInit s globalid utcb).result = F9.threadInit s globalid (some utcb) := by
  unfold threadInit F9.threadInit
  cases s.threadTable.alloc <;> exact result_bind rfl fun _ => rfl

theorem threadCreate_result (s : Core) (globalid utcb : Word) :
    (threadCreate s globalid utcb).result = F9.threadCreate s globalid (some utcb) := by
  unfold threadCreate F9.threadCreate
  cases s.caller with
  | none => rfl
  | some caller =>
    dsimp only
    split
    · exact result_bind rfl fun _ => rfl
    · refine result_bind (threadInit_result s globalid utcb) fun new => ?_
      refine result_bind rfl fun thr => ?_
      generalize new.2.setTcb thr _ = s1
      cases (s1.tcb caller).tChild with
      | none => rfl
      | some child => exact result_bind rfl fun _ => rfl

theorem sysThreadControl_result (mm : Memmap) (s : Core) (caller : TcbRef) :
    (sysThreadControl mm s caller).result = F9.sysThreadControl mm s caller := by
  unfold sysThreadControl F9.sysThreadControl
  dsimp only
  split
  · cases mempoolSearch mm ((s.tcb caller).ctx.regs 0) UTCB_SIZE with
    | none => rfl
    | some mpid =>
      dsimp only
      split
      · rfl
      · refine result_bind (threadCreate_result s _ _) fun new => ?_
        refine result_bind rfl fun thr => ?_
        refine result_bind rfl fun s2 => ?_
        exact result_bind rfl fun u => rfl
  · refine result_bind rfl fun found => ?_
    refine result_bind rfl fun thr => ?_
    exact result_bind rfl fun s1 => rfl

theorem startThread_result (kip : Word) (s : Core) (caller toThr : TcbRef) :
    (startThread kip s caller toThr).result = F9.startThread kip s caller toThr := by
  refine result_bind rfl fun sp => ?_
  refine result_bind rfl fun stackSize => ?_
  exact result_bind rfl fun pc => rfl

theorem sysIpcSend_result (mm : Memmap) (kip : Word) (s : Core) (caller : TcbRef) (toTid : Word) :
    (sysIpcSend mm kip s caller toTid).result = F9.sysIpcSend mm kip s caller toTid := by
  refine result_bind rfl fun toThr => ?_
  split
  · rfl
  · split
    · exact result_bind rfl fun _ => rfl
    · refine result_bind rfl fun inactive => ?_
      cases toThr with
      | none => exact result_bind rfl fun _ => rfl
      | some t =>
        cases inactive with
        | false => exact result_bind rfl fun _ => rfl
        | true =>
          refine result_bind rfl fun tag => ?_
          split
          · exact startThread_result kip s caller t
          · exact result_bind rfl fun _ => rfl

theorem sysIpc_result (mm : Memmap) (kip : Word) (m : Machine) (caller : TcbRef) :
    (sysIpc mm kip m caller).result = F9.sysIpc mm kip m caller := by
  unfold sysIpc
  dsimp only
  split
  · rfl
  · rename_i hsleep
    split
    · rename_i hto
      unfold F9.sysIpc
      rw [if_neg hsleep, if_pos hto]
      exact result_bind (sysIpcSend_result mm kip _ caller _) fun _ => rfl
    · rfl

/-- The logged calls are the calls. -/
theorem syscallHandler_result (mm : Memmap) (kip : Word) (m : Machine) :
    (syscallHandler mm kip m).result = F9.syscallHandler mm kip m := by
  refine result_bind rfl fun caller => ?_
  dsimp only
  split
  · exact result_bind (sysThreadControl_result mm m.core caller) fun _ => rfl
  · split
    · exact sysIpc_result mm kip m caller
    · rfl

end UserWrites

end F9
