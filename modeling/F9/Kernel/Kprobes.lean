import F9.Kernel.Thread
import F9.Lib.TSys

/-!
# Kernel probes

`kprobes.c` and `kprobes-arch.c`, with the breakpoints they use (`breakpoint.c`,
`breakpoint-hard.c`, `breakpoint-soft.c`). Below 0x20000000, where the code is in flash, a
breakpoint is one of the six comparators of the flash patch unit; above, the BKPT instruction is
written over the probed one. The list of probes is a `List`, its head first: probes are added
only while they are not in it. All probes have storage of their own, `kprobe p`.
-/

namespace F9

abbrev Halfword := BitVec 16

/-- Probes, by the address of their `struct kprobe`. -/
abbrev KpRef := Nat

/-- `BKPT_MAX_NUM`. -/
def bkptMaxNum : Nat := 10

/-- `FPB_MAX_COMP`. -/
def fpbMaxComp : Nat := 6

/-- `FPB_COMP_ENABLE`. -/
def fpbCompEnable : Word := 1#32

/-- `FPB_COMP_REPLACE_LOWER`. -/
def fpbCompReplaceLower : Word := 0x40000000#32

/-- `FPB_COMP_REPLACE_UPPER`. -/
def fpbCompReplaceUpper : Word := 0x80000000#32

/-- `FPB_COMP_ADDR_MASK`. -/
def fpbCompAddrMask : Word := 0x1FFFFFFC#32

/-- `SCB_DFSR_HALTED`. -/
def scbDfsrHalted : Word := 1#32

/-- `SCB_DFSR_BKPT`. -/
def scbDfsrBkpt : Word := 2#32

/-- `SCB_DFSR_DWTTRAP`. -/
def scbDfsrDwttrap : Word := 4#32

/-- The BKPT instruction of `insert_bkpt`. -/
def breakpointInstr : Halfword := 0xbe11#16

/-- `BKPT_NONE`, `BKPT_HARD` and `BKPT_SOFT`. -/
inductive BkptType
  | none
  | hard
  | soft
  deriving DecidableEq, Repr

/-- `struct breakpoint`. `rawData` is the union of `hard_breakpoint_id` and `back_instr`; `ops`
says whose functions `enable`, `disable` and `release` are, with `BKPT_NONE` for null
pointers. -/
structure Breakpoint where
  type : BkptType
  rawData : Halfword
  addr : Word
  ops : BkptType
  deriving DecidableEq, Repr

/-- What a handler is called with and may change: the exception frame, and r4 to r11. -/
structure ProbeContext where
  stack : Frame
  kpRegs : Fin 8 → Word

/-- `kprobe_pre_handler_t` and `kprobe_post_handler_t`, for a probe. -/
abbrev KprobeHandler := ProbeContext → ProbeContext

/-- `struct kprobe`; the links are in the list of probes. -/
structure Kprobe where
  addr : Word
  preHandler : Option KprobeHandler
  postHandler : Option KprobeHandler
  bkpt : Option Nat
  stepAddr : Word

/-- The breakpoints, the registers of the debug hardware, the halfwords of the memory and the
probes. In `hardBreakpoints`, `none` is -1. -/
structure Kprobes where
  breakpoints : Nat → Breakpoint
  hardBreakpoints : Nat → Option Nat
  fpbComp : Nat → Word
  dfsr : Word
  monStep : Bool
  code : Word → Halfword
  kpList : List KpRef
  kprobe : KpRef → Kprobe

def breakpointTypeByAddr (addr : Word) : BkptType :=
  if addr < 0x20000000#32 then .hard else .soft

def isThumb32 (inst : Halfword) : Bool := 0xe800#16 ≤ inst

namespace Kprobes

variable (s : Kprobes)

def setBreakpoint (b : Nat) (bp : Breakpoint) : Kprobes :=
  { s with breakpoints := Function.update s.breakpoints b bp }

def setKprobe (p : KpRef) (kp : Kprobe) : Kprobes :=
  { s with kprobe := Function.update s.kprobe p kp }

def setFpbComp (c : Nat) (w : Word) : Kprobes :=
  { s with fpbComp := Function.update s.fpbComp c w }

def setCode (addr : Word) (inst : Halfword) : Kprobes :=
  { s with code := Function.update s.code addr inst }

/-- A write to `SCB_DFSR` clears the bits that are written as 1. -/
def clearDfsr (bits : Word) : Kprobes := { s with dfsr := s.dfsr &&& ~~~bits }

/-! ## Comparators -/

def getAvailHardBreakpoint : Option Nat :=
  (List.range fpbMaxComp).find? fun i => s.hardBreakpoints i = none

def hardBreakpointPoolInit : Kprobes :=
  let s := ((s.clearDfsr scbDfsrBkpt).clearDfsr scbDfsrHalted).clearDfsr scbDfsrDwttrap
  { s with
    hardBreakpoints := fun i => if i < fpbMaxComp then none else s.hardBreakpoints i
    fpbComp := fun i => if i < fpbMaxComp then 0#32 else s.fpbComp i }

/-- `hard_breakpoint_config` for `breakpoints[b]`. -/
def hardBreakpointConfig (addr : Word) (b : Nat) : Option Kprobes :=
  if breakpointTypeByAddr addr = .hard then
    match s.getAvailHardBreakpoint with
    | some id =>
      let s := { s with hardBreakpoints := Function.update s.hardBreakpoints id (some b) }
      some (s.setBreakpoint b ⟨.hard, BitVec.ofNat 16 id, addr, .hard⟩)
    | none => none
  else none

/-- What `hard_breakpoint_enable` writes to the comparator. -/
def fpbCompFor (addr : Word) : Word :=
  if addr &&& 2#32 ≠ 0#32 then
    fpbCompReplaceUpper ||| (addr &&& fpbCompAddrMask) ||| fpbCompEnable
  else
    fpbCompReplaceLower ||| (addr &&& fpbCompAddrMask) ||| fpbCompEnable

/-- A comparator with the value `w` is enabled and stops at the halfword at `a`: it compares
bits 2 to 28 of addresses in the code region, and has one bit for each of the two halfwords. -/
def FpbMatches (w a : Word) : Prop :=
  w &&& fpbCompEnable ≠ 0#32 ∧ a < 0x20000000#32 ∧
    w &&& fpbCompAddrMask = a &&& fpbCompAddrMask ∧
    w &&& (if a &&& 2#32 ≠ 0#32 then fpbCompReplaceUpper else fpbCompReplaceLower) ≠ 0#32

instance (w a : Word) : Decidable (FpbMatches w a) := inferInstanceAs (Decidable (_ ∧ _ ∧ _ ∧ _))

def hardBreakpointEnable (b : Nat) : Kprobes :=
  s.setFpbComp (s.breakpoints b).rawData.toNat (fpbCompFor (s.breakpoints b).addr)

def hardBreakpointDisable (b : Nat) : Kprobes :=
  let id := (s.breakpoints b).rawData.toNat
  s.setFpbComp id (s.fpbComp id &&& ~~~fpbCompEnable)

def hardBreakpointRelease (b : Nat) : Kprobes :=
  let id := (s.breakpoints b).rawData.toNat
  let s := s.setFpbComp id (s.fpbComp id &&& ~~~fpbCompEnable)
  let s := { s with hardBreakpoints := Function.update s.hardBreakpoints id none }
  s.setBreakpoint b { s.breakpoints b with type := .none }

/-! ## Patched instructions -/

/-- `soft_breakpoint_config` for `breakpoints[b]`. -/
def softBreakpointConfig (addr : Word) (b : Nat) : Option Kprobes :=
  if breakpointTypeByAddr addr = .soft then
    some (s.setBreakpoint b ⟨.soft, s.code addr, addr, .soft⟩)
  else none

/-- `soft_breakpoint_enable`, which is `insert_bkpt`. -/
def softBreakpointEnable (b : Nat) : Kprobes := s.setCode (s.breakpoints b).addr breakpointInstr

/-- `soft_breakpoint_disable`, which is `delete_bkpt`. -/
def softBreakpointDisable (b : Nat) : Kprobes :=
  s.setCode (s.breakpoints b).addr (s.breakpoints b).rawData

def softBreakpointRelease (b : Nat) : Kprobes :=
  s.setBreakpoint b { s.breakpoints b with type := .none }

/-! ## Breakpoints -/

def breakpointConfig (id : Nat) (addr : Word) : Option Kprobes :=
  match breakpointTypeByAddr addr with
  | .hard => s.hardBreakpointConfig addr id
  | .soft => s.softBreakpointConfig addr id
  | .none => none

/-- `get_avail_breakpoint`: the first free slot, configured, if that is possible. -/
def getAvailBreakpoint (addr : Word) : Option (Nat × Kprobes) :=
  match (List.range bkptMaxNum).find? fun i => (s.breakpoints i).type = .none with
  | some i => (s.breakpointConfig i addr).map fun s => (i, s)
  | none => none

/-- `breakpoint_pool_init`. The loop stops at `FPB_MAX_COMP`. -/
def breakpointPoolInit : Kprobes :=
  let s := { s with
    breakpoints := fun i =>
      if i < fpbMaxComp then { s.breakpoints i with type := .none, addr := 0#32, rawData := 0#16 }
      else s.breakpoints i }
  s.hardBreakpointPoolInit

def breakpointInstall (addr : Word) : Option (Nat × Kprobes) := s.getAvailBreakpoint addr

/-- A call through a function pointer of `breakpoints[b]`. -/
def callOp (b : Option Nat) (hard soft : Nat → Kprobes) : Except Fault Kprobes :=
  match b with
  | none => .error .nullDeref
  | some b =>
    match (s.breakpoints b).ops with
    | .hard => .ok (hard b)
    | .soft => .ok (soft b)
    | .none => .error .nullDeref

def breakpointUninstall (b : Option Nat) : Except Fault Kprobes :=
  s.callOp b s.hardBreakpointRelease s.softBreakpointRelease

def enableBreakpoint (b : Option Nat) : Except Fault Kprobes :=
  s.callOp b s.hardBreakpointEnable s.softBreakpointEnable

def disableBreakpoint (b : Option Nat) : Except Fault Kprobes :=
  s.callOp b s.hardBreakpointDisable s.softBreakpointDisable

/-! ## Probes -/

def kprobeInit : Kprobes := { s with kpList := [] }.breakpointPoolInit

def kplistSearch (addr : Word) : Option KpRef :=
  s.kpList.find? fun p => (s.kprobe p).addr = addr

def kplistAdd (kp : KpRef) : Kprobes := { s with kpList := kp :: s.kpList }

def kplistDel (kp : KpRef) : Kprobes := { s with kpList := s.kpList.erase kp }

def kprobeArchAdd (kp : KpRef) : Except Fault (Int × Kprobes) :=
  match s.kplistSearch (s.kprobe kp).addr with
  | none =>
    match s.breakpointInstall (s.kprobe kp).addr with
    | some (b, s) => do
      let s := s.setKprobe kp { s.kprobe kp with bkpt := some b }
      let s ← s.enableBreakpoint (some b)
      return (0, s)
    | none => return (-1, s)
  | some found =>
    return (0, s.setKprobe kp { s.kprobe kp with bkpt := (s.kprobe found).bkpt })

def kprobeArchDel (kp : KpRef) : Except Fault (Int × Kprobes) :=
  match s.kplistSearch (s.kprobe kp).addr with
  | none => do
    let s ← s.breakpointUninstall (s.kprobe kp).bkpt
    return (0, s)
  | some _ => return (0, s)

def kprobeRegister (kp : KpRef) : Except Fault (Int × Kprobes) := do
  let addr := (s.kprobe kp).addr &&& ~~~1#32
  let stepAddr := if isThumb32 (s.code addr) then addr + 4#32 else addr + 2#32
  let s := s.setKprobe kp { s.kprobe kp with addr := addr, stepAddr := stepAddr }
  let (ret, s) ← s.kprobeArchAdd kp
  if ret < 0 then return (-1, s)
  return (0, s.kplistAdd kp)

def kprobeUnregister (kp : KpRef) : Except Fault (Int × Kprobes) := do
  let s := s.kplistDel kp
  let (_, s) ← s.kprobeArchDel kp
  return (0, s)

/-! ## Debug events -/

/-- The loop of `kprobe_prebreak` and `kprobe_postbreak`: the handlers of the probes whose
`addrOf` is the program counter, which a handler may change. -/
def callHandlers (addrOf : Kprobe → Word) (handlerOf : Kprobe → Option KprobeHandler)
    (ctx : ProbeContext) : ProbeContext :=
  s.kpList.foldl (fun ctx p =>
    match handlerOf (s.kprobe p) with
    | some handler => if addrOf (s.kprobe p) = ctx.stack.pc then handler ctx else ctx
    | none => ctx) ctx

def kprobePrebreak (ctx : ProbeContext) : ProbeContext := s.callHandlers (·.addr) (·.preHandler) ctx

def kprobePostbreak (ctx : ProbeContext) : ProbeContext :=
  s.callHandlers (·.stepAddr) (·.postHandler) ctx

/-- The loop of `kprobe_breakpoint_enable` and `kprobe_breakpoint_disable`. -/
def breakpointLoop (addrOf : Kprobe → Word) (op : Kprobes → Option Nat → Except Fault Kprobes)
    (pc : Word) : List KpRef → Kprobes → Except Fault Kprobes
  | [], s => .ok s
  | p :: ps, s => do
    let s ← if addrOf (s.kprobe p) = pc then op s (s.kprobe p).bkpt else .ok s
    breakpointLoop addrOf op pc ps s

def kprobeBreakpointEnable (stack : Frame) : Except Fault Kprobes :=
  breakpointLoop (·.stepAddr) enableBreakpoint stack.pc s.kpList s

def kprobeBreakpointDisable (stack : Frame) : Except Fault Kprobes :=
  breakpointLoop (·.addr) disableBreakpoint stack.pc s.kpList s

/-- `arch_kprobe_handler`: the context the interrupted code goes on with, and the state. -/
def archKprobeHandler (ctx : ProbeContext) : Except Fault (ProbeContext × Kprobes) :=
  if s.dfsr &&& scbDfsrDwttrap ≠ 0#32 then .error .panic
  else if s.dfsr &&& scbDfsrBkpt ≠ 0#32 then do
    let ctx := s.kprobePrebreak ctx
    let s := s.clearDfsr scbDfsrBkpt
    let s := { s with monStep := true }
    let s ← s.kprobeBreakpointDisable ctx.stack
    return (ctx, s)
  else if s.dfsr &&& scbDfsrHalted ≠ 0#32 then do
    let ctx := s.kprobePostbreak ctx
    let s := s.clearDfsr scbDfsrHalted
    let s := { s with monStep := false }
    let s ← s.kprobeBreakpointEnable ctx.stack
    return (ctx, s)
  else return (ctx, s)

/-- A debug event: the hardware sets its bit in `SCB_DFSR` and takes the exception. -/
def debugEvent (bit : Word) (ctx : ProbeContext) : Except Fault (ProbeContext × Kprobes) :=
  { s with dfsr := s.dfsr ||| bit }.archKprobeHandler ctx

/-! ## Runs -/

/-- The static slots before `kprobe_init`; memory and hardware registers may hold anything. -/
def Cleared : Prop := ∀ b, s.breakpoints b = ⟨.none, 0#16, 0#32, .none⟩

end Kprobes

/-- A call: the caller fills in the address and the handlers of a probe and registers it, or
unregisters one. -/
inductive ProbeCall
  | register (kp : KpRef) (addr : Word) (preHandler postHandler : Option KprobeHandler)
  | unregister (kp : KpRef)

namespace Kprobes

/-- The effect of a call and what it returns. -/
def call (s : Kprobes) : ProbeCall → Except Fault (Int × Kprobes)
  | .register kp addr pre post =>
    (s.setKprobe kp { s.kprobe kp with
      addr := addr, preHandler := pre, postHandler := post }).kprobeRegister kp
  | .unregister kp => s.kprobeUnregister kp

/-- Probes are registered while they are not, and unregistered while they are. -/
def Proper (s : Kprobes) : ProbeCall → Prop
  | .register kp _ _ _ => kp ∉ s.kpList
  | .unregister kp => kp ∈ s.kpList

instance (s : Kprobes) : (c : ProbeCall) → Decidable (s.Proper c)
  | .register kp _ _ _ => inferInstanceAs (Decidable (kp ∉ s.kpList))
  | .unregister kp => inferInstanceAs (Decidable (kp ∈ s.kpList))

/-- Sequences of calls from `kprobe_init` on. -/
def system : TSys Kprobes ProbeCall where
  init := fun s => ∃ s0 : Kprobes, s0.Cleared ∧ s = s0.kprobeInit
  step := fun s c s' => ∃ ret, s.call c = .ok (ret, s')

end Kprobes

end F9
