import F9.Kernel.Memory
import F9.Lib.TSys
import F9.Lib.Linked

/-!
# The memory subsystem as a system

The calls the rest of the kernel makes into `memory.c`, `fpage.c` and
`mpu.c`, as the steps of a transition system that starts at boot:

* `memmap` — the memory map, over the symbols the linker script supplies;
* `threadSpace` — `thread_space` of `thread.c`, with its KIP and UTCB grants;
* `MemOp` — one call with its arguments, and `MemOp.run`, its effect;
* `system` — boot followed by any sequence of calls that return, on handles
  that are valid when the call is made.
-/

namespace F9

/-! ## The memory map -/

/-- What the linker script and the KIP declarations supply. -/
structure Board where
  kernelTextStart : Word
  kernelTextEnd : Word
  userTextStart : Word
  userTextEnd : Word
  kipStart : Word
  kipEnd : Word
  kernelDataEnd : Word
  kernelBssStart : Word
  kernelBssEnd : Word
  userDataStart : Word
  userDataEnd : Word
  userBssStart : Word
  userBssEnd : Word
  bitmapStart : Word
  bitmapEnd : Word
  kernelAhbEnd : Word
  kip : Word
  sizeofKip : Word
  kipExtra : Word

/-- `memmap[]`. -/
def memmap (b : Board) : Memmap :=
  [ ⟨b.kernelTextStart, b.kernelTextEnd, MP_KR ||| MP_KX ||| MP_NO_FPAGE, .kernelText⟩,
    ⟨b.userTextStart, b.userTextEnd, MP_UR ||| MP_UX ||| MP_MEMPOOL ||| MP_MAP_ALWAYS,
      .userText⟩,
    ⟨b.kipStart, b.kipEnd, MP_KR ||| MP_KW ||| MP_UR ||| MP_SRAM, .kernelData⟩,
    ⟨b.kipEnd, b.kernelDataEnd, MP_KR ||| MP_KW ||| MP_NO_FPAGE, .kernelData⟩,
    ⟨b.kernelBssStart, b.kernelBssEnd, MP_KR ||| MP_KW ||| MP_NO_FPAGE, .kernelData⟩,
    ⟨b.userDataStart, b.userDataEnd, MP_UR ||| MP_UW ||| MP_MEMPOOL ||| MP_MAP_ALWAYS,
      .userData⟩,
    ⟨b.userBssStart, b.userBssEnd, MP_UR ||| MP_UW ||| MP_MEMPOOL ||| MP_MAP_ALWAYS,
      .userData⟩,
    ⟨b.userBssEnd, 0x2001c000#32, MP_UR ||| MP_UW ||| MP_SRAM, .available⟩,
    ⟨b.bitmapStart, b.bitmapEnd, MP_KR ||| MP_KW ||| MP_NO_FPAGE, .kernelData⟩,
    ⟨b.kernelAhbEnd, 0x10010000#32, MP_UR ||| MP_UW ||| MP_AHB_RAM, .available⟩,
    ⟨0x40000000#32, 0x40007800#32, MP_UR ||| MP_UW ||| MP_DEVICES, .devices⟩,
    ⟨0x40010000#32, 0x40013400#32, MP_UR ||| MP_UW ||| MP_DEVICES, .devices⟩,
    ⟨0x40014000#32, 0x40014c00#32, MP_UR ||| MP_UW ||| MP_DEVICES, .devices⟩,
    ⟨0x40020000#32, 0x40022400#32, MP_UR ||| MP_UW ||| MP_DEVICES, .devices⟩,
    ⟨0x40023c00#32, 0x40040000#32, MP_UR ||| MP_UW ||| MP_DEVICES, .devices⟩,
    ⟨0x50000000#32, 0x50061000#32, MP_UR ||| MP_UW ||| MP_DEVICES, .devices⟩,
    ⟨0x60000000#32, 0xA0001000#32, MP_UR ||| MP_UW ||| MP_DEVICES, .devices⟩ ]

/-- A layout the linker script of the STM32F4 can produce. -/
def stm32f4Board : Board where
  kernelTextStart := 0x08001000#32
  kernelTextEnd := 0x08009000#32
  userTextStart := 0x20004000#32
  userTextEnd := 0x20006000#32
  kipStart := 0x20000400#32
  kipEnd := 0x20000580#32
  kernelDataEnd := 0x20000600#32
  kernelBssStart := 0x20000600#32
  kernelBssEnd := 0x20003c00#32
  userDataStart := 0x20006000#32
  userDataEnd := 0x20007000#32
  userBssStart := 0x20007000#32
  userBssEnd := 0x20008000#32
  bitmapStart := 0x10000000#32
  bitmapEnd := 0x10000100#32
  kernelAhbEnd := 0x10000100#32
  kip := 0x20000400#32
  sizeofKip := 0x100#32
  kipExtra := 0x20000500#32

/-! ## Boot -/

/-- The tables after `ktable_init`, all elements free. -/
def emptyKernel (junk : Nat → Bool) : Kernel where
  fpageTable := { num := configMaxFpages, bitmap := 0, data := fun _ => default }
  asTable := { num := configMaxAdressSpaces, bitmap := 0, data := fun _ => default }
  kipFpage := none
  kipExtraFpage := none
  mpu := fun _ => ⟨0#32, 0#32⟩
  mpuLog := []
  junk := junk

/-- `thread_init_subsys`: create the KIP fpages, outside any address space. -/
def threadInitSubsys (mm : Memmap) (b : Board) (s : Kernel) : Except Fault Kernel := do
  let (_, kipFpage, last, s) ← assignFpagesExt mm s none none b.kip b.sizeofKip none none
  let (_, kipExtraFpage, _, s) ←
    assignFpagesExt mm s none none b.kipExtra configKipExtraSize none last
  return { s with kipFpage := kipFpage, kipExtraFpage := kipExtraFpage }

/-! ## Threads -/

/-- `sizeof(utcb_t)`. -/
def sizeofUtcb : Word := 128#32

/-- `thread_space`. `space` is the space to share, or `none` for a new one
with the id `globalid`; `caller` is the space of the calling thread and whether
it is the root thread, or `none` while the kernel creates root itself. -/
def threadSpace (mm : Memmap) (s : Kernel) (caller : Option (AsRef × Bool))
    (space : Option AsRef) (globalid utcb : Word) : Except Fault Kernel := do
  let (as, s) ← match space with
    | none => do
      let (as, s) ← asCreate s globalid
      -- Grant kip_fpage & kip_ext_fpage only to new AS
      let s ← mapFpage s as s.kipFpage .grant
      let s ← mapFpage s as s.kipExtraFpage .grant
      pure (as, s)
    | some as => pure (as, s.setAs as fun a => { a with shared := a.shared + 1 })
  match caller with
  | some (callerAs, priv) => do
    let (_, s) ← mapArea mm s callerAs as utcb sizeofUtcb .grant priv
    return s
  -- no caller: mapping from kernel to root thread
  | none => do
    let (_, s) ← mapArea mm s as as utcb sizeofUtcb .grant true
    return s

/-! ## Calls -/

/-- One call into the memory subsystem. -/
inductive MemOp
  | asCreate (spaceid : Word)
  | asMapUser (as : AsRef)
  | assignFpages (as : AsRef) (base size : Word)
  | threadSpace (caller : Option (AsRef × Bool)) (space : Option AsRef) (globalid utcb : Word)
  | mapArea (src dst : AsRef) (base size : Word) (action : MapAction) (isPriviliged : Bool)
  | mapFpage (dst : AsRef) (fpage : FpRef) (action : MapAction)
  | unmapFpage (as : AsRef) (fpage : FpRef)
  | splitFpage (as : AsRef) (fpage : FpRef) (split : Word) (rl : Bool)
  | asDestroy (as : AsRef)
  | asSetupMpu (as : AsRef) (sp pc stackBase stackSize : Word)
  | mpuSelectLru (as : Option AsRef) (addr : Word)
  deriving DecidableEq, Repr

/-- The effect of a call; its return value is dropped. -/
def MemOp.run (mm : Memmap) (s : Kernel) : MemOp → Except Fault Kernel
  | .asCreate spaceid => do
    let (_, s) ← F9.asCreate s spaceid
    return s
  | .asMapUser as => F9.asMapUser mm s as
  | .assignFpages as base size => do
    let (_, s) ← F9.assignFpages mm s (some as) base size
    return s
  | .threadSpace caller space globalid utcb => F9.threadSpace mm s caller space globalid utcb
  | .mapArea src dst base size action priv => do
    let (_, s) ← F9.mapArea mm s src dst base size action priv
    return s
  | .mapFpage dst fpage action => F9.mapFpage s dst (some fpage) action
  | .unmapFpage as fpage => do
    let (_, s) ← F9.unmapFpage s as fpage
    return s
  | .splitFpage as fpage split rl => do
    let (_, s) ← F9.splitFpage mm s (some as) fpage split rl
    return s
  | .asDestroy as => F9.asDestroy s as
  | .asSetupMpu as sp pc stackBase stackSize =>
    F9.asSetupMpu mm s as sp pc stackBase stackSize
  | .mpuSelectLru as addr => do
    let (_, s) ← F9.mpuSelectLru mm s as addr
    return s

/-- The `as_next` links of a state. -/
def Kernel.asNext (s : Kernel) (r : FpRef) : Option FpRef := (s.fp r).asNext

/-- The `map_next` links of a state. -/
def Kernel.mapNext (s : Kernel) (r : FpRef) : Option FpRef := (s.fp r).mapNext

/-- The `mpu_next` links of a state. -/
def Kernel.mpuNext (s : Kernel) (r : FpRef) : Option FpRef := (s.fp r).mpuNext

/-- The fpages of an address space, in list order. -/
def Kernel.pages (s : Kernel) (a : AsRef) : List FpRef :=
  Linked.walk s.asNext s.walkBound (s.as a).first

/-- The handles of a call are those of allocated objects; a page that is
unmapped or split is on the list of the space it is passed with. -/
def MemOp.valid (s : Kernel) : MemOp → Prop
  | .asCreate _ => True
  | .asMapUser as | .assignFpages as _ _ | .asDestroy as | .asSetupMpu as _ _ _ _ =>
    s.liveAs as = true
  | .threadSpace caller space _ _ =>
    (∀ c ∈ caller, s.liveAs c.1 = true) ∧ ∀ a ∈ space, s.liveAs a = true
  | .mapArea src dst _ _ _ _ => s.liveAs src = true ∧ s.liveAs dst = true
  | .mapFpage dst fpage _ => s.liveAs dst = true ∧ s.liveFp fpage = true
  | .unmapFpage as fpage | .splitFpage as fpage _ _ => s.liveAs as = true ∧ fpage ∈ s.pages as
  | .mpuSelectLru as _ => ∀ a ∈ as, s.liveAs a = true

instance (s : Kernel) (op : MemOp) : Decidable (op.valid s) := by
  cases op <;> dsimp only [MemOp.valid] <;> infer_instance

/-- The state after a call that is valid and returns. -/
def MemOp.exec (mm : Memmap) (s : Kernel) (op : MemOp) : Option Kernel :=
  if op.valid s then (op.run mm s).toOption else none

/-- Boot, with the local `end` reading as zero, and a sequence of calls. -/
def bootRun (mm : Memmap) (b : Board) (ok : Kernel → MemOp → Bool) (ops : List MemOp) :
    Option Kernel :=
  match threadInitSubsys mm b (emptyKernel fun _ => false) with
  | .ok s => TSys.runAll (MemOp.exec mm) ok s ops
  | .error _ => none

/-- The runs of the memory subsystem: boot, then valid calls that return. -/
def system (mm : Memmap) (b : Board) : TSys Kernel MemOp where
  init s := ∃ junk, threadInitSubsys mm b (emptyKernel junk) = .ok s
  step s op s' := op.valid s ∧ op.run mm s = .ok s'

end F9
