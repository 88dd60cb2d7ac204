import F9.Kernel.Fpage

/-!
# The memory protection unit (`mpu.c`, `as_setup_mpu`)

The MPU is its file of region registers. `as_setup_mpu` programs it on a
thread switch, `mpu_select_lru` on a memory fault; both follow the cached
`mpu_first` / `mpu_next` list of the address space.
-/

namespace F9

/-- `MPU_REGION_MASK`. -/
def MPU_REGION_MASK : Word := 0xFFFFFFE0#32

/-- The attribute word `mpu_setup_region` writes for an fpage. -/
def mpuAttr (mm : Memmap) (fp : Fpage) : Word :=
  (if (mempoolGetbyid mm fp.mpid).flags &&& MP_UX ≠ 0#32 then 0#32 else 1#32 <<< 28) |||  -- XN bit
    (0x3#32 <<< 24) |||                                        -- Full access
    ((BitVec.ofNat 32 fp.shift - 1#32) <<< 1) |||              -- Region
    1#32                                                       -- Enable

/-- `mpu_setup_region`: program region `n` from an fpage, or clean it. The
region is selected by the VALID bit and the low bits of the base write. -/
def mpuSetupRegion (mm : Memmap) (s : Kernel) (n : Nat) (fp : Option FpRef) : Kernel :=
  let reg : MpuRegion :=
    match fp with
    | some r => ⟨(s.fp r).base &&& MPU_REGION_MASK, mpuAttr mm (s.fp r)⟩
    | none => ⟨0#32, 0#32⟩
  { s with
    mpu := fun i => if i = n % 16 then reg else s.mpu i
    mpuLog := (n, fp) :: s.mpuLog }

/-- `addr_in_mpu`: some enabled region covers the address. -/
def addrInMpu (s : Kernel) (addr : Word) : Bool :=
  (List.range 8).any fun i =>
    let reg := s.mpu i
    let size : Word := 1#32 <<< (((reg.attr >>> 1) &&& 0x1F#32).toNat + 1)
    decide (reg.attr &&& 1#32 ≠ 0#32) &&
      decide (reg.base ≤ addr) && decide (addr < reg.base + size)

/-! ## Memory faults -/

/-- The list search of `mpu_select_lru`: the fpage that holds `addr`. -/
def lruSearch (s : Kernel) (addr : Word) : Nat → Option FpRef → Except Fault (Option FpRef)
  | 0, _ => .error .hang
  | _ + 1, none => .ok none
  | n + 1, some fp =>
    if addrInFpage addr (s.fp fp) false then .ok (some fp)
    else lruSearch s addr n (s.fp fp).asNext

/-- Counting the stack fpages: the first available MPU index. -/
def stackCount (s : Kernel) : Nat → Option FpRef → Nat → Except Fault Nat
  | 0, _, _ => .error .hang
  | _ + 1, none, i => .ok i
  | n + 1, some sfp, i => stackCount s n (s.fp sfp).mpuNext (i + 1)

/-- The loop of `mpu_select_lru` that programs the rest of the list: `n` is
the number of regions left, `i` the next one. -/
def lruProgram (mm : Memmap) : Nat → Kernel → Nat → FpRef → Kernel
  | 0, s, _, _ => s
  | n + 1, s, i, fp =>
    match (s.fp fp).mpuNext with
    | none => s
    | some nx => lruProgram mm n (mpuSetupRegion mm s i (some nx)) (i + 1) nx

/-- `mpu_select_lru`: bring the faulting fpage to the front of the MPU list
and program it. The result 0 means the fault is handled. -/
def mpuSelectLru (mm : Memmap) (s : Kernel) (as : Option AsRef) (addr : Word) :
    Except Fault (Int × Kernel) := do
  match as with
  -- Kernel fault?
  | none => return (1, s)
  | some as =>
    if addrInMpu s addr then return (1, s)
    match ← lruSearch s addr s.walkBound (s.as as).first with
    | none => return (1, s)
    | some fp =>
      let sfp := (s.as as).mpuStackFirst
      let s := s.setFp fp fun f => { f with mpuNext := (s.as as).mpuFirst }
      let s := s.setAs as fun a => { a with mpuFirst := some fp }
      let i ← stackCount s s.walkBound sfp 0
      let s := mpuSetupRegion mm s i (some fp)
      return (0, lruProgram mm (8 - (i + 1)) s (i + 1) fp)

/-! ## Thread switches -/

/-- The stack fpages: the entries `mpu[0 .. mpu_first_i)`. -/
def stackFpages (s : Kernel) (stop : Word) :
    Nat → Option FpRef → Word → List FpRef → Except Fault (List FpRef)
  | 0, _, _, _ => .error .hang
  | _ + 1, none, _, mpu => .ok mpu
  | n + 1, some fp, start, mpu =>
    if mpu.length < 8 ∧ start < stop then
      if addrInFpage start (s.fp fp) false then
        stackFpages s stop n (s.fp fp).asNext (s.fp fp).stop (mpu ++ [fp])
      else stackFpages s stop n (s.fp fp).asNext start mpu
    else .ok mpu

instance threeClasses : NeZero 3 := ⟨by decide⟩

/-- The local arrays `mpu_first[3]` and `mpu_fp[3]`: head and tail of the
three priority classes. -/
structure MpuClasses where
  first : Fin 3 → Option FpRef
  last : Fin 3 → Option FpRef

/-- The priority of an fpage: 0 for the page of `pc`, 1 for an always-mapped
page, 2 for the others. -/
def mpuPriority (pc : Word) (f : Fpage) : Fin 3 :=
  if addrInFpage pc f false then 0 else if f.hasFlag FPAGE_ALWAYS then 1 else 2

/-- The loop that strings the fpages of the space into the three classes. -/
def classify (pc : Word) : Nat → Kernel → Option FpRef → MpuClasses →
    Except Fault (MpuClasses × Kernel)
  | 0, _, _, _ => .error .hang
  | _ + 1, s, none, c => .ok (c, s)
  | n + 1, s, some fp, c => do
    let priv := mpuPriority pc (s.fp fp)
    let s ← match c.first priv with
      | none => pure s
      | some _ => do
        let l ← deref (c.last priv)
        pure (s.setFp l fun f => { f with mpuNext := some fp })
    let c : MpuClasses :=
      { first := fun i => if i = priv then c.first i <|> some fp else c.first i
        last := fun i => if i = priv then some fp else c.last i }
    classify pc n s (s.fp fp).asNext c

/-- Joining the classes: `mpu_fp[i]->mpu_next = mpu_first[j]`, or
`mpu_first[i] = mpu_first[j]` when class `i` is empty. Returns the head. -/
def joinClass (s : Kernel) (first last next : Option FpRef) :
    Except Fault (Option FpRef × Kernel) :=
  match first with
  | none => .ok (next, s)
  | some _ => do
    let l ← deref last
    return (first, s.setFp l fun f => { f with mpuNext := next })

/-- Building the MPU list of a space that has none. -/
def buildMpuList (s : Kernel) (as : AsRef) (pc : Word) : Except Fault Kernel := do
  let (c, s) ← classify pc s.walkBound s (s.as as).first
    { first := fun _ => none, last := fun _ => none }
  let (first1, s) ← joinClass s (c.first 1) (c.last 1) (c.first 2)
  let (first0, s) ← joinClass s (c.first 0) (c.last 0) first1
  return s.setAs as fun a => { a with mpuFirst := first0 }

/-- The entries `mpu[mpu_first_i .. i)`: the front of the MPU list without the
stack pages. A walk that keeps meeting stack pages only never ends. -/
def fifoFpages (s : Kernel) (stack : List FpRef) :
    Nat → Option FpRef → List FpRef → Except Fault (List FpRef)
  | 0, _, _ => .error .hang
  | _ + 1, none, mpu => .ok mpu
  | n + 1, some fp, mpu =>
    if stack.length + mpu.length < 8 then
      fifoFpages s stack n (s.fp fp).mpuNext (if fp ∈ stack then mpu else mpu ++ [fp])
    else .ok mpu

/-- Setup of the MPU stack regions, linking the pages into a list of their own. -/
def setupStackRegions (mm : Memmap) : Kernel → Nat → List FpRef → Kernel
  | s, _, [] => s
  | s, j, r :: rest =>
    let s := mpuSetupRegion mm s j (some r)
    let s := s.setFp r fun f => { f with mpuNext := rest.head? }
    setupStackRegions mm s (j + 1) rest

/-- Setup of the MPU fifo regions. The last page keeps its old link. -/
def setupFifoRegions (mm : Memmap) : Kernel → Nat → List FpRef → Kernel
  | s, _, [] => s
  | s, j, r :: rest =>
    let s := mpuSetupRegion mm s j (some r)
    let s := match rest with
      | [] => s
      | nx :: _ => s.setFp r fun f => { f with mpuNext := some nx }
    setupFifoRegions mm s (j + 1) rest

/-- Clean unused MPU regions: `n` regions from `j`. -/
def cleanRegions (mm : Memmap) : Kernel → Nat → Nat → Kernel
  | s, _, 0 => s
  | s, j, n + 1 => cleanRegions mm (mpuSetupRegion mm s j none) (j + 1) n

/-- `as_setup_mpu`. With eight stack pages, `mpu[mpu_first_i]` is read past
the end of the array. -/
def asSetupMpu (mm : Memmap) (s : Kernel) (as : AsRef) (_sp pc stackBase stackSize : Word) :
    Except Fault Kernel := do
  -- Find stack fpages
  let stack ← stackFpages s (stackBase + stackSize) s.walkBound (s.as as).first stackBase []
  let s := s.setAs as fun a => { a with mpuStackFirst := stack.head? }
  let s ← match (s.as as).mpuFirst with
    | some _ => pure s
    | none => buildMpuList s as pc
  -- Prevent link to stack pages
  let fifo ← fifoFpages s stack (9 * s.walkBound) (s.as as).mpuFirst []
  if 8 ≤ stack.length then throw .outOfBounds
  let s := s.setAs as fun a => { a with mpuFirst := fifo.head? }
  let s := setupStackRegions mm s 0 stack
  let s := setupFifoRegions mm s stack.length fifo
  let used := stack.length + fifo.length
  return cleanRegions mm s used (8 - used)

end F9
