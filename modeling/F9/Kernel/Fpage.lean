import F9.Kernel.State

/-!
# Fpages and fpage chains (`fpage.c`)

The routines that create, cut, map and remove fpages, as functions from the
state to the state or a `Fault`. Loops run on a step budget: a walk along
links is bounded by the size of the table (`Kernel.walkBound`), the chain
builder by the number of bytes left.
-/

namespace F9

/-! ## Memory pools (`memory.c`, helpers) -/

/-- `addr_align`; `size` must be a power of two. -/
def addrAlign (addr size : Word) : Word := (addr + (size - 1#32)) &&& ~~~(size - 1#32)

/-- `mempool_getbyid`, for a valid id. -/
def mempoolGetbyid (mm : Memmap) (mpid : Nat) : Mempool := mm.getD mpid default

/-- The pool has an fpage type, i.e. it is not `MP_NO_FPAGE`. -/
def Mempool.mappable (mp : Mempool) : Bool := decide (mp.flags &&& MP_FPAGE_MASK ≠ 0#32)

def mempoolAlign (mm : Memmap) (mpid : Nat) (addr : Word) : Word :=
  if (mempoolGetbyid mm mpid).mappable then addrAlign addr configSmallestFpageSize
  else INVALID_FPAGE_REGION

/-- `mempool_search`: the first pool that holds `[base, base + size)`, with
the 32-bit sum of the source; `none` is the `-1` of the source. -/
def mempoolSearch (mm : Memmap) (base size : Word) : Option Nat :=
  mm.findIdx? fun mp => decide (mp.start ≤ base) && decide (base + size ≤ mp.stop)

/-! ## Removing from a list -/

/-- The two lists `remove_fpage_from_list` is expanded for. -/
inductive FpList
  | as
  | mpu
  deriving DecidableEq, Repr

namespace FpList

/-- The macro argument `first`: the list head in the address space. -/
def head : FpList → AddressSpace → Option FpRef
  | .as, a => a.first
  | .mpu, a => a.mpuFirst

def setHead : FpList → Option FpRef → AddressSpace → AddressSpace
  | .as, p, a => { a with first := p }
  | .mpu, p, a => { a with mpuFirst := p }

/-- The macro argument `next`: the link in the fpage. -/
def next : FpList → Fpage → Option FpRef
  | .as, f => f.asNext
  | .mpu, f => f.mpuNext

def setNext : FpList → Option FpRef → Fpage → Fpage
  | .as, p, f => { f with asNext := p }
  | .mpu, p, f => { f with mpuNext := p }

end FpList

/-- The search loop of `remove_fpage_from_list`: the final `fpprev`. The
second argument is the local `end`. -/
def removeSearch (k : FpList) (s : Kernel) (fpage : FpRef) :
    Nat → Bool → Option FpRef → Except Fault (Option FpRef)
  | 0, _, _ => .error .hang
  | _ + 1, true, fpprev => .ok fpprev
  | _ + 1, false, none => .error .nullDeref
  | n + 1, false, some p =>
    if k.next (s.fp p) = some fpage then .ok (some p)
    else removeSearch k s fpage n (k.next (s.fp p)).isNone (k.next (s.fp p))

/-- The macro `remove_fpage_from_list`. Its local `end` is not initialised. -/
def removeFpageFromList (k : FpList) (s : Kernel) (as : AsRef) (fpage : FpRef) :
    Except Fault Kernel := do
  let end0 := s.junk 0
  let s := { s with junk := fun n => s.junk (n + 1) }
  if k.head (s.as as) = some fpage then
    return s.setAs as (k.setHead (k.next (s.fp fpage)))
  else
    match ← removeSearch k s fpage s.walkBound end0 (k.head (s.as as)) with
    | none => throw .nullDeref
    | some fpprev => return s.setFp fpprev (k.setNext (k.next (s.fp fpage)))

def removeFpageFromAs (s : Kernel) (as : AsRef) (fp : FpRef) : Except Fault Kernel := do
  let s ← removeFpageFromList .as s as fp
  removeFpageFromList .mpu s as fp

/-! ## Inserting into an address space -/

/-- The search of `insert_fpage_chain_to_as` for a place in the middle, with
the two link updates that end it. -/
def insertSearch (s : Kernel) (first last : FpRef) : Nat → FpRef → Except Fault Kernel
  | 0, _ => .error .hang
  | n + 1, fp =>
    match (s.fp fp).asNext with
    | none => .ok (s.setFp fp fun f => { f with asNext := some first })
    | some nx =>
      if (s.fp last).base < (s.fp nx).base then
        let s := s.setFp last fun f => { f with asNext := some nx }
        .ok (s.setFp fp fun f => { f with asNext := some first })
      else insertSearch s first last n nx

/-- `insert_fpage_chain_to_as`: insert the chain `first .. last`. -/
def insertFpageChainToAs (s : Kernel) (as : AsRef) (first last : FpRef) :
    Except Fault Kernel :=
  match (s.as as).first with
  | none => .ok (s.setAs as fun a => { a with first := some first })
  | some fp =>
    if (s.fp last).base < (s.fp fp).base then
      let s := s.setFp last fun f => { f with asNext := some fp }
      .ok (s.setAs as fun a => { a with first := some first })
    else insertSearch s first last s.walkBound fp

def insertFpageToAs (s : Kernel) (as : AsRef) (fpage : FpRef) : Except Fault Kernel :=
  insertFpageChainToAs s as fpage fpage

/-! ## Creating fpages -/

/-- The loop of `fp_addr_log2`. -/
def fpAddrLog2Loop : Nat → Word → Nat → Nat
  | 0, _, shift => shift
  | n + 1, addr, shift =>
    if addr <<< 1 ≠ 0#32 then fpAddrLog2Loop n (addr <<< 1) (shift + 1) else shift

/-- `fp_addr_log2`: the position of the lowest set bit, 31 for zero. -/
def fpAddrLog2 (addr : Word) : Nat := 31 - fpAddrLog2Loop 32 addr 0

/-- The record `create_fpage` writes into slot `r`. -/
def freshFpage (mm : Memmap) (r : FpRef) (base : Word) (shift mpid : Nat) : Fpage where
  asNext := none
  mapNext := some r
  mpuNext := none
  base := base
  mpid := mpid
  flags := if (mempoolGetbyid mm mpid).flags &&& MP_MAP_ALWAYS ≠ 0#32 then FPAGE_ALWAYS else 0#6
  shift := shift
  rwx := MP_USER_PERM (mempoolGetbyid mm mpid).flags

/-- `create_fpage`; a full table fails the assertion. -/
def createFpage (mm : Memmap) (s : Kernel) (base : Word) (shift mpid : Nat) :
    Except Fault (FpRef × Kernel) :=
  match s.allocFp with
  | none => .error .panic
  | some (r, s) => .ok (r, s.setFp r fun _ => freshFpage mm r base shift mpid)

/-- The size of the next fpage of a chain: least of `log2(base)` and
`log2(size)`, so that the region is aligned. -/
def chainShift (base size : Word) : Nat :=
  if size < 1#32 <<< fpAddrLog2 base then fpAddrLog2 size else fpAddrLog2 base

/-- The loop of `create_fpage_chain`. `fpage` is the page created last. -/
def createChainLoop (mm : Memmap) (mpid : Nat) : Nat → Kernel → Word → Word →
    Option FpRef → Option FpRef → Option FpRef →
    Except Fault (Option FpRef × Option FpRef × Kernel)
  | n, s, base, size, fpage, pfirst, plast =>
    if size = 0#32 then .ok (pfirst, plast, s)
    else match n with
    | 0 => .error .hang
    | n + 1 => do
      let shift := chainShift base size
      let (r, s) ← createFpage mm s base shift mpid
      match pfirst with
      | none =>
        createChainLoop mm mpid n s (base + 1#32 <<< shift) (size - 1#32 <<< shift)
          (some r) (some r) (some r)
      | some first =>
        match fpage with
        | none => throw .nullDeref
        | some prev =>
          let s := s.setFp prev fun f => { f with asNext := some r }
          createChainLoop mm mpid n s (base + 1#32 <<< shift)
            (size - 1#32 <<< shift) (some r) (some first) (some r)

/-- `create_fpage_chain`: cut `[base, base + size)` into fpages. The results
are the new values of `*pfirst` and `*plast`. -/
def createFpageChain (mm : Memmap) (s : Kernel) (base size : Word) (mpid : Nat)
    (pfirst plast : Option FpRef) : Except Fault (Option FpRef × Option FpRef × Kernel) :=
  createChainLoop mm mpid size.toNat s base size none pfirst plast

/-- Dereferencing a pointer. -/
def deref (p : Option FpRef) : Except Fault FpRef :=
  match p with
  | none => .error .nullDeref
  | some r => .ok r

/-! ## Splitting -/

/-- `split_fpage`. `rl` selects the result: the last page on the left of the
cut (`false`) or the first on the right (`true`). -/
def splitFpage (mm : Memmap) (s : Kernel) (as : Option AsRef) (fpage : FpRef)
    (split : Word) (rl : Bool) : Except Fault (Option FpRef × Kernel) := do
  let base := (s.fp fpage).base
  let stop := (s.fp fpage).stop
  let split := mempoolAlign mm (s.fp fpage).mpid split
  match as with
  | none => return (none, s)
  | some as =>
    -- Check if we can split something
    if split = base ∨ split = stop then return (some fpage, s)
    -- Splitting not supported for mapped pages
    else if (s.fp fpage).mapNext ≠ some fpage then return (none, s)
    else
      let (lfirst, llast, s) ←
        createFpageChain mm s base (split - base) (s.fp fpage).mpid none none
      let (rfirst, rlast, s) ←
        createFpageChain mm s split (stop - split) (s.fp fpage).mpid none none
      let s ← removeFpageFromAs s as fpage
      let s := s.freeFp fpage
      let s ← insertFpageChainToAs s as (← deref lfirst) (← deref llast)
      let s ← insertFpageChainToAs s as (← deref rfirst) (← deref rlast)
      return (if rl then rfirst else llast, s)

/-! ## Assigning -/

/-- The pointer-to-pointer `fp` of `assign_fpages_ext`: the address of the
list head or of the `as_next` link of a page. -/
inductive AsLink
  | first
  | nextOf (r : FpRef)
  deriving DecidableEq, Repr

def AsLink.read (s : Kernel) (as : AsRef) : AsLink → Option FpRef
  | .first => (s.as as).first
  | .nextOf r => (s.fp r).asNext

def AsLink.write (s : Kernel) (as : AsRef) (p : Option FpRef) : AsLink → Kernel
  | .first => s.setAs as fun a => { a with first := p }
  | .nextOf r => s.setFp r fun f => { f with asNext := p }

/-- The loop variables of `assign_fpages_ext`. -/
structure AssignState where
  s : Kernel
  fp : AsLink
  base : Word
  pfirst : Option FpRef
  plast : Option FpRef

/-- One pass of the loop of `assign_fpages_ext` over the page `cur` that
`*fp` points to. -/
def assignStep (mm : Memmap) (mpid : Nat) (as : AsRef) (stop : Word) (st : AssignState)
    (cur : FpRef) : Except Fault AssignState := do
  let curBase := (st.s.fp cur).base
  if st.base < curBase then
    let size := (if stop < curBase then stop else curBase) - st.base
    let (first, last, s) ← createFpageChain mm st.s (mempoolAlign mm mpid st.base)
      (mempoolAlign mm mpid size) mpid none none
    let l ← deref last
    -- last->as_next = *fp; *fp = first; fp = &last->as_next
    let s := s.setFp l fun f => { f with asNext := st.fp.read s as }
    let s := st.fp.write s as first
    let nx ← deref ((AsLink.nextOf l).read s as)
    return { s := s, fp := .nextOf nx, base := (s.fp nx).stop,
             pfirst := st.pfirst <|> first, plast := last }
  else if st.base < (st.s.fp cur).stop then
    return { st with fp := .nextOf cur, base := (st.s.fp cur).stop,
                     pfirst := st.pfirst <|> some cur, plast := some cur }
  else
    return { st with fp := .nextOf cur }

/-- The loop of `assign_fpages_ext` that finds unmapped space. -/
def assignLoop (mm : Memmap) (mpid : Nat) (as : AsRef) (stop : Word) :
    Nat → AssignState → Except Fault AssignState
  | 0, _ => .error .hang
  | n + 1, st =>
    if st.base < stop then
      match st.fp.read st.s as with
      | none => .ok st
      | some cur => do assignLoop mm mpid as stop n (← assignStep mm mpid as stop st cur)
    else .ok st

/-- `assign_fpages_ext`: create fpages for the part of `[base, base + size)`
that the address space does not have yet. Results: the return value and the
new values of `*pfirst` and `*plast`. -/
def assignFpagesExt (mm : Memmap) (s : Kernel) (mpid : Option Nat) (as : Option AsRef)
    (base size : Word) (pfirst plast : Option FpRef) :
    Except Fault (Int × Option FpRef × Option FpRef × Kernel) := do
  if size = 0#32 then return (-1, pfirst, plast, s)
  -- if mpid is unknown, search using base addr
  match mpid <|> mempoolSearch mm base size with
  | none => return (-1, pfirst, plast, s)
  | some mpid =>
    let stop := base + size
    match as with
    | some as =>
      let st ← assignLoop mm mpid as stop s.walkBound
        { s := s, fp := .first, base := base, pfirst := pfirst, plast := plast }
      if st.base < stop then
        let size := stop - st.base
        let (first, last, s) ← createFpageChain mm st.s (mempoolAlign mm mpid st.base)
          (mempoolAlign mm mpid size) mpid none none
        return (0, st.pfirst <|> first, last, st.fp.write s as first)
      else return (0, st.pfirst, st.plast, st.s)
    | none =>
      let (pfirst, plast, s) ← createFpageChain mm s (mempoolAlign mm mpid base)
        (mempoolAlign mm mpid size) mpid pfirst plast
      return (0, pfirst, plast, s)

def assignFpages (mm : Memmap) (s : Kernel) (as : Option AsRef) (base size : Word) :
    Except Fault (Int × Kernel) := do
  let (r, _, _, s) ← assignFpagesExt mm s none as base size none none
  return (r, s)

/-! ## Mapping -/

/-- `map_fpage`: clone `fpage` into `dst`. The source space is only printed. -/
def mapFpage (s : Kernel) (dst : AsRef) (fpage : Option FpRef) (action : MapAction) :
    Except Fault Kernel := do
  match s.allocFp with
  | none => throw .nullDeref
  | some (fpmap, s) =>
    let fpage ← deref fpage
    let s := s.setFp fpmap fun f => { f with asNext := none, mpuNext := none }
    -- Copy fpage description
    let src := s.fp fpage
    let s := s.setFp fpmap fun f => { f with base := src.base, mpid := src.mpid,
                                             flags := src.flags, shift := src.shift,
                                             rwx := src.rwx }
    -- Set flags correctly
    let s := if action = .map then
        s.setFp fpage fun f => { f with flags := f.flags ||| FPAGE_MAPPED }
      else s
    let s := s.setFp fpmap fun f => { f with flags := FPAGE_CLONE }
    -- Insert into mapee list
    let s := s.setFp fpmap fun f => { f with mapNext := (s.fp fpage).mapNext }
    let s := s.setFp fpage fun f => { f with mapNext := some fpmap }
    insertFpageToAs s dst fpmap

/-- The search loop of `unmap_fpage`: the page whose `map_next` is `fpage`. -/
def unmapSearch (s : Kernel) (fpage : FpRef) : Nat → FpRef → Except Fault FpRef
  | 0, _ => .error .hang
  | n + 1, fpprev =>
    if (s.fp fpprev).mapNext = some fpage then .ok fpprev
    else match (s.fp fpprev).mapNext with
    | none => .error .nullDeref
    | some nx => unmapSearch s fpage n nx

def unmapFpage (s : Kernel) (as : AsRef) (fpage : FpRef) : Except Fault (Int × Kernel) := do
  -- Fpages that are not mapped or granted are destroyed with their AS
  if ¬ (s.fp fpage).hasFlag FPAGE_CLONE then return (-1, s)
  let fpprev ← unmapSearch s fpage s.walkBound fpage
  let s := s.setFp fpprev fun f => { f with flags := f.flags &&& ~~~FPAGE_MAPPED }
  let s := s.setFp fpprev fun f => { f with mapNext := (s.fp fpage).mapNext }
  let s ← removeFpageFromAs s as fpage
  return (0, s.freeFp fpage)

end F9
