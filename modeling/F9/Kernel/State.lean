import F9.Kernel.KTable

/-!
# Data model of the memory subsystem

The types of `memory.h` and `fpage.h`: memory pools, flexible pages, address
spaces, and the state the routines of `memory.c`, `fpage.c` and `mpu.c` work
on. Pointers into `fpage_table` and `as_table` are table indices; a pointer
that may be `NULL` is an `Option`.
-/

namespace F9

/-- A machine word: `uint32_t`, `memptr_t` and `size_t` of the Cortex-M. -/
abbrev Word := BitVec 32

/-- A pointer to an element of `fpage_table`. -/
abbrev FpRef := Nat

/-- A pointer to an element of `as_table`. -/
abbrev AsRef := Nat

/-- Why a routine does not return: the C code runs into undefined behaviour,
stops in `panic`, or loops for ever. -/
inductive Fault
  | nullDeref
  | outOfBounds
  | panic
  | hang
  deriving DecidableEq, Repr

/-! ## Configuration -/

/-- `CONFIG_SMALLEST_FPAGE_SHIFT`. -/
def configSmallestFpageShift : Nat := 8

/-- `CONFIG_SMALLEST_FPAGE_SIZE`. -/
def configSmallestFpageSize : Word := 1#32 <<< configSmallestFpageShift

/-- `CONFIG_MAX_FPAGES`. -/
def configMaxFpages : Nat := 256

/-- `CONFIG_MAX_ADRESS_SPACES`. -/
def configMaxAdressSpaces : Nat := 16

/-- `CONFIG_KIP_EXTRA_SIZE`. -/
def configKipExtraSize : Word := 128#32

/-! ## Memory pools -/

/-- Kernel permission flags. -/
def MP_KR : Word := 0x0001#32
def MP_KW : Word := 0x0002#32
def MP_KX : Word := 0x0004#32

/-- Userspace permission flags. -/
def MP_UR : Word := 0x0010#32
def MP_UW : Word := 0x0020#32
def MP_UX : Word := 0x0040#32

/-- Fpage type; `MP_NO_FPAGE` is "not mappable". -/
def MP_NO_FPAGE : Word := 0x0000#32
def MP_SRAM : Word := 0x0100#32
def MP_AHB_RAM : Word := 0x0200#32
def MP_DEVICES : Word := 0x0400#32
def MP_MEMPOOL : Word := 0x0800#32

/-- Memory of the pool is always mapped in the MPU. -/
def MP_MAP_ALWAYS : Word := 0x1000#32

def MP_FPAGE_MASK : Word := 0x0F00#32

/-- `MP_USER_PERM`: the user permission bits of a pool's flags. -/
def MP_USER_PERM (mpflags : Word) : BitVec 4 := ((mpflags &&& 0xF0#32) >>> 4).truncate 4

/-- Mapping value for a region without fpages. -/
def INVALID_FPAGE_REGION : Word := 0xffffffff#32

/-- `mempool_tag_t`. -/
inductive MempoolTag
  | kernelText
  | kernelData
  | userText
  | userData
  | available
  | devices
  deriving DecidableEq, Repr

/-- A memory pool (`mempool_t`): an area of physical memory with permissions
and a rule for fpage creation. -/
structure Mempool where
  start : Word
  stop : Word
  flags : Word
  tag : MempoolTag
  deriving DecidableEq, Repr

/-- The pool read for an id past the end of the table. -/
instance : Inhabited Mempool := ⟨⟨0#32, 0#32, MP_NO_FPAGE, .kernelData⟩⟩

/-- The memory map: the static table `memmap[]`. -/
abbrev Memmap := List Mempool

/-! ## Flexible pages -/

/-- Fpage is always mapped in the MPU. -/
def FPAGE_ALWAYS : BitVec 6 := 0x1#6

/-- Fpage is mapped from another address space. -/
def FPAGE_CLONE : BitVec 6 := 0x2#6

/-- Fpage is mapped with `MAP`. -/
def FPAGE_MAPPED : BitVec 6 := 0x4#6

/-- A flexible page (`fpage_t`): three links and the two raw words. -/
structure Fpage where
  asNext : Option FpRef
  mapNext : Option FpRef
  mpuNext : Option FpRef
  base : Word
  mpid : Nat
  flags : BitVec 6
  shift : Nat
  rwx : BitVec 4
  deriving DecidableEq, Repr

/-- Statically allocated tables are zero at boot. -/
instance : Inhabited Fpage := ⟨⟨none, none, none, 0#32, 0, 0#6, 0, 0#4⟩⟩

/-- `FPAGE_SIZE`. -/
def Fpage.size (fp : Fpage) : Word := 1#32 <<< fp.shift

/-- `FPAGE_END`, with the wrap-around of the C addition. -/
def Fpage.stop (fp : Fpage) : Word := fp.base + fp.size

def addrInFpage (addr : Word) (fp : Fpage) (inclEnd : Bool) : Bool :=
  (decide (fp.base ≤ addr) && decide (addr < fp.stop)) ||
    (inclEnd && decide (addr = fp.stop))

/-- The flag test of the source, `fpage->fpage.flags & flag`. -/
def Fpage.hasFlag (fp : Fpage) (flag : BitVec 6) : Bool := decide (fp.flags &&& flag ≠ 0#6)

/-! ## Address spaces -/

/-- `map_action_t`, the two actions `map_area` is called with. -/
inductive MapAction
  | map
  | grant
  deriving DecidableEq, Repr

/-- An address space (`as_t`): the sorted fpage list and the heads of the two
MPU lists. -/
structure AddressSpace where
  asSpaceid : Word
  first : Option FpRef
  mpuFirst : Option FpRef
  mpuStackFirst : Option FpRef
  shared : Nat
  deriving DecidableEq, Repr

instance : Inhabited AddressSpace := ⟨⟨0#32, none, none, none, 0⟩⟩

/-- One region of the MPU: the base and the attribute register. -/
structure MpuRegion where
  base : Word
  attr : Word
  deriving DecidableEq, Repr

/-! ## The state -/

/-- The state of the memory subsystem. `junk` supplies the values that the
uninitialised local `end` of `remove_fpage_from_list` happens to hold, one for
each expansion of the macro that is executed. `mpuLog` records the calls of
`mpu_setup_region`, latest first: which region was set up from which fpage. -/
structure Kernel where
  fpageTable : KTable Fpage
  asTable : KTable AddressSpace
  kipFpage : Option FpRef
  kipExtraFpage : Option FpRef
  mpu : Nat → MpuRegion
  mpuLog : List (Nat × Option FpRef)
  junk : Nat → Bool

namespace Kernel

/-- The fpage behind a pointer. -/
def fp (s : Kernel) (r : FpRef) : Fpage := s.fpageTable.data r

/-- The address space behind a pointer. -/
def as (s : Kernel) (a : AsRef) : AddressSpace := s.asTable.data a

/-- The fpage is allocated. -/
def liveFp (s : Kernel) (r : FpRef) : Bool := s.fpageTable.live r

/-- The address space is allocated. -/
def liveAs (s : Kernel) (a : AsRef) : Bool := s.asTable.live a

/-- Update one fpage in place. -/
def setFp (s : Kernel) (r : FpRef) (f : Fpage → Fpage) : Kernel :=
  { s with fpageTable := s.fpageTable.write r (f (s.fp r)) }

/-- Update one address space in place. -/
def setAs (s : Kernel) (a : AsRef) (f : AddressSpace → AddressSpace) : Kernel :=
  { s with asTable := s.asTable.write a (f (s.as a)) }

/-- `ktable_free(&fpage_table, fp)`. -/
def freeFp (s : Kernel) (r : FpRef) : Kernel :=
  { s with fpageTable := s.fpageTable.free r }

/-- `ktable_free(&as_table, as)`. -/
def freeAs (s : Kernel) (a : AsRef) : Kernel :=
  { s with asTable := s.asTable.free a }

/-- `ktable_alloc(&fpage_table)`. -/
def allocFp (s : Kernel) : Option (FpRef × Kernel) :=
  match s.fpageTable.alloc with
  | none => none
  | some (r, kt) => some (r, { s with fpageTable := kt })

/-- `ktable_alloc(&as_table)`. -/
def allocAs (s : Kernel) : Option (AsRef × Kernel) :=
  match s.asTable.alloc with
  | none => none
  | some (a, kt) => some (a, { s with asTable := kt })

/-- A loop that follows fpage links for more steps than the table has
elements is in a cycle: the bound after which it counts as hung. -/
def walkBound (s : Kernel) : Nat := s.fpageTable.num + 1

/-! Reading back the updates. -/

@[simp] theorem setFp_fp_self (s : Kernel) (r : FpRef) (f : Fpage → Fpage) :
    (s.setFp r f).fp r = f (s.fp r) := by
  simp [setFp, fp]

theorem setFp_fp_ne (s : Kernel) {r x : FpRef} (f : Fpage → Fpage) (h : x ≠ r) :
    (s.setFp r f).fp x = s.fp x := by
  simp [setFp, fp, KTable.write_data_ne _ _ h]

theorem setFp_fp (s : Kernel) (r x : FpRef) (f : Fpage → Fpage) :
    (s.setFp r f).fp x = if x = r then f (s.fp r) else s.fp x := by
  by_cases h : x = r
  · subst h; simp
  · rw [setFp_fp_ne s f h, if_neg h]

section

variable (s : Kernel)
include s

@[simp] theorem setAs_as_self (a : AsRef) (f : AddressSpace → AddressSpace) :
    (s.setAs a f).as a = f (s.as a) := by
  simp [setAs, as]

theorem setAs_as_ne {a b : AsRef} (f : AddressSpace → AddressSpace) (h : b ≠ a) :
    (s.setAs a f).as b = s.as b := by
  simp [setAs, as, KTable.write_data_ne _ _ h]

theorem setAs_as (a b : AsRef) (f : AddressSpace → AddressSpace) :
    (s.setAs a f).as b = if b = a then f (s.as a) else s.as b := by
  by_cases h : b = a
  · subst h; simp
  · rw [setAs_as_ne s f h, if_neg h]

@[simp] theorem freeFp_fp (r x : FpRef) : (s.freeFp r).fp x = s.fp x := rfl

@[simp] theorem freeFp_as (r : FpRef) (a : AsRef) : (s.freeFp r).as a = s.as a := rfl

theorem freeFp_liveFp (r x : FpRef) : (s.freeFp r).liveFp x = (s.liveFp x && decide (x ≠ r)) :=
  s.fpageTable.free_live r x

theorem freeAs_liveAs (a b : AsRef) : (s.freeAs a).liveAs b = (s.liveAs b && decide (b ≠ a)) :=
  s.asTable.free_live a b

end

end Kernel

end F9
