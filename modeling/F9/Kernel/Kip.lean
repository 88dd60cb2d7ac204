import F9.Kernel.Fpage

/-!
# Memory descriptors of the KIP (`memory_init`)

`memory_init` publishes the pools that user space may use in the kernel interface page:
one descriptor a pool, with the index of the pool in the last six bits of the base and its
tag in the last six bits of the size.
-/

namespace F9

/-- `kip_mem_desc_t`. -/
structure KipMemDesc where
  base : Word
  size : Word
  deriving DecidableEq, Repr

/-- The value of `mempool_tag_t`. -/
def MempoolTag.toWord : MempoolTag → Word
  | .kernelText => 0#32
  | .kernelData => 1#32
  | .userText => 2#32
  | .userData => 3#32
  | .available => 4#32
  | .devices => 5#32

/-- The cases of the switch in `memory_init`. -/
def MempoolTag.published : MempoolTag → Bool
  | .userData | .userText | .devices | .available => true
  | .kernelText | .kernelData => false

/-- The descriptor of pool `i`. -/
def memDesc (i : Nat) (mp : Mempool) : KipMemDesc where
  base := addrAlign mp.start configSmallestFpageSize ||| BitVec.ofNat 32 i
  size := addrAlign (mp.stop - mp.start) configSmallestFpageSize ||| mp.tag.toWord

/-- The loop of `memory_init` from pool `i` on: what it writes to `mem_desc`, in order. -/
def memDescsFrom (i : Nat) : Memmap → List KipMemDesc
  | [] => []
  | mp :: mps =>
    if mp.tag.published then memDesc i mp :: memDescsFrom (i + 1) mps
    else memDescsFrom (i + 1) mps

/-- `memory_init`: the descriptors in the KIP. -/
def memoryInit (mm : Memmap) : List KipMemDesc := memDescsFrom 0 mm

end F9
