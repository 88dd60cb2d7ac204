import F9.Kernel.Kip

/-!
# The root thread (`user/root_thread.c`)

How the root thread reads the memory descriptors of the KIP.
-/

namespace F9

namespace KipMemDesc

/-- `desc[i].size & 0x3F`. -/
def tag (d : KipMemDesc) : Word := d.size &&& 0x3F#32

/-- `desc[i].base & 0x3F`. -/
def poolId (d : KipMemDesc) : Word := d.base &&& 0x3F#32

/-- `desc[i].base & 0xFFFFFFC0`. -/
def rangeBase (d : KipMemDesc) : Word := d.base &&& 0xFFFFFFC0#32

/-- `desc[i].size & 0xFFFFFFC0`. -/
def rangeSize (d : KipMemDesc) : Word := d.size &&& 0xFFFFFFC0#32

end KipMemDesc

end F9
