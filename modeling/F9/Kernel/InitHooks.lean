import F9.Kernel.State

/-!
# Init hooks (`init.c`, `init_hook.h`)

The linker puts the hooks of all files into one table, in the order in which it finds them.
`run_init_hook` passes over the table; all that it keeps from call to call is the highest level of a
hook that it has called. A hook is what it does when it is called, which nothing here reads.
-/

namespace F9

def INIT_LEVEL_EARLIEST : Word := 1#32
def INIT_LEVEL_PLATFORM_EARLY : Word := 0x1000#32
def INIT_LEVEL_PLATFORM : Word := 0x2000#32
def INIT_LEVEL_KERNEL_EARLY : Word := 0x3000#32
def INIT_LEVEL_KERNEL : Word := 0x4000#32
def INIT_LEVEL_LAST : Word := 0xFFFFFFFF#32

/-- `init_struct`, without the name of the hook. -/
structure InitStruct (Hook : Type) where
  level : Word
  hook : Hook
  deriving DecidableEq

variable {Hook : Type}

/-- The loop of `run_init_hook`: what it calls, and `max_called_level` after it. -/
def initHookLoop (lastLevel level : Word) :
    List (InitStruct Hook) → Word → List (InitStruct Hook) × Word
  | [], maxCalledLevel => ([], maxCalledLevel)
  | ptr :: rest, maxCalledLevel =>
    if ptr.level > lastLevel ∧ ptr.level ≤ level then
      let maxCalledLevel := if maxCalledLevel > ptr.level then maxCalledLevel else ptr.level
      let (called, maxCalledLevel) := initHookLoop lastLevel level rest maxCalledLevel
      (ptr :: called, maxCalledLevel)
    else initHookLoop lastLevel level rest maxCalledLevel

/-- `run_init_hook`: the hooks it calls, and `last_level` after it. -/
def runInitHook (table : List (InitStruct Hook)) (lastLevel level : Word) :
    List (InitStruct Hook) × Word :=
  initHookLoop lastLevel level table lastLevel

/-- One call after the other, each with the hooks that it calls. -/
def runInitHooks (table : List (InitStruct Hook)) : Word → List Word →
    List (Word × List (InitStruct Hook))
  | _, [] => []
  | lastLevel, level :: levels =>
    let (called, lastLevel) := runInitHook table lastLevel level
    (level, called) :: runInitHooks table lastLevel levels

end F9
