import F9.Kernel.Thread

/-!
# Softirqs (`softirq.c`)

Interrupt handlers request work with `softirq_schedule`; the kernel thread carries it out in
`softirq_execute`. Interrupts come between any two steps of `softirq_execute` except in its
last section, where they are disabled. The steps are the test of a request flag, the call of
the handler, its return, the clearing of the flag, and the last section as a whole.
-/

namespace F9

/-- `softirq_type_t`. -/
inductive SoftirqType
  | kte
  | async
  | syscall
  | kdb
  deriving DecidableEq, Repr

/-- The types in the order of `softirq_execute`; the last one needs `CONFIG_KDB`. -/
def softirqTypes (configKdb : Bool) : List SoftirqType :=
  if configKdb then [.kte, .async, .syscall, .kdb] else [.kte, .async, .syscall]

/-- Where the kernel thread is. `todo` are the types from the loop index on. -/
inductive SoftirqPc
  /-- outside `softirq_execute` -/
  | idle
  /-- before the test of the first type, or at the last section if there is none -/
  | test (todo : List SoftirqType)
  /-- the flag was set and there is a handler -/
  | call (type : SoftirqType) (todo : List SoftirqType)
  /-- in the handler -/
  | running (type : SoftirqType) (todo : List SoftirqType)
  /-- back from the handler, the flag is not yet cleared -/
  | clear (type : SoftirqType) (todo : List SoftirqType)
  deriving DecidableEq, Repr

/-- The state of the softirqs. `owed` is not in the source: a request has been made since the
handler was last started. -/
structure Softirq where
  schedule : SoftirqType → Bool
  handler : SoftirqType → Bool
  kernelState : ThreadState
  pc : SoftirqPc
  executed : Bool
  owed : SoftirqType → Bool

namespace Softirq

/-- Set the value at one type. -/
def set (f : SoftirqType → Bool) (type : SoftirqType) (b : Bool) : SoftirqType → Bool :=
  fun i => if i = type then b else f i

def softirqRegister (s : Softirq) (type : SoftirqType) : Softirq :=
  { s with handler := set s.handler type true, schedule := set s.schedule type false }

def softirqSchedule (s : Softirq) (type : SoftirqType) : Softirq :=
  { s with
    schedule := set s.schedule type true
    kernelState := .runnable
    owed := set s.owed type true }

/-- One step of the kernel thread in `softirq_execute`, over the given types. -/
def execute (types : List SoftirqType) (s : Softirq) : Softirq :=
  match s.pc with
  | .idle =>
    -- the thread runs only if it is runnable
    if s.kernelState = .runnable then { s with pc := .test types, executed := false } else s
  | .test (type :: todo) =>
    if s.schedule type && s.handler type then { s with pc := .call type todo }
    else { s with pc := .test todo }
  | .call type todo => { s with pc := .running type todo, owed := set s.owed type false }
  | .running type todo => { s with pc := .clear type todo }
  | .clear type todo =>
    { s with pc := .test todo, executed := true, schedule := set s.schedule type false }
  | .test [] =>
    -- Must ensure that no interrupt reschedule its softirq
    if types.any s.schedule then { s with pc := .test types, kernelState := .runnable }
    else { s with pc := .idle, kernelState := .inactive }

/-- What happens: a request, or a step of the kernel thread. -/
inductive Action
  | schedule (type : SoftirqType)
  | execute
  deriving DecidableEq, Repr

/-- The effect of an action. -/
def run (types : List SoftirqType) (s : Softirq) : Action → Softirq
  | .schedule type => s.softirqSchedule type
  | .execute => s.execute types

/-- The state at boot: handlers have been registered, and the kernel thread is about to run. -/
def boot (registered : List SoftirqType) : Softirq :=
  registered.foldl softirqRegister
    ⟨fun _ => false, fun _ => false, .runnable, .idle, false, fun _ => false⟩

/-- All interleavings of requests with the kernel thread. -/
def system (types : List SoftirqType) : TSys Softirq Action where
  init := fun s => ∃ registered, s = boot registered
  step := fun s a s' => s' = s.run types a

end Softirq

end F9
