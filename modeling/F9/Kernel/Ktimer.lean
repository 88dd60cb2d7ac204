import F9.Kernel.State
import F9.Lib.TSys

/-!
# The kernel timer (`ktimer.c`)

The queue of timer events and the countdown to its head. `delta` of an event is
relative to the event before it, that of the head to the moment the countdown was
started. The chain of `next` pointers from `event_queue` is a list of table
indices; `KTE_SOFTIRQ` is the request flag of the softirq.
-/

namespace F9

/-! ## Configuration -/

/-- `CONFIG_KTIMER_MINTICKS`. -/
def configKtimerMinticks : Word := 128#32

/-- `CONFIG_MAX_KT_EVENTS`. -/
def configMaxKtEvents : Nat := 64

/-! ## State -/

/-- A pointer to an element of `ktimer_event_table`. -/
abbrev KteRef := Nat

/-- A timer event (`ktimer_event_t`) without its link. `handler` is the callback
together with its data. -/
structure KtimerEvent (α : Type) where
  handler : α
  delta : Word

/-- The state of the kernel timer. `requested` is not in the source: it records at
which time each event was last asked to expire. -/
structure Ktimer (α : Type) where
  eventTable : KTable (KtimerEvent α)
  eventQueue : List KteRef
  now : Nat
  enabled : Bool
  delta : Word
  time : Nat
  kteSoftirq : Bool
  requested : KteRef → Nat

namespace Ktimer

variable {α : Type}

/-- `event->delta`. -/
def deltaOf (k : Ktimer α) (e : KteRef) : Word := (k.eventTable.data e).delta

/-- Set `event->delta`. -/
def setDelta (k : Ktimer α) (e : KteRef) (d : Word) : Ktimer α :=
  { k with eventTable := k.eventTable.write e { k.eventTable.data e with delta := d } }

/-! ## The countdown -/

/-- `ktimer_disable`. -/
def disable (k : Ktimer α) : Ktimer α := { k with enabled := false }

/-- `ktimer_enable`. A running countdown is left alone. -/
def enable (k : Ktimer α) (delta : Word) : Ktimer α :=
  if k.enabled then k else { k with delta := delta, time := 0, enabled := true }

/-- `__ktimer_handler`: one tick. -/
def tick (k : Ktimer α) : Ktimer α :=
  let k := { k with now := k.now + 1 }
  if k.enabled && decide (0#32 < k.delta) then
    let k := { k with time := k.time + 1, delta := k.delta - 1#32 }
    if k.delta = 0#32 then
      { k with enabled := false, time := 0, delta := 0#32, kteSoftirq := true }
    else k
  else k

/-! ## Scheduling -/

/-- `ktimer_event_recalc`. -/
def recalc (k : Ktimer α) (events : List KteRef) (newDelta : Word) : Ktimer α :=
  events.foldl (fun k e => k.setDelta e (k.deltaOf e - newDelta)) k

/-- The search loop of `ktimer_event_schedule` from `next_event` on: the events it
passes, the final `delta`, and the events from the final `next_event` on. The sums
are those of the 32-bit machine. -/
def scheduleSearch (delta : KteRef → Word) (ticks : Word) :
    Word → List KteRef → List KteRef × Word × List KteRef
  | etime, [] => ([], ticks - etime, [])
  | etime, event :: rest =>
    let etime := etime + delta event
    match rest with
    | [] => ([event], ticks - etime, [])
    | next :: _ =>
      if etime + delta next < ticks then
        let (passed, d, rest) := scheduleSearch delta ticks etime rest
        (event :: passed, d, rest)
      else ([event], ticks - etime, rest)

/-- `ktimer_event_schedule`, for an event that is not queued. The comparison with
`CONFIG_KTIMER_MINTICKS` is signed. -/
def eventSchedule (k : Ktimer α) (ticks : Word) (kte : KteRef) : Int × Ktimer α :=
  if ticks = 0#32 then (-1, k)
  else
    let k := { k with requested := fun e => if e = kte then k.now + ticks.toNat else k.requested e }
    let ticks := ticks - BitVec.ofNat 32 k.time
    match k.eventQueue with
    | [] =>
      -- All other events are already handled
      let k := k.setDelta kte ticks
      (0, enable { k with eventQueue := [kte] } ticks)
    | head :: _ =>
      let (before, delta, after, k) :=
        if k.deltaOf head ≤ ticks then
          let (passed, delta, rest) := scheduleSearch k.deltaOf ticks 0#32 k.eventQueue
          (passed, delta, rest, k)
        else
          -- Event should be scheduled before earlier event
          ([], ticks, k.eventQueue, k.enable ticks)
      -- Chaining events
      let delta := if delta.slt configKtimerMinticks then 0#32 else delta
      let k := { k with eventQueue := before ++ kte :: after }
      (0, recalc (k.setDelta kte delta) after delta)

/-- `ktimer_event_create`, with a handler that is not `NULL`. -/
def eventCreate (k : Ktimer α) (ticks : Word) (handler : α) : Int × Ktimer α :=
  match k.eventTable.alloc with
  | none => (-1, k)
  | some (kte, table) =>
    let k := { k with eventTable := table.write kte { table.data kte with handler := handler } }
    k.eventSchedule ticks kte

/-! ## Handling -/

/-- The loop of `ktimer_event_handler` over the events that are due. `run` is the
callback; it acts on the rest of the kernel. -/
def handleEvents {σ : Type} (run : σ → α → Except Fault (Word × σ)) :
    List KteRef → σ → Ktimer α → Except Fault (σ × Ktimer α)
  | [], st, k => .ok (st, k)
  | event :: events, st, k => do
    let (hRetvalue, st) ← run st (k.eventTable.data event).handler
    if hRetvalue ≠ 0#32 then
      handleEvents run events st (k.eventSchedule hRetvalue event).2
    else
      handleEvents run events st { k with eventTable := k.eventTable.free event }

/-- `ktimer_event_handler`. The due events are the head of the queue and those
right behind it with delta 0. -/
def eventHandler {σ : Type} (run : σ → α → Except Fault (Word × σ)) (st : σ) (k : Ktimer α) :
    Except Fault (σ × Ktimer α) :=
  match k.eventQueue with
  | [] => .ok (st, k.disable)
  | head :: rest => do
    let isDue := fun e => decide (k.deltaOf e = 0#32)
    let (st, k) ← handleEvents run (head :: rest.takeWhile isDue) st
      { k with eventQueue := rest.dropWhile isDue }
    match k.eventQueue with
    | [] => return (st, k)
    | event :: _ =>
      -- Reset ktimer
      return (st, k.enable (k.deltaOf event))

/-! The callbacks that the handler calls, for statements about them. -/

/-- The calls of the loop in order: the state at the call, the event and its handler. -/
def handleCalls {σ : Type} (run : σ → α → Except Fault (Word × σ)) :
    List KteRef → σ → Ktimer α → List (σ × KteRef × α)
  | [], _, _ => []
  | event :: events, st, k =>
    (st, event, (k.eventTable.data event).handler) ::
      match run st (k.eventTable.data event).handler with
      | .error _ => []
      | .ok (hRetvalue, st) =>
        if hRetvalue ≠ 0#32 then
          handleCalls run events st (k.eventSchedule hRetvalue event).2
        else handleCalls run events st { k with eventTable := k.eventTable.free event }

/-- The calls of `ktimer_event_handler`. -/
def handlerCalls {σ : Type} (run : σ → α → Except Fault (Word × σ)) (st : σ) (k : Ktimer α) :
    List (σ × KteRef × α) :=
  match k.eventQueue with
  | [] => []
  | head :: rest =>
    let isDue := fun e => decide (k.deltaOf e = 0#32)
    handleCalls run (head :: rest.takeWhile isDue) st
      { k with eventQueue := rest.dropWhile isDue }

/-- The state after `ktimer_event_init`. -/
def initial (event : KtimerEvent α) : Ktimer α where
  eventTable := ⟨configMaxKtEvents, 0, fun _ => event⟩
  eventQueue := []
  now := 0
  enabled := false
  delta := 0#32
  time := 0
  kteSoftirq := false
  requested := fun _ => 0

/-! ## Runs -/

/-- What happens to the timer. A run of the handler comes with the values that the
callbacks return, in order. -/
inductive Action (α : Type)
  | schedule (ticks : Word) (kte : KteRef)
  | create (ticks : Word) (handler : α)
  | tick
  | handle (results : List Word)

/-- Callbacks that only return the given results. -/
def nextResult (results : List Word) (_ : α) : Except Fault (Word × List Word) :=
  .ok (results.headD 0#32, results.tail)

/-- One step. An event that is scheduled is not queued, and if it is in the table it
has been allocated there. The handler runs when the softirq is requested. -/
inductive Step : Ktimer α → Action α → Ktimer α → Prop
  | schedule {k ticks kte} : ticks ≠ 0#32 → kte ∉ k.eventQueue →
      (kte < k.eventTable.num → k.eventTable.live kte = true) →
      Step k (.schedule ticks kte) (k.eventSchedule ticks kte).2
  | create {k ticks handler} : Step k (.create ticks handler) (k.eventCreate ticks handler).2
  | tick {k} : Step k .tick k.tick
  | handle {k results rest k'} : k.kteSoftirq = true →
      eventHandler nextResult results { k with kteSoftirq := false } = .ok (rest, k') →
      Step k (.handle results) k'

/-- The timer from initialisation on. -/
def system (α : Type) : TSys (Ktimer α) (Action α) where
  init := fun k => ∃ event, k = initial event
  step := Step

/-! ## Use

The same timer with the operations the rest of the kernel has: events are only created, and the
handler may run at any time, with any callbacks. -/

/-- `ktimer_event_create`, with a handler that may be `NULL`. -/
def eventCreateOpt (k : Ktimer α) (ticks : Word) : Option α → Int × Ktimer α
  | none => (-1, k)
  | some handler => k.eventCreate ticks handler

/-- One use of the timer. -/
inductive Use (α : Type)
  | create (ticks : Word) (handler : Option α)
  | tick
  | handle

inductive UseStep : Ktimer α → Use α → Ktimer α → Prop
  | create {k ticks handler} :
      UseStep k (.create ticks handler) (k.eventCreateOpt ticks handler).2
  | tick {k} : UseStep k .tick k.tick
  | handle {k k' : Ktimer α} {σ : Type} {run : σ → α → Except Fault (Word × σ)} {st st' : σ} :
      eventHandler run st { k with kteSoftirq := false } = .ok (st', k') → UseStep k .handle k'

/-- The timer in use, from initialisation on. -/
def usage (α : Type) : TSys (Ktimer α) (Use α) where
  init := fun k => ∃ event, k = initial event
  step := UseStep

end Ktimer

end F9
