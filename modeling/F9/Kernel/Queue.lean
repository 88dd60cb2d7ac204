import F9.Kernel.State

/-!
# Ring queues (`lib/queue.c`)

A queue of bytes in a buffer of `size` bytes. `top` is the index that was read last and `end`
the one that was written last; both go round at `size - 1`. An access behind the buffer is
the fault `outOfBounds`.
-/

namespace F9

/-- `uint8_t`. -/
abbrev Byte := BitVec 8

/-- `QUEUE_OK`, `QUEUE_OVERFLOW` and `QUEUE_EMPTY`. -/
inductive QueueStatus
  | ok
  | overflow
  | empty
  deriving DecidableEq, Repr

/-- `struct queue_t`. -/
structure Queue where
  data : Nat → Byte
  top : Word
  stop : Word
  size : Word

def queueLength (q : Queue) : Word :=
  if q.top ≤ q.stop then q.stop - q.top else q.size + q.top - q.stop

def queueInit (addr : Nat → Byte) (size : Word) : Queue where
  data := addr
  top := 0#32
  stop := 0#32
  size := size

/-- The increment of an index, which goes round. -/
def queueNext (q : Queue) (i : Word) : Word :=
  if i + 1#32 = q.size - 1#32 then 0#32 else i + 1#32

def queuePush (q : Queue) (element : Byte) : Except Fault (QueueStatus × Queue) :=
  if queueLength q = q.size then .ok (.overflow, q)
  else
    let stop := queueNext q q.stop
    if stop < q.size then
      .ok (.ok, { q with
        stop := stop
        data := fun i => if i = stop.toNat then element else q.data i })
    else .error .outOfBounds

/-- `queue_pop`: the status, the byte written to `*element` if there is one, and the queue. -/
def queuePop (q : Queue) : Except Fault (QueueStatus × Option Byte × Queue) :=
  if queueLength q = 0#32 then .ok (.empty, none, q)
  else
    let top := queueNext q q.top
    if top < q.size then .ok (.ok, some (q.data top.toNat), { q with top := top })
    else .error .outOfBounds

/-! ## Sequences of calls -/

/-- One call. -/
inductive QueueOp
  | push (element : Byte)
  | pop
  deriving DecidableEq, Repr

/-- The queue with its history: the bytes that were pushed and popped with success, and the
indices in the buffer of those that are not read yet, oldest first. -/
structure QueueRun where
  queue : Queue
  pushed : List Byte
  popped : List Byte
  unread : List Nat

/-- After `queue_init`. -/
def QueueRun.start (addr : Nat → Byte) (size : Word) : QueueRun where
  queue := queueInit addr size
  pushed := []
  popped := []
  unread := []

/-- One call, and what it adds to the history. -/
def QueueRun.exec (r : QueueRun) : QueueOp → Except Fault (QueueStatus × QueueRun)
  | .push element => do
    let (status, q) ← queuePush r.queue element
    match status with
    | .ok => return (status, { r with
        queue := q
        pushed := r.pushed ++ [element]
        unread := r.unread ++ [q.stop.toNat] })
    | _ => return (status, { r with queue := q })
  | .pop => do
    let (status, element, q) ← queuePop r.queue
    match status with
    | .ok => return (status, { r with
        queue := q
        popped := r.popped ++ element.toList
        unread := r.unread.tail })
    | _ => return (status, { r with queue := q })

end F9
