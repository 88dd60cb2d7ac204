import F9.Kernel.Queue
import F9.Lib.TSys

/-!
# Console output (`debug_uart.c`)

`dbg_async_putchar` writes a character to the UART if it is ready, and puts it into the queue
otherwise; the interrupt handler takes characters from the queue. The handler can run between
any two steps of the writer: the test of `ready`, an attempt to push, the write to the UART,
the update of `ready`, and the update of the interrupt enable bit. It runs as a whole, and
only while the transmit interrupt is enabled. The queue is a FIFO of at most `cap` bytes.
-/

namespace F9

/-- Where the writer is in `dbg_async_putchar`. -/
inductive Writer
  /-- outside -/
  | idle
  /-- before the test of `ready` -/
  | test (chr : Byte)
  /-- `ready` was 0: in the loop that waits for a free slot -/
  | push (chr : Byte)
  /-- `ready` was not 0: before `usart_putc` -/
  | putc (chr : Byte)
  /-- before `dbg_uart.ready = 0` -/
  | busy
  /-- before `usart_config_interrupt` -/
  | enable
  deriving DecidableEq, Repr

/-- `dbg_uart` and the UART. `sent` are the characters that reached `usart_putc`, `calls` those
of the calls of `dbg_async_putchar`, in order. -/
structure Console where
  ready : Bool
  tx : List Byte
  txe : Bool
  writer : Writer
  sent : List Byte
  calls : List Byte
  deriving DecidableEq, Repr

namespace Console

/-- `dbg_uart_init`. -/
def init : Console := ⟨true, [], false, .idle, [], []⟩

/-- `dbg_uart_send(1)`. -/
def dbgUartSend (s : Console) : Console :=
  match s.tx with
  | chr :: tx => { s with tx := tx, sent := s.sent ++ [chr], ready := false, txe := true }
  | [] => { s with ready := true, txe := false }

/-- The next step of `dbg_async_putchar`; none outside of it. -/
def dbgAsyncPutchar (cap : Nat) (s : Console) : Option Console :=
  match s.writer with
  | .idle => none
  | .test chr => some { s with writer := if s.ready then .putc chr else .push chr }
  | .push chr =>
    -- queue_push, repeated until it returns QUEUE_OK
    some (if s.tx.length < cap then { s with tx := s.tx ++ [chr], writer := .idle } else s)
  | .putc chr => some { s with sent := s.sent ++ [chr], writer := .busy }
  | .busy => some { s with ready := false, writer := .enable }
  | .enable => some { s with txe := true, writer := .idle }

/-- A call of `dbg_async_putchar`, a step of it, or an interrupt. -/
inductive Event
  | call (chr : Byte)
  | step
  | interrupt
  deriving DecidableEq, Repr

/-- The effect of an event, if it can happen. -/
def exec (cap : Nat) (s : Console) : Event → Option Console
  | .call chr =>
    if s.writer = .idle then some { s with writer := .test chr, calls := s.calls ++ [chr] }
    else none
  | .step => s.dbgAsyncPutchar cap
  -- __uart_irq_handler
  | .interrupt => if s.txe then some s.dbgUartSend else none

/-- All interleavings of the writer with the interrupts. -/
def system (cap : Nat) : TSys Console Event where
  init := fun s => s = init
  step := fun s a s' => s.exec cap a = some s'

end Console

end F9
