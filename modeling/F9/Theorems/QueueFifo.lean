import F9.Kernel.Queue
import F9.Lib.Cyclic
import F9.Lib.Result
import F9.Logic.Blocks

/-!
# Is the ring queue a FIFO?

The indices go round at `size - 1`, and `queue_length` of a queue whose `end` is behind its
`top` is the distance the wrong way round plus `size`, never `size` itself. So `queue_push`
never reports an overflow: with `size - 1` unread bytes the queue looks empty, `queue_pop`
then returns `QUEUE_EMPTY` and `queue_push` overwrites the oldest byte. `ring_queue_fifo`:
as long as a call is made with fewer bytes unread, the queue is a FIFO. For buffers of more
than 2 GiB the sum in `queue_length` can be 0 modulo 2 ^ 32 as well (`SumWraps`).
-/

namespace F9

open Arc Cyclic Result

/-! ## The contract -/

/-- What the contract asks of one call: a push does not overwrite an unread byte, unless it
reports an overflow; a pop returns the oldest byte, and reports an empty queue only if all
bytes have been popped. -/
def FifoStep (r : QueueRun) (op : QueueOp) (status : QueueStatus) (r' : QueueRun) : Prop :=
  match op with
  | .push _ => status = .ok → r'.queue.stop.toNat ∉ r.unread
  | .pop => (status = .ok → r'.popped <+: r'.pushed) ∧ (status = .empty → r.popped = r.pushed)

/-- Each call of the sequence returns, without an access behind the buffer, and keeps the
contract. -/
def Fifo : QueueRun → List QueueOp → Prop
  | _, [] => True
  | r, op :: ops => ∃ status r', r.exec op = .ok (status, r') ∧ FifoStep r op status r' ∧ Fifo r' ops

/-! ## The condition -/

/-- `size + top - end` is `2 ^ 32`, for a queue of `m + 1` bytes with `n` bytes unread. -/
def SumWraps (m top n : Nat) : Prop := m ≤ top + n ∧ n + 2 ^ 32 = 2 * m + 1

instance (m top n : Nat) : Decidable (SumWraps m top n) := inferInstanceAs (Decidable (_ ∧ _))

/-- Each call is made when fewer than `m` bytes are unread, `n` of them at the start, and
none pops a byte while the sum wraps. -/
def Fits (m : Nat) : Nat → Nat → List QueueOp → Prop
  | _, _, [] => True
  | top, n, .push _ :: ops => n < m ∧ Fits m top (n + 1) ops
  | top, 0, .pop :: ops => 0 < m ∧ Fits m top 0 ops
  | top, n + 1, .pop :: ops =>
    n + 1 < m ∧ ¬ SumWraps m top (n + 1) ∧ Fits m (shift m top 1) n ops

instance Fits.decidable (m : Nat) : ∀ (top n : Nat) (ops : List QueueOp),
    Decidable (Fits m top n ops)
  | _, _, [] => .isTrue (by unfold Fits; trivial)
  | top, n, .push _ :: ops =>
    have := Fits.decidable m top (n + 1) ops
    inferInstanceAs (Decidable (n < m ∧ Fits m top (n + 1) ops))
  | top, 0, .pop :: ops =>
    have := Fits.decidable m top 0 ops
    inferInstanceAs (Decidable (0 < m ∧ Fits m top 0 ops))
  | top, n + 1, .pop :: ops =>
    have := Fits.decidable m (shift m top 1) n ops
    inferInstanceAs (Decidable
      (n + 1 < m ∧ ¬ SumWraps m top (n + 1) ∧ Fits m (shift m top 1) n ops))

/-! ## The state of a run -/

/-- The queue of `m + 1` bytes holds the `n` bytes that were pushed and not popped. -/
structure Holding (r : QueueRun) (m top n : Nat) : Prop where
  size : r.queue.size.toNat = m + 1
  topAt : r.queue.top.toNat = top
  lt : top < m
  le : n ≤ m
  stop : r.queue.stop.toNat = shift m top n
  unread : r.unread = slots m top n
  bytes : r.pushed = r.popped ++ r.unread.map r.queue.data

section

variable {r : QueueRun} {m top n : Nat} {b : Byte}

theorem queueNext_toNat {q : Queue} {i : Word} (hs : q.size.toNat = m + 1) (hi : i.toNat < m) :
    (queueNext q i).toNat = shift m i.toNat 1 := by
  have h1 : (i + 1#32).toNat = i.toNat + 1 := by
    exact Nat.mod_eq_of_lt (by simp; omega)
  have h2 : (q.size - 1#32).toNat = m := by
    have hone : (1#32).toNat = 1 := rfl
    rw [toNat_sub_eq, hone, if_pos (by omega)]
    omega
  unfold queueNext shift
  by_cases h : i + 1#32 = q.size - 1#32
  · have hm : i.toNat + 1 = m := by rw [← h1, h, h2]
    rw [if_pos h, if_neg (by omega)]
    show 0 = _
    omega
  · have hm : i.toNat + 1 ≠ m := by
      intro hm
      exact h (BitVec.eq_of_toNat_eq (by rw [h1, h2, hm]))
    rw [if_neg h, if_pos (by omega), h1]

/-- `queue_length` is never `size`, and 0 for an empty queue, a full one, and one whose sum
wraps. -/
theorem Holding.length (h : Holding r m top n) :
    queueLength r.queue ≠ r.queue.size ∧
      (queueLength r.queue = 0#32 ↔ n = 0 ∨ n = m ∨ SumWraps m top n) := by
  have hs := h.size
  have ht := h.topAt
  have hlt := h.lt
  have hle := h.le
  have hst := h.stop
  have hval : (queueLength r.queue).toNat =
      if top ≤ shift m top n then shift m top n - top
      else (m + 1 + top - shift m top n) % 2 ^ 32 := by
    have hcmp : r.queue.top ≤ r.queue.stop ↔ top ≤ shift m top n := by
      rw [BitVec.le_def, ht, hst]
    have hlts : shift m top n < m := shift_lt hlt hle
    unfold queueLength
    by_cases hc : r.queue.top ≤ r.queue.stop
    · rw [if_pos hc, if_pos (hcmp.mp hc), toNat_sub_eq, ht, hst, if_pos (hcmp.mp hc)]
    · rw [if_neg hc, if_neg (mt hcmp.mpr hc), BitVec.toNat_sub, BitVec.toNat_add, hs, ht, hst]
      omega
  have hzero : queueLength r.queue = 0#32 ↔ (queueLength r.queue).toNat = 0 :=
    ⟨fun h0 => by rw [h0]; rfl, fun h0 => BitVec.eq_of_toNat_eq h0⟩
  have hsize : (queueLength r.queue).toNat ≠ m + 1 → queueLength r.queue ≠ r.queue.size := by
    intro hne heq
    rw [heq] at hne
    exact hne hs
  rw [hzero]
  unfold SumWraps
  unfold shift at hval
  constructor
  · refine hsize ?_
    rw [hval]
    split <;> split <;> omega
  · rw [hval]
    split <;> split <;> omega

/-- The run after a push that is carried out. -/
def QueueRun.afterPush (r : QueueRun) (b : Byte) : QueueRun :=
  { r with
    queue := { r.queue with
      stop := queueNext r.queue r.queue.stop
      data := fun i => if i = (queueNext r.queue r.queue.stop).toNat then b else r.queue.data i }
    pushed := r.pushed ++ [b]
    unread := r.unread ++ [(queueNext r.queue r.queue.stop).toNat] }

/-- The run after a pop that is carried out. -/
def QueueRun.afterPop (r : QueueRun) : QueueRun :=
  { r with
    queue := { r.queue with top := queueNext r.queue r.queue.top }
    popped := r.popped ++ [r.queue.data (queueNext r.queue r.queue.top).toNat]
    unread := r.unread.tail }

theorem QueueRun.exec_push (hne : queueLength r.queue ≠ r.queue.size)
    (hin : queueNext r.queue r.queue.stop < r.queue.size) :
    r.exec (.push b) = .ok (.ok, r.afterPush b) := by
  show (queuePush r.queue b >>= _) = _
  unfold queuePush
  rw [if_neg hne]
  rw [if_pos hin]
  rfl

theorem QueueRun.exec_pop (hne : queueLength r.queue ≠ 0#32)
    (hin : queueNext r.queue r.queue.top < r.queue.size) :
    r.exec .pop = .ok (.ok, r.afterPop) := by
  show (queuePop r.queue >>= _) = _
  unfold queuePop
  rw [if_neg hne]
  rw [if_pos hin]
  rfl

theorem QueueRun.exec_pop_empty (hz : queueLength r.queue = 0#32) :
    r.exec .pop = .ok (.empty, r) := by
  show (queuePop r.queue >>= _) = _
  unfold queuePop
  rw [if_pos hz]
  rfl

theorem Holding.next_stop (h : Holding r m top n) :
    (queueNext r.queue r.queue.stop).toNat = shift m (shift m top n) 1 ∧
      queueNext r.queue r.queue.stop < r.queue.size := by
  have hlt : shift m top n < m := shift_lt h.lt h.le
  have hnext : (queueNext r.queue r.queue.stop).toNat = shift m (shift m top n) 1 := by
    rw [queueNext_toNat h.size (by rw [h.stop]; exact hlt), h.stop]
  have hin : shift m (shift m top n) 1 < m := shift_lt hlt (Nat.succ_le_of_lt (by omega))
  refine ⟨hnext, ?_⟩
  rw [BitVec.lt_def, hnext, h.size]
  omega

theorem Holding.push (h : Holding r m top n) (hn : n < m) (b : Byte) :
    r.exec (.push b) = .ok (.ok, r.afterPush b) ∧ FifoStep r (.push b) .ok (r.afterPush b) ∧
      Holding (r.afterPush b) m top (n + 1) := by
  obtain ⟨hnext, hin⟩ := h.next_stop
  rw [shift_shift h.lt hn] at hnext
  have hfresh : shift m top (n + 1) ∉ r.unread := by
    rw [h.unread]
    exact next_not_mem_slots hn
  refine ⟨QueueRun.exec_push h.length.1 hin, ?_, ?_⟩
  · intro _
    show (queueNext r.queue r.queue.stop).toNat ∉ r.unread
    rw [hnext]
    exact hfresh
  · refine ⟨h.size, h.topAt, h.lt, hn, hnext, ?_, ?_⟩
    · show r.unread ++ [(queueNext r.queue r.queue.stop).toNat] = _
      rw [hnext, h.unread, slots_succ]
    · -- the new byte stands at the end, the unread ones where they were
      show r.pushed ++ [b] = r.popped ++ (r.unread ++ [(queueNext r.queue r.queue.stop).toNat]).map
        fun i => if i = (queueNext r.queue r.queue.stop).toNat then b else r.queue.data i
      have hsame : r.unread.map (fun i => if i = shift m top (n + 1) then b else r.queue.data i) =
          r.unread.map r.queue.data := by
        refine List.map_congr_left fun i hi => if_neg ?_
        rintro rfl
        exact hfresh hi
      rw [hnext, List.map_append, hsame, h.bytes, List.append_assoc]
      simp

theorem Holding.pop_empty (h : Holding r m top 0) : FifoStep r .pop .empty r := by
  refine ⟨fun h0 => absurd h0 (by decide), fun _ => ?_⟩
  have hb := h.bytes
  rw [h.unread, slots_zero, List.map_nil, List.append_nil] at hb
  exact hb.symm

theorem Holding.pop (h : Holding r m top (n + 1)) (hn : n + 1 < m)
    (hw : ¬ SumWraps m top (n + 1)) :
    r.exec .pop = .ok (.ok, r.afterPop) ∧ FifoStep r .pop .ok r.afterPop ∧
      Holding r.afterPop m (shift m top 1) n := by
  have hnz : queueLength r.queue ≠ 0#32 := by
    intro h0
    rcases h.length.2.mp h0 with h1 | h1 | h1
    · omega
    · omega
    · exact hw h1
  have hnext : (queueNext r.queue r.queue.top).toNat = shift m top 1 := by
    rw [queueNext_toNat h.size (by rw [h.topAt]; exact h.lt), h.topAt]
  have hlt : shift m top 1 < m := shift_lt h.lt (by omega)
  have hin : queueNext r.queue r.queue.top < r.queue.size := by
    rw [BitVec.lt_def, hnext, h.size]
    omega
  have hunread : r.unread = shift m top 1 :: slots m (shift m top 1) n := by
    rw [h.unread, slots_cons h.lt (by omega)]
  have hbytes : r.pushed = (r.popped ++ [r.queue.data (shift m top 1)]) ++
      (slots m (shift m top 1) n).map r.queue.data := by
    rw [h.bytes, hunread]
    simp
  refine ⟨QueueRun.exec_pop hnz hin, ⟨?_, fun h0 => absurd h0 (by decide)⟩, ?_⟩
  · intro _
    show r.popped ++ [r.queue.data (queueNext r.queue r.queue.top).toNat] <+: r.pushed
    rw [hnext, hbytes]
    exact List.prefix_append _ _
  · refine ⟨h.size, hnext, hlt, by omega, ?_, ?_, ?_⟩
    · show r.queue.stop.toNat = _
      rw [h.stop, shift_shift_left h.lt (by omega)]
    · show r.unread.tail = _
      rw [hunread]
      rfl
    · show r.pushed = (r.popped ++ [r.queue.data (queueNext r.queue r.queue.top).toNat]) ++
        r.unread.tail.map r.queue.data
      rw [hnext, hunread]
      exact hbytes

/-- A pop from a queue that looks empty and is not. -/
theorem Holding.pop_lost (h : Holding r m top n) (hn : n ≠ 0) : ¬ FifoStep r .pop .empty r := by
  rintro ⟨_, hall⟩
  have hlen := congrArg List.length h.bytes
  rw [hall rfl, List.length_append, List.length_map, h.unread, length_slots] at hlen
  omega

/-- A push into a full queue overwrites the oldest byte. -/
theorem Holding.push_full (h : Holding r m top m) (b : Byte) :
    r.exec (.push b) = .ok (.ok, r.afterPush b) ∧ ¬ FifoStep r (.push b) .ok (r.afterPush b) := by
  obtain ⟨hnext, hin⟩ := h.next_stop
  rw [shift_self] at hnext
  refine ⟨QueueRun.exec_push h.length.1 hin, fun hfifo => hfifo rfl ?_⟩
  show (queueNext r.queue r.queue.stop).toNat ∈ r.unread
  rw [hnext, h.unread]
  exact first_mem_slots (Nat.zero_lt_of_lt h.lt)

end

/-! ## Runs -/

/-- What a call that returns says about the sequence. -/
theorem fifo_cons {r r' : QueueRun} {op : QueueOp} {ops : List QueueOp} {status : QueueStatus}
    (hrun : r.exec op = .ok (status, r')) :
    Fifo r (op :: ops) ↔ FifoStep r op status r' ∧ Fifo r' ops := by
  constructor
  · rintro ⟨st, t, hrun', hstep, hrest⟩
    rw [hrun] at hrun'
    injection hrun' with heq
    obtain ⟨rfl, rfl⟩ := heq
    exact ⟨hstep, hrest⟩
  · rintro ⟨hstep, hrest⟩
    exact ⟨status, r', hrun, hstep, hrest⟩

/-- From a queue that holds its bytes: induction on the calls. -/
theorem Holding.fifo_iff {m : Nat} (ops : List QueueOp) (r : QueueRun) (top n : Nat)
    (h : Holding r m top n) : (Fifo r ops ↔ Fits m top n ops) := by
  induction ops generalizing r top n with
  | nil => exact iff_of_true trivial (by unfold Fits; trivial)
  | cons op ops ih =>
    cases op with
    | push b =>
      by_cases hn : n < m
      · obtain ⟨hrun, hstep, hhold⟩ := h.push hn b
        rw [fifo_cons hrun, ih _ _ _ hhold]
        exact and_congr_left' (iff_of_true hstep hn)
      · obtain rfl : n = m := Nat.le_antisymm h.le (Nat.le_of_not_lt hn)
        obtain ⟨hrun, hbad⟩ := h.push_full b
        rw [fifo_cons hrun]
        exact iff_of_false (fun hf => hbad hf.1) fun hf => hn hf.1
    | pop =>
      cases n with
      | zero =>
        have hrun := QueueRun.exec_pop_empty (h.length.2.mpr (.inl rfl))
        rw [fifo_cons hrun, ih _ _ _ h]
        exact and_congr_left' (iff_of_true h.pop_empty (Nat.zero_lt_of_lt h.lt))
      | succ n =>
        by_cases hlost : n + 1 = m ∨ SumWraps m top (n + 1)
        · have hrun := QueueRun.exec_pop_empty (h.length.2.mpr (.inr hlost))
          rw [fifo_cons hrun]
          refine iff_of_false (fun hf => h.pop_lost (by omega) hf.1) ?_
          rintro ⟨h1, h2, _⟩
          rcases hlost with h3 | h3
          · omega
          · exact h2 h3
        · rw [not_or] at hlost
          have hlt : n + 1 < m := Nat.lt_of_le_of_ne h.le hlost.1
          obtain ⟨hrun, hstep, hhold⟩ := h.pop hlt hlost.2
          rw [fifo_cons hrun, ih _ _ _ hhold]
          constructor
          · rintro ⟨_, hrest⟩
            exact ⟨hlt, hlost.2, hrest⟩
          · rintro ⟨_, _, hrest⟩
            exact ⟨hstep, hrest⟩

theorem Holding.start (addr : Nat → Byte) {size : Word} (hsize : 2 ≤ size.toNat) :
    Holding (QueueRun.start addr size) (size.toNat - 1) 0 0 := by
  refine ⟨?_, rfl, by omega, by omega, ?_, rfl, rfl⟩
  · show size.toNat = _
    omega
  · unfold shift
    rw [if_pos (by omega)]
    rfl

/-- The ring queue is a FIFO in exactly those sequences of calls in which each call is made
with fewer than `size - 1` bytes unread. -/
theorem ring_queue_fifo (addr : Nat → Byte) {size : Word} (hsize : 2 ≤ size.toNat)
    (ops : List QueueOp) :
    Fifo (QueueRun.start addr size) ops ↔ Fits (size.toNat - 1) 0 0 ops :=
  Holding.fifo_iff ops _ 0 0 (.start addr hsize)

/-- Two bytes go through a buffer of four, twice, and the indices go round. -/
theorem ring_queue_fifo_round :
    Fifo (QueueRun.start (fun _ => 0#8) 4#32) [.push 1#8, .push 2#8, .pop, .pop, .push 3#8,
      .push 4#8, .pop, .pop, .pop] :=
  (ring_queue_fifo _ (by decide) _).mpr (by decide)

/-- The calls one after the other, with what they return. -/
def QueueRun.execAll : QueueRun → List QueueOp → Except Fault (List QueueStatus × QueueRun)
  | r, [] => .ok ([], r)
  | r, op :: ops => do
    let (status, r) ← r.exec op
    let (statuses, r) ← execAll r ops
    return (status :: statuses, r)

/-- Three bytes fill a buffer of four, and none of them can be popped; a fourth byte is
accepted and takes the place of the first. -/
theorem ring_queue_loses :
    (((QueueRun.start (fun _ => 0#8) 4#32).execAll
        [.push 1#8, .push 2#8, .push 3#8, .pop, .push 4#8, .pop]).map
      fun v => (v.1, v.2.pushed, v.2.popped)) =
      .ok ([.ok, .ok, .ok, .empty, .ok, .ok], [1#8, 2#8, 3#8, 4#8], [4#8]) ∧
    ¬ Fifo (QueueRun.start (fun _ => 0#8) 4#32) [.push 1#8, .push 2#8, .push 3#8, .pop] := by
  refine ⟨rfl, fun h => ?_⟩
  exact absurd ((Holding.fifo_iff _ _ _ _ (.start _ (by decide))).mp h) (by decide)

end F9
