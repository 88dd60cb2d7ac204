import F9.Kernel.Uart

/-!
# Does console output keep its order?

The writer finds the UART busy and is about to push; the last interrupt finds the queue
empty, so it declares the UART ready and turns itself off. The character is then pushed into
a queue that nobody reads, and the next call writes past it. `console_keeps_order`: without
an interrupt at that point, the characters keep their order and a queue that is not empty has
the interrupt enabled.
-/

namespace F9

/-- The character of a call that has not been handed on. -/
def Writer.pending : Writer → List Byte
  | .test chr | .push chr | .putc chr => [chr]
  | .idle | .busy | .enable => []

namespace Console

variable {cap : Nat} {s s' : Console}

/-- What should hold at all times: the characters of the calls are those that were sent, those
in the queue, and the one in hand, in this order; and a queue that is not empty has the
interrupt enabled. -/
structure InOrder (s : Console) : Prop where
  order : s.calls = s.sent ++ s.tx ++ s.writer.pending
  served : s.tx ≠ [] → s.txe = true

/-- The side condition: no interrupt finds an empty queue while the writer is about to push. -/
def NotBetween (s : Console) : Event → Prop
  | .interrupt => ∀ chr, s.writer = .push chr → s.tx ≠ []
  | _ => True

/-! ## The invariant -/

/-- How the flags go with the position of the writer. -/
def Flags (s : Console) : Prop :=
  match s.writer with
  | .idle | .test _ => s.txe = !s.ready ∧ (s.ready = true → s.tx = [])
  | .push _ => s.ready = false ∧ s.txe = true
  | .putc _ | .busy => s.ready = true ∧ s.txe = false ∧ s.tx = []
  | .enable => s.ready = false ∧ s.txe = false ∧ s.tx = []

/-- The characters are in order, and the flags are right. -/
structure Inv (s : Console) : Prop where
  order : s.calls = s.sent ++ s.tx ++ s.writer.pending
  flags : Flags s

theorem Inv.inOrder (h : Inv s) : InOrder s := by
  refine ⟨h.order, fun hne => ?_⟩
  have hf := h.flags
  unfold Flags at hf
  cases hw : s.writer with
  | idle =>
    rw [hw] at hf
    cases hr : s.ready with
    | true => exact absurd (hf.2 hr) hne
    | false => rw [hf.1, hr]; rfl
  | test chr =>
    rw [hw] at hf
    cases hr : s.ready with
    | true => exact absurd (hf.2 hr) hne
    | false => rw [hf.1, hr]; rfl
  | push chr =>
    rw [hw] at hf
    exact hf.2
  | putc chr =>
    rw [hw] at hf
    exact absurd hf.2.2 hne
  | busy =>
    rw [hw] at hf
    exact absurd hf.2.2 hne
  | enable =>
    rw [hw] at hf
    exact absurd hf.2.2 hne

theorem init_inv : Inv init := ⟨rfl, rfl, fun _ => rfl⟩

theorem Inv.call {chr : Byte} (h : Inv s) (hrun : s.exec cap (.call chr) = some s') :
    Inv s' := by
  have hrun : (if s.writer = .idle then
      some { s with writer := .test chr, calls := s.calls ++ [chr] } else none) = some s' := hrun
  split at hrun
  · rename_i hw
    injection hrun with hrun
    subst hrun
    obtain ⟨horder, hflags⟩ := h
    unfold Flags at hflags
    rw [hw] at horder hflags
    refine ⟨?_, hflags⟩
    show s.calls ++ [chr] = s.sent ++ s.tx ++ [chr]
    rw [horder]
    simp [Writer.pending]
  · simp at hrun

theorem Inv.step (h : Inv s) (hrun : s.exec cap .step = some s') : Inv s' := by
  obtain ⟨horder, hflags⟩ := h
  have hrun : s.dbgAsyncPutchar cap = some s' := hrun
  unfold dbgAsyncPutchar at hrun
  unfold Flags at hflags
  cases hw : s.writer with
  | idle =>
    rw [hw] at hrun
    simp at hrun
  | test chr =>
    rw [hw] at hrun horder hflags
    injection hrun with hrun
    subst hrun
    by_cases hr : s.ready = true
    · rw [if_pos hr]
      rw [hr] at hflags
      exact ⟨horder, hr, hflags.1, hflags.2 rfl⟩
    · rw [if_neg hr]
      have hr : s.ready = false := by simpa using hr
      rw [hr] at hflags
      exact ⟨horder, hr, hflags.1⟩
  | push chr =>
    rw [hw] at hrun horder hflags
    injection hrun with hrun
    split at hrun
    · subst hrun
      refine ⟨?_, ?_, fun hready => ?_⟩
      · rw [horder]
        simp [Writer.pending]
      · show s.txe = !s.ready
        rw [hflags.1, hflags.2]
        rfl
      · rw [hflags.1] at hready
        simp at hready
    · subst hrun
      refine ⟨by rw [hw]; exact horder, ?_⟩
      unfold Flags
      rw [hw]
      exact hflags
  | putc chr =>
    rw [hw] at hrun horder hflags
    injection hrun with hrun
    subst hrun
    refine ⟨?_, hflags⟩
    rw [horder, hflags.2.2]
    simp [Writer.pending]
  | busy =>
    rw [hw] at hrun horder hflags
    injection hrun with hrun
    subst hrun
    exact ⟨horder, rfl, hflags.2⟩
  | enable =>
    rw [hw] at hrun horder hflags
    injection hrun with hrun
    subst hrun
    refine ⟨horder, ?_, fun _ => hflags.2.2⟩
    show true = !s.ready
    rw [hflags.1]
    rfl

theorem Inv.interrupt (h : Inv s) (hp : NotBetween s .interrupt)
    (hrun : s.exec cap .interrupt = some s') : Inv s' := by
  have hrun : (if s.txe then some s.dbgUartSend else none) = some s' := hrun
  split at hrun
  · rename_i htxe
    injection hrun with hrun
    subst hrun
    obtain ⟨horder, hflags⟩ := h
    unfold dbgUartSend
    split
    · -- one character goes from the queue to the UART
      rename_i chr tx htx
      refine ⟨?_, ?_⟩
      · show s.calls = s.sent ++ [chr] ++ tx ++ s.writer.pending
        rw [horder, htx]
        simp
      · unfold Flags at hflags ⊢
        rw [htx] at hflags
        cases hw : s.writer with
        | idle => exact ⟨rfl, fun h0 => absurd h0 (by simp)⟩
        | test c => exact ⟨rfl, fun h0 => absurd h0 (by simp)⟩
        | push c => exact ⟨rfl, rfl⟩
        | putc c =>
          rw [hw] at hflags
          exact absurd hflags.2.2 (by simp)
        | busy =>
          rw [hw] at hflags
          exact absurd hflags.2.2 (by simp)
        | enable =>
          rw [hw] at hflags
          exact absurd hflags.2.2 (by simp)
    · -- the queue is empty
      rename_i htx
      refine ⟨horder, ?_⟩
      unfold Flags at hflags ⊢
      rw [htxe] at hflags
      cases hw : s.writer with
      | idle => exact ⟨rfl, fun _ => htx⟩
      | test c => exact ⟨rfl, fun _ => htx⟩
      | push c => exact absurd htx (hp c hw)
      | putc c =>
        rw [hw] at hflags
        exact absurd hflags.2.1 (by simp)
      | busy =>
        rw [hw] at hflags
        exact absurd hflags.2.1 (by simp)
      | enable =>
        rw [hw] at hflags
        exact absurd hflags.2.1 (by simp)
  · simp at hrun

end Console

open Console in
/-- Console output keeps its order, and what is queued will be sent, in every interleaving in
which no interrupt finds an empty queue while the writer is about to push. -/
theorem console_keeps_order {cap : Nat} {s : Console}
    (h : (Console.system cap).Reachable NotBetween s) : InOrder s := by
  refine (TSys.Reachable.invariant (I := Inv) ?_ ?_ h).inOrder
  · rintro s rfl
    exact init_inv
  · intro s a s' hs hp hstep
    cases a with
    | call chr => exact hs.call hstep
    | step => exact hs.step hstep
    | interrupt => exact hs.interrupt hp hstep

/-! ## Two interleavings -/

namespace Console

/-- The side condition as a test. -/
def notBetween? (s : Console) : Event → Bool
  | .interrupt =>
    match s.writer with
    | .push _ => !s.tx.isEmpty
    | _ => true
  | _ => true

theorem notBetween_of_test {s : Console} {a : Event} (h : s.notBetween? a = true) :
    NotBetween s a := by
  cases a with
  | call chr => trivial
  | step => trivial
  | interrupt =>
    intro chr hw htx
    have h : (match s.writer with | .push _ => !s.tx.isEmpty | _ => true) = true := h
    rw [hw, htx] at h
    simp at h

/-- A call with all of its steps: to an idle UART, and to a busy one. -/
def direct (chr : Byte) : List Event := [.call chr, .step, .step, .step, .step]

def queued (chr : Byte) : List Event := [.call chr, .step, .step]

end Console

open Console in
/-- Four characters, three of them through the queue, with an interrupt between the test and
the push of the third. -/
theorem console_keeps_order_queued : ∃ s : Console,
    (Console.system 2047).Reachable NotBetween s ∧ s.sent = [1#8, 2#8, 3#8] ∧ s.tx = [4#8] ∧
    InOrder s := by
  obtain ⟨s, hrun, hs⟩ := (Option.any_eq_true _ _).mp
    (show ((TSys.runAll (exec 2047) notBetween? init (direct 1#8 ++ queued 2#8 ++
        [.call 3#8, .step, .interrupt, .step] ++ queued 4#8 ++ [.interrupt])).any
      fun s => decide (s.sent = [1#8, 2#8, 3#8] ∧ s.tx = [4#8])) = true by decide)
  obtain ⟨hsent, htx⟩ := of_decide_eq_true hs
  have hreach := TSys.Reachable.runAll (M := Console.system 2047) (fun _ _ _ h => h)
    (fun _ _ => notBetween_of_test) _ (.init rfl) hrun
  exact ⟨s, hreach, hsent, htx, console_keeps_order hreach⟩

open Console in
/-- An interrupt between the test and the push of the second character: it stays in the queue,
with the interrupt disabled, and the third one is sent before it. -/
theorem console_swaps :
    (∃ s : Console, (Console.system 2047).Reachable (fun _ _ => True) s ∧ s.tx = [2#8] ∧
      s.txe = false ∧ ¬ InOrder s) ∧
    ∃ s : Console, (Console.system 2047).Reachable (fun _ _ => True) s ∧
      s.calls = [1#8, 2#8, 3#8] ∧ s.sent = [1#8, 3#8, 2#8] ∧ ¬ InOrder s := by
  have hreach : ∀ {as : List Console.Event} {s : Console},
      TSys.runAll (exec 2047) (fun _ _ => true) init as = some s →
      (Console.system 2047).Reachable (fun _ _ => True) s := fun {as s} hrun =>
    TSys.Reachable.runAll (M := Console.system 2047) (fun _ _ _ h => h) (fun _ _ _ => trivial) as
      (.init rfl) hrun
  refine ⟨?_, ?_⟩
  · obtain ⟨s, hrun, hs⟩ := (Option.any_eq_true _ _).mp
      (show ((TSys.runAll (exec 2047) (fun _ _ => true) init
          (direct 1#8 ++ [.call 2#8, .step, .interrupt, .step])).any
        fun s => decide (s.tx = [2#8] ∧ s.txe = false)) = true by decide)
    obtain ⟨htx, htxe⟩ := of_decide_eq_true hs
    refine ⟨s, hreach hrun, htx, htxe, fun h => ?_⟩
    have := h.served (by rw [htx]; simp)
    rw [htxe] at this
    simp at this
  · obtain ⟨s, hrun, hs⟩ := (Option.any_eq_true _ _).mp
      (show ((TSys.runAll (exec 2047) (fun _ _ => true) init
          (direct 1#8 ++ [.call 2#8, .step, .interrupt, .step] ++ direct 3#8 ++ [.interrupt])).any
        fun s => decide (s.calls = [1#8, 2#8, 3#8] ∧ s.sent = [1#8, 3#8, 2#8] ∧ s.tx = [])) =
        true by decide)
    obtain ⟨hcalls, hsent, htx⟩ := of_decide_eq_true hs
    refine ⟨s, hreach hrun, hcalls, hsent, fun h => ?_⟩
    have := h.order
    rw [hcalls, hsent, htx] at this
    injection this with _ this
    injection this with this _
    exact absurd this (by decide)

end F9
