import F9.Logic.Events
import F9.Logic.ThreadEffects

/-!
# Sleep

`sys_ipc` without a destination and with a timeout puts its caller to sleep: the thread becomes
inactive and a timer event is to wake it. A sleeping thread looks like one that has not been
started, so the machine is watched from outside (`Watched`): which thread is in which sleep, and
for which sleep an event was created.
-/

namespace F9

open Result

variable {mm : Memmap} {kip r : Word} {c t x f : TcbRef} {s s' s'' : Core} {m : Machine}

/-! ## Watching -/

/-- The thread that a step puts to sleep. -/
def putsToSleep (m : Machine) : Event → Option TcbRef
  | .syscall =>
    match m.core.caller with
    | none => none
    | some c =>
      if svcNum m.core c = SYS_IPC ∧ (m.core.tcb c).frame.r0 = L4_NILTHREAD ∧
          (m.core.tcb c).frame.r2 ≠ 0#32 then some c
      else none
  | _ => none

/-- A machine with a record of its sleeps. They are numbered: `sleeps` is the next number,
`asleep` the sleep a thread is in, `born` the sleep that last took an event of the table. -/
structure Watched where
  machine : Machine
  asleep : TcbRef → Option Nat
  born : KteRef → Nat
  sleeps : Nat

namespace Watched

/-- The record after a step. A thread is in its sleep until it is found active or removed. -/
def next (w : Watched) (e : Event) (m' : Machine) : Watched where
  machine := m'
  asleep t :=
    if putsToSleep w.machine e = some t then some w.sleeps
    else if m'.core.live t = true ∧ (m'.core.tcb t).state = .inactive then w.asleep t
    else none
  born x :=
    if (putsToSleep w.machine e).isSome = true ∧
        w.machine.timer.eventTable.alloc.map Prod.fst = some x then w.sleeps
    else w.born x
  sleeps := if (putsToSleep w.machine e).isSome = true then w.sleeps + 1 else w.sleeps

/-- The watched machine from the initial states on. -/
def system (mm : Memmap) (kip : Word) (init : Watched → Prop) : TSys Watched Event where
  init := init
  step w e w' := ∃ m', Machine.Step mm kip w.machine e m' ∧ w' = w.next e m'

/-- Carry out an event, if it can happen. -/
def exec (mm : Memmap) (kip : Word) (w : Watched) (e : Event) : Option Watched :=
  (w.machine.exec mm kip e).map (w.next e)

theorem exec_step {init : Watched → Prop} (w : Watched) (e : Event) (w' : Watched)
    (h : w.exec mm kip e = some w') : (system mm kip init).step w e w' := by
  obtain ⟨m', hm', h⟩ := Option.map_eq_some_iff.mp h
  exact ⟨m', Machine.exec_step hm', h.symm⟩

end Watched

/-- A queued event is to wake the thread. -/
def Wakes (k : Ktimer TimerHandler) (t : TcbRef) : Prop :=
  ∃ e ∈ k.eventQueue, k.handlerOf e = .ipcTimeout t

instance (k : Ktimer TimerHandler) (t : TcbRef) : Decidable (Wakes k t) :=
  inferInstanceAs (Decidable (∃ e ∈ k.eventQueue, k.handlerOf e = .ipcTimeout t))

/-! ## The timer in a system call -/

theorem putsToSleep_syscall (hc : m.core.caller = some c) :
    putsToSleep m .syscall =
      if svcNum m.core c = SYS_IPC ∧ (m.core.tcb c).frame.r0 = L4_NILTHREAD ∧
        (m.core.tcb c).frame.r2 ≠ 0#32 then some c else none := by
  simp only [putsToSleep, hc]

/-- A sleep creates an event, the other calls leave the timer alone. -/
theorem syscallHandler_timer {m' : Machine} (h : syscallHandler mm kip m = .ok m') :
    (∃ c, putsToSleep m .syscall = some c ∧
      m'.timer = (m.timer.eventCreate (sleepTicks (m.core.tcb c).frame.r2) (.ipcTimeout c)).2) ∨
    (putsToSleep m .syscall = none ∧ m'.timer = m.timer) := by
  obtain ⟨c, hc, ⟨htc, s, _, rfl⟩ | ⟨hipc, h⟩ | ⟨_, hipc, rfl⟩⟩ := syscallHandler_cases h
  · refine .inr ⟨?_, rfl⟩
    rw [putsToSleep_syscall hc, htc, if_neg]
    exact fun hs => absurd hs.1 (by decide)
  · rw [putsToSleep_syscall hc]
    obtain ⟨_, _, ⟨hr0, hr2, _, htimer⟩ | ⟨htimer, hother⟩⟩ := sysIpc_outcome h
    · exact .inl ⟨c, if_pos ⟨hipc, hr0, hr2⟩, htimer⟩
    · refine .inr ⟨if_neg ?_, htimer⟩
      rintro ⟨_, hr0, hr2⟩
      rcases hother with ⟨hne, _⟩ | ⟨_, hzero, _⟩
      · exact hne hr0
      · exact hr2 hzero
  · refine .inr ⟨?_, rfl⟩
    rw [putsToSleep_syscall hc, if_neg]
    exact fun hs => hipc hs.1

/-- Events that are queued stay so, with their handlers, when another is created. -/
theorem Wakes.create {k : Ktimer TimerHandler} (h : Ktimer.Stored [] k) (hw : Wakes k t)
    (ticks : Word) (handler : TimerHandler) : Wakes (k.eventCreate ticks handler).2 t := by
  obtain ⟨_, hkept, hsame, hnew⟩ := h.create ticks handler
  obtain ⟨e, he, heq⟩ := hw
  refine ⟨e, ?_, (hkept e he).trans heq⟩
  by_cases hno : ticks = 0#32 ∨ k.eventTable.alloc = none
  · rw [hsame hno]
    exact he
  · rw [not_or] at hno
    obtain ⟨⟨x, table⟩, halloc⟩ := Option.ne_none_iff_exists'.mp hno.2
    exact (hnew hno.1 x table halloc).2.2.mem_iff.mpr (List.mem_cons_of_mem x he)

/-! ## Stacks

`do_ipc` between threads of which one has no stack makes the caller of the last system call
runnable, whoever that is. Threads that have trapped have a stack. -/

/-- The thread waits for a partner. -/
def Core.blocked (s : Core) (x : TcbRef) : Prop :=
  (s.tcb x).state = .recvBlocked ∨ (s.tcb x).state = .sendBlocked

/-- Threads that wait for a partner have a stack. -/
def Grounded (s : Core) : Prop := ∀ x, s.blocked x → (s.tcb x).ctx.sp ≠ 0#32

theorem not_blocked_inactive (h : (s.tcb x).state = .inactive) : ¬ s.blocked x := by
  unfold Core.blocked
  rw [h]
  decide

theorem setTcb_grounded (hg : Grounded s) {f : Tcb → Tcb}
    (h : (f (s.tcb t)).state = .recvBlocked ∨ (f (s.tcb t)).state = .sendBlocked →
      (f (s.tcb t)).ctx.sp ≠ 0#32) : Grounded (s.setTcb t f) := by
  intro x hx
  unfold Core.blocked at hx
  rw [Core.tcb_setTcb] at hx ⊢
  by_cases hxt : x = t
  · rw [if_pos hxt] at hx ⊢
    exact h hx
  · rw [if_neg hxt] at hx ⊢
    exact hg x hx

/-- Only threads that waited for a partner have changed their state. -/
structure Paired (s s' : Core) : Prop where
  same : SameThreads s s'
  caller : s'.caller = s.caller
  sp : ∀ x, (s'.tcb x).ctx.sp = (s.tcb x).ctx.sp
  state : ∀ x, ¬ s.blocked x → (s'.tcb x).state = (s.tcb x).state

theorem Paired.refl (s : Core) : Paired s s :=
  ⟨.refl s, rfl, fun _ => rfl, fun _ _ => rfl⟩

theorem Paired.unblocked (h : Paired s s') (hx : ¬ s.blocked x) : ¬ s'.blocked x := by
  unfold Core.blocked
  rw [h.state x hx]
  exact hx

theorem Paired.trans (h1 : Paired s s') (h2 : Paired s' s'') : Paired s s'' :=
  ⟨h1.same.trans h2.same, h2.caller.trans h1.caller, fun x => (h2.sp x).trans (h1.sp x),
    fun x hx => (h2.state x (h1.unblocked hx)).trans (h1.state x hx)⟩

theorem Paired.grounded (h : Paired s s') (hg : Grounded s) : Grounded s' := by
  intro x hx
  rw [h.sp]
  by_contra hsp
  exact h.unblocked (fun hb => hg x hb hsp) hx

/-- `do_ipc` leaves nobody waiting who has no stack. -/
theorem doIpc_grounded (h : doIpc mm s f t = .ok s') (hg : Grounded s) : Grounded s' := by
  obtain ⟨_, _, hsp, hout⟩ := doIpc_effect h
  intro x hx
  rw [hsp]
  unfold Core.blocked at hx
  cases hout with
  | overflow hst _ =>
    rw [hst] at hx
    exact hg x hx
  | noStack c _ _ hst _ =>
    rw [hst] at hx
    split at hx
    · exact absurd hx (by decide)
    · exact hg x hx
  | complete _ hf hst _ =>
    rw [hst] at hx
    split at hx
    · rename_i hxf
      rw [hxf]
      exact hf
    · split at hx
      · exact absurd hx (by decide)
      · exact hg x hx

theorem doIpc_paired (h : doIpc mm s f t = .ok s') (hf : (s.tcb f).state = .sendBlocked)
    (ht : (s.tcb t).state = .recvBlocked) (hg : Grounded s) : Paired s s' := by
  obtain ⟨hsame, hcaller, hsp, hout⟩ := doIpc_effect h
  refine ⟨hsame, hcaller, hsp, fun x hx => ?_⟩
  cases hout with
  | overflow hst _ => exact hst x
  | noStack c hzero _ _ _ =>
    rcases hzero with h0 | h0
    · exact absurd h0 (hg t (.inl ht))
    · exact absurd h0 (hg f (.inr hf))
  | complete _ _ hst _ =>
    rw [hst, if_neg, if_neg]
    · rintro rfl
      exact hx (.inl ht)
    · rintro rfl
      exact hx (.inr hf)

theorem deliverLoop_paired (n i : Nat) (s s' : Core) (hg : Grounded s)
    (h : deliverLoop mm n i s = .ok s') : Paired s s' := by
  induction n generalizing i s s' with
  | zero =>
    rw [← ok_ok.mp h]
    exact .refl s
  | succ n ih =>
    obtain ⟨s1, h1, h⟩ := bind_ok.mp h
    rcases deliverAt_cases h1 with heq | ⟨f, t, hipc, hf, ht, _⟩
    · rw [heq] at h
      exact ih _ _ _ hg h
    · have hp := doIpc_paired hipc hf ht hg
      exact hp.trans (ih _ _ _ (hp.grounded hg) h)

theorem ipcDeliver_paired (hg : Grounded s) (h : ipcDeliver mm s = .ok (r, s')) :
    r ≠ 0#32 ∧ Paired s s' := by
  obtain ⟨s1, h1, h⟩ := bind_ok.mp h
  obtain ⟨rfl, rfl⟩ := pure_pair.mp h
  exact ⟨by decide, deliverLoop_paired _ _ _ _ hg h1⟩

/-! ## Sends to threads that do not wait -/

/-- The call makes the thread runnable, which is not its caller and did not wait for it: the id
that the caller has itself leads to another thread, or the caller starts the thread. -/
def Rouses (s : Core) (c t : TcbRef) : Prop :=
  t ≠ c ∧ threadByGlobalid s (s.tcb c).frame.r0 = .ok (some t) ∧
    ((s.tcb c).frame.r0 = (s.tcb c).tGlobalid ∨
      (inactiveOfPager s c (some t) = .ok true ∧ (s.tcb c).ctx.regs 0 = 0x00000003#32))

theorem rouses_calls {calls : List (TcbRef × Word)} (h : Rouses { s with calls := calls } c t) :
    Rouses s c t := by
  obtain ⟨hne, hlook, hwhy⟩ := h
  have hsame : SameThreads s { s with calls := calls } := ⟨fun _ => rfl, rfl, rfl, rfl, rfl, rfl⟩
  rw [hsame.lookup] at hlook
  exact ⟨hne, hlook, hwhy⟩

/-- After a message that `c` sends, inactive threads are so still, unless it rouses them. -/
theorem doIpc_inactive (h : doIpc mm s c t = .ok s') (hcaller : s.caller = some c)
    (hx : (s.tcb x).state = .inactive) (hc : x ≠ c) (ht : x ≠ t) :
    (s'.tcb x).state = .inactive := by
  obtain ⟨_, _, _, hout⟩ := doIpc_effect h
  rw [hout.state_eq hc ht, hx]
  rw [hcaller]
  exact fun heq => hc (Option.some.inj heq).symm

theorem sysIpcSend_inactive (h : sysIpcSend mm kip s c (s.tcb c).frame.r0 = .ok s')
    (hcaller : s.caller = some c) (hc : (s.tcb c).state ≠ .inactive)
    (hsp : (s.tcb c).ctx.sp ≠ 0#32) (hg : Grounded s) :
    SameThreads s s' ∧ Grounded s' ∧
    ∀ x, (s.tcb x).state = .inactive → ¬ Rouses s c x → (s'.tcb x).state = .inactive := by
  have hxc : ∀ {x : TcbRef}, (s.tcb x).state = .inactive → x ≠ c := by
    rintro x hx rfl
    exact hc hx
  obtain ⟨p, hlook, ⟨_, rfl⟩ | ⟨_, ⟨t, rfl, hdirect, h⟩ | ⟨_, _,
    ⟨t, rfl, hpager, ⟨hstart, h⟩ | ⟨_, s1, hipc, rfl⟩⟩ | ⟨_, u, _, rfl⟩⟩⟩⟩ := sysIpcSend_cases h
  · refine ⟨setTcb_same rfl, setTcb_grounded hg (by simp), fun x hx _ => ?_⟩
    rw [Core.tcb_setTcb, if_neg (hxc hx), hx]
  · refine ⟨(doIpc_effect h).1, doIpc_grounded h hg, fun x hx hrouse => ?_⟩
    refine doIpc_inactive h hcaller hx (hxc hx) ?_
    rintro rfl
    rcases hdirect with hrecv | hself
    · rw [hx] at hrecv
      exact absurd hrecv (by decide)
    · exact hrouse ⟨hxc hx, hlook, .inl hself⟩
  · obtain ⟨hsame, _, _, hctx, hst⟩ := startThread_effect h
    refine ⟨hsame, fun x hx => ?_, fun x hx hrouse => ?_⟩
    · unfold Core.blocked at hx
      rw [hst] at hx
      split at hx
      · exact absurd hx (by decide)
      · rename_i hne
        rw [not_or] at hne
        rw [hctx x hne.1]
        exact hg x hx
    · rw [hst, if_neg, hx]
      rintro (rfl | rfl)
      · exact hrouse ⟨hxc hx, hlook, .inr ⟨hpager, hstart⟩⟩
      · exact hc hx
  · refine ⟨(doIpc_effect hipc).1.trans (setTcb_same rfl),
      setTcb_grounded (doIpc_grounded hipc hg) (by simp), fun x hx _ => ?_⟩
    rw [Core.tcb_setTcb]
    split
    · rfl
    · rename_i hne
      exact doIpc_inactive hipc hcaller hx (hxc hx) hne
  · refine ⟨(setTcb_same rfl).trans (setUtcb_same _ _ _), ?_, fun x hx _ => ?_⟩
    · have hg' : Grounded (s.setTcb c fun tcb => { tcb with state := .sendBlocked }) :=
        setTcb_grounded hg fun _ => hsp
      exact hg'
    · show ((s.setTcb c fun tcb => { tcb with state := .sendBlocked }).tcb x).state = _
      rw [Core.tcb_setTcb, if_neg (hxc hx), hx]

end F9
