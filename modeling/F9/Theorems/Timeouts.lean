import F9.Kernel.UserWrites
import F9.Theorems.Sleepers

/-!
# Timeouts

The event of a sleep is never cancelled. If the thread is started by its pager, or removed, while
it sleeps, `ipc_timeout` later runs for a thread that does something else, or for whatever is in
the table entry then. A thread that removed itself may even go to sleep afterwards, and a
frame may go over the tables. `timeouts_right`: a timeout finds its thread in the sleep it was made
for, in every run without these.
-/

namespace F9

open Result Ktimer

variable {w : Watched} {m' m : Machine} {c : TcbRef}

/-- Every call of `ipc_timeout` that a run of the timer handler would make now finds its thread
allocated and inactive, in the sleep for which the event was created. -/
def TimeoutsRight (mm : Memmap) (w : Watched) : Prop :=
  ∀ call ∈ handlerCalls (TimerHandler.run mm) w.machine.core
      { w.machine.timer with kteSoftirq := false },
    ∀ t, call.2.2 = .ipcTimeout t → call.1.live t = true ∧ (call.1.tcb t).state = .inactive ∧
      w.asleep t = some (w.born call.2.1)

/-- The step does not get in the way of a sleep: a thread that goes to sleep is allocated, one with a
queued timeout is neither roused by a message nor removed, and a thread that traps has a stack. -/
def Undisturbed (w : Watched) : Event → Prop
  | .svc _ user => user.sp ≠ 0#32
  | .syscall => ∀ c, w.machine.core.caller = some c →
      (putsToSleep w.machine .syscall = some c → w.machine.core.live c = true) ∧
      (svcNum w.machine.core c = SYS_IPC →
        ∀ t, Rouses w.machine.core c t → ¬ Wakes w.machine.timer t) ∧
      (svcNum w.machine.core c = SYS_THREAD_CONTROL →
        (w.machine.core.tcb c).frame.r1 = L4_NILTHREAD →
        ∀ t, threadByGlobalid w.machine.core (w.machine.core.tcb c).frame.r0 = .ok (some t) →
          ¬ Wakes w.machine.timer t)
  | _ => True

/-- The frame of a thread that is started goes out of the memory of the user. -/
def Watched.Strays (mm : Memmap) (w : Watched) (e : Event) : Prop :=
  e = .syscall ∧ StrayFrame mm w.machine

/-- Nobody sleeps or waits yet, no timeout is queued and no system call is pending. -/
structure Watched.Start (w : Watched) : Prop extends w.Fresh where
  unblocked : ∀ t, ¬ w.machine.core.blocked t
  noTimeout : ∀ e ∈ w.machine.timer.eventQueue, ∀ t, w.machine.timer.handlerOf e ≠ .ipcTimeout t
  syscallSoftirq : w.machine.syscallSoftirq = false

/-! ## The invariant -/

/-- The caller of a pending system call waits for it and has a stack. -/
def Pending (s : Core) : Prop := ∃ c, s.caller = some c ∧
  ((s.tcb c).state = .svcBlocked ∨ (s.tcb c).state = .runnable) ∧ (s.tcb c).ctx.sp ≠ 0#32

/-- While the handler works on `es`: every timeout there and on the queue is for a thread in the
sleep of the event, one for each thread. -/
structure Right (asleep : TcbRef → Option Nat) (born : KteRef → Nat) (es : List KteRef) (s : Core)
    (k : Ktimer TimerHandler) : Prop extends Stored es k where
  right : ∀ e ∈ es ++ k.eventQueue, ∀ t, k.handlerOf e = .ipcTimeout t →
    s.live t = true ∧ (s.tcb t).state = .inactive ∧ asleep t = some (born e)
  once : ∀ e ∈ es ++ k.eventQueue, ∀ e' ∈ es ++ k.eventQueue, ∀ t,
    k.handlerOf e = .ipcTimeout t → k.handlerOf e' = .ipcTimeout t → e = e'
  grounded : Grounded s

variable {mm : Memmap} {kip : Word} {asleep : TcbRef → Option Nat} {born : KteRef → Nat}
  {es es' : List KteRef} {s s' : Core} {k k' : Ktimer TimerHandler}

/-- The threads change, but not those with a timeout. -/
theorem Right.frame (h : Right asleep born es s k)
    (hkeep : ∀ t, s.live t = true → (s.tcb t).state = .inactive →
      (∃ e ∈ es ++ k.eventQueue, k.handlerOf e = .ipcTimeout t) →
      s'.live t = true ∧ (s'.tcb t).state = .inactive)
    (hg : Grounded s') : Right asleep born es s' k := by
  refine ⟨h.toStored, fun e he t ht => ?_, h.once, hg⟩
  obtain ⟨hlive, hst, hasleep⟩ := h.right e he t ht
  obtain ⟨hlive', hst'⟩ := hkeep t hlive hst ⟨e, he, ht⟩
  exact ⟨hlive', hst', hasleep⟩

/-- The events are others, but each was there before, with the same handler. -/
theorem Right.events (h : Right asleep born es s k) (hst : Stored es' k')
    (hsub : ∀ e ∈ es' ++ k'.eventQueue, e ∈ es ++ k.eventQueue ∧ k'.handlerOf e = k.handlerOf e) :
    Right asleep born es' s k' := by
  refine ⟨hst, fun e he t ht => ?_, fun e he e' he' t ht ht' => ?_, h.grounded⟩
  · obtain ⟨he, hh⟩ := hsub e he
    exact h.right e he t (hh ▸ ht)
  · obtain ⟨he, hh⟩ := hsub e he
    obtain ⟨he', hh'⟩ := hsub e' he'
    exact h.once e he e' he' t (hh ▸ ht) (hh' ▸ ht')

theorem Right.paired (h : Right asleep born es s k) (hp : Paired s s') :
    Right asleep born es s' k := by
  refine h.frame (fun t hlive hst _ => ⟨?_, ?_⟩) (hp.grounded h.grounded)
  · rw [hp.same.live]
    exact hlive
  · rw [hp.state t (not_blocked_inactive hst)]
    exact hst

/-! ## The timer handler -/

theorem Right.call (e : KteRef) (es : List KteRef) (s : Core) (k : Ktimer TimerHandler) (r : Word)
    (s' : Core) (hrun : (k.handlerOf e).run mm s = .ok (r, s'))
    (h : Right asleep born (e :: es) s k) :
    (r ≠ 0#32 → Right asleep born es s' (k.eventSchedule r e).2) ∧
      (r = 0#32 → Right asleep born es s' { k with eventTable := k.eventTable.free e }) := by
  cases hh : k.handlerOf e with
  | ipcDeliver =>
    rw [hh] at hrun
    obtain ⟨hr, hp⟩ := ipcDeliver_paired h.grounded hrun
    refine ⟨fun _ => ?_, fun hzero => absurd hzero hr⟩
    refine (h.paired hp).events (h.toStored.schedule hr) fun x hx => ⟨?_, ?_⟩
    · exact (h.toStored.scheduled hr).1.mem_iff.mp hx
    · exact handlerOf_eventSchedule k r e x
  | ipcTimeout thr =>
    rw [hh] at hrun
    obtain ⟨rfl, rfl⟩ := Prod.mk.inj (ok_ok.mp hrun)
    refine ⟨fun hne => absurd rfl hne, fun _ => ?_⟩
    have h1 : Right asleep born es s { k with eventTable := k.eventTable.free e } :=
      h.events h.toStored.free fun x hx => ⟨List.mem_cons_of_mem e hx, rfl⟩
    obtain ⟨hsame, hctx, hstate⟩ := ipcTimeout_effect s thr
    refine h1.frame (fun t hlive hst ht => ⟨?_, ?_⟩) fun x hx => ?_
    · exact hlive
    · -- the event was the only one of its thread, so the others are for other threads
      rw [hstate, if_neg, hst]
      rintro rfl
      obtain ⟨x, hx, hxt⟩ := ht
      have hxe : x = e := h.once x (List.mem_cons_of_mem e hx) e List.mem_cons_self t hxt hh
      exact (List.nodup_cons.mp h.nodup).1 (hxe ▸ hx)
    · unfold Core.blocked at hx
      rw [hstate] at hx
      rw [hctx]
      split at hx
      · exact absurd hx (by decide)
      · exact h.grounded x hx

theorem Right.due (es q : List KteRef) (s : Core) (k : Ktimer TimerHandler)
    (happ : es ++ q = k.eventQueue) (h : Right asleep born [] s k) :
    Right asleep born es s { k with eventQueue := q } :=
  h.events (h.toStored.due happ) fun _ hx => ⟨happ ▸ hx, rfl⟩

theorem Right.congr (s : Core) (k k' : Ktimer TimerHandler) (hq : k'.eventQueue = k.eventQueue)
    (ht : k'.eventTable = k.eventTable) (h : Right asleep born [] s k) :
    Right asleep born [] s k' := by
  refine h.events (h.toStored.congr hq fun e => by rw [ht]) fun x hx => ⟨?_, ?_⟩
  · rw [hq] at hx
    exact hx
  · unfold handlerOf
    rw [ht]

theorem Right.timeouts (h : Right w.asleep w.born [] w.machine.core w.machine.timer) :
    TimeoutsRight mm w := by
  have h0 : Right w.asleep w.born [] w.machine.core { w.machine.timer with kteSoftirq := false } :=
    Right.congr _ w.machine.timer _ rfl rfl h
  intro call hcall
  refine handlerCalls_rule (I := Right w.asleep w.born)
    (P := fun s e handler => ∀ t, handler = .ipcTimeout t →
      s.live t = true ∧ (s.tcb t).state = .inactive ∧ w.asleep t = some (w.born e))
    Right.due ?_ ?_ h0 call hcall
  · exact fun e es s k r s' hrun hk => Right.call e es s k r s' hrun hk
  · exact fun e es s k hk t ht => hk.right e List.mem_cons_self t ht

/-- The caller of a pending call is not touched by the callbacks. -/
theorem handler_pending (hrun : Ktimer.eventHandler (TimerHandler.run mm) s k = .ok (s', k'))
    (h : Right asleep born [] s k) (hp : Pending s) : Pending s' := by
  refine (eventHandler_rule (I := fun es s k => Right asleep born es s k ∧ Pending s)
    (fun es q s k happ hI => ⟨Right.due es q s k happ hI.1, hI.2⟩) ?_
    (fun s k k' hq ht hI => ⟨Right.congr s k k' hq ht hI.1, hI.2⟩) hrun ⟨h, hp⟩).2
  intro e es s k r s' hrun ⟨hright, c, hc, hst, hsp⟩
  have hcall := Right.call e es s k r s' hrun hright
  have hp' : Pending s' := by
    cases hh : k.handlerOf e with
    | ipcDeliver =>
      rw [hh] at hrun
      obtain ⟨_, hpair⟩ := ipcDeliver_paired hright.grounded hrun
      refine ⟨c, hpair.caller.trans hc, ?_, by rw [hpair.sp]; exact hsp⟩
      rw [hpair.state]
      · exact hst
      · unfold Core.blocked
        rcases hst with hst | hst <;> simp [hst]
    | ipcTimeout thr =>
      rw [hh] at hrun
      obtain ⟨_, rfl⟩ := Prod.mk.inj (ok_ok.mp hrun)
      obtain ⟨_, hctx, hstate⟩ := ipcTimeout_effect s thr
      refine ⟨c, hc, ?_, by rw [hctx]; exact hsp⟩
      rw [hstate]
      split
      · exact .inr rfl
      · exact hst
  exact ⟨fun hr => ⟨hcall.1 hr, hp'⟩, fun hr => ⟨hcall.2 hr, hp'⟩⟩

/-! ## Steps -/

/-- A step that puts nobody to sleep: the record of a thread that is inactive stays. -/
theorem Right.next {e : Event} (h : Right w.asleep w.born [] m'.core m'.timer)
    (hput : putsToSleep w.machine e = none) :
    Right (w.next e m').asleep (w.next e m').born [] m'.core m'.timer := by
  refine ⟨h.toStored, fun x hx t ht => ?_, h.once, h.grounded⟩
  obtain ⟨hlive, hst, hasleep⟩ := h.right x hx t ht
  refine ⟨hlive, hst, ?_⟩
  simp only [Watched.next]
  rw [hput, if_neg (by simp), if_pos ⟨hlive, hst⟩, if_neg (by simp)]
  exact hasleep

/-- A thread that goes to sleep: it had no timeout, and the new event is for this sleep. -/
theorem Right.sleep (h : Right w.asleep w.born [] w.machine.core w.machine.timer)
    (hput : putsToSleep w.machine .syscall = some c)
    (hc : (w.machine.core.tcb c).state ≠ .inactive)
    (hlive : ∀ t, m'.core.live t = w.machine.core.live t) (hst : ∀ t, (m'.core.tcb t).state =
      if t = c then .inactive else (w.machine.core.tcb t).state)
    (hlc : w.machine.core.live c = true) (hg : Grounded m'.core)
    (htimer : m'.timer = (w.machine.timer.eventCreate
      (sleepTicks (w.machine.core.tcb c).frame.r2) (.ipcTimeout c)).2) :
    Right (w.next .syscall m').asleep (w.next .syscall m').born [] m'.core m'.timer := by
  obtain ⟨hstored, hkept, hsame, hnew⟩ :=
    h.toStored.create (sleepTicks (w.machine.core.tcb c).frame.r2) (.ipcTimeout c)
  rw [← htimer] at hstored hkept hsame hnew
  -- an old event is not the element that was taken, and not for the caller
  have hold : ∀ x ∈ w.machine.timer.eventQueue, ∀ t, m'.timer.handlerOf x = .ipcTimeout t →
      t ≠ c ∧ m'.core.live t = true ∧ (m'.core.tcb t).state = .inactive ∧
        (w.next .syscall m').asleep t = some ((w.next .syscall m').born x) := by
    intro x hx t ht
    rw [hkept x hx] at ht
    obtain ⟨hl, hs, ha⟩ := h.right x hx t ht
    have htc : t ≠ c := by
      rintro rfl
      exact hc hs
    have hl' : m'.core.live t = true := by
      rw [hlive]
      exact hl
    have hs' : (m'.core.tcb t).state = .inactive := by
      rw [hst, if_neg htc]
      exact hs
    refine ⟨htc, hl', hs', ?_⟩
    simp only [Watched.next]
    rw [hput, if_neg (fun heq => htc (Option.some.inj heq).symm), if_pos ⟨hl', hs'⟩, if_neg]
    · exact ha
    · rintro ⟨_, hx'⟩
      obtain ⟨⟨x', table⟩, halloc, rfl⟩ := Option.map_eq_some_iff.mp hx'
      exact (h.toStored.alloc (.ipcTimeout c) halloc).1 hx
  by_cases hno : sleepTicks (w.machine.core.tcb c).frame.r2 = 0#32 ∨
      w.machine.timer.eventTable.alloc = none
  · -- no event: the queue is the old one
    have hq := hsame hno
    refine ⟨hstored, fun x hx t ht => ?_, fun x hx x' hx' t ht ht' => ?_, hg⟩
    · rw [hq] at hx
      exact (hold x hx t ht).2
    · rw [hq] at hx hx'
      rw [hkept x hx] at ht
      rw [hkept x' hx'] at ht'
      exact h.once x hx x' hx' t ht ht'
  · rw [not_or] at hno
    obtain ⟨⟨x0, table⟩, halloc⟩ := Option.ne_none_iff_exists'.mp hno.2
    obtain ⟨_, hx0, hperm⟩ := hnew hno.1 x0 table halloc
    refine ⟨hstored, fun x hx t ht => ?_, fun x hx x' hx' t ht ht' => ?_, hg⟩
    · rcases List.mem_cons.mp (hperm.mem_iff.mp hx) with rfl | hx
      · obtain rfl : c = t := by simpa using hx0.symm.trans ht
        refine ⟨by rw [hlive]; exact hlc, by rw [hst, if_pos rfl], ?_⟩
        simp only [Watched.next]
        rw [if_pos hput, if_pos]
        rw [hput, halloc]
        exact ⟨rfl, rfl⟩
      · exact (hold x hx t ht).2
    · rcases List.mem_cons.mp (hperm.mem_iff.mp hx) with rfl | hx
      · rcases List.mem_cons.mp (hperm.mem_iff.mp hx') with rfl | hx'
        · rfl
        · obtain rfl : c = t := by simpa using hx0.symm.trans ht
          exact absurd rfl (hold x' hx' c ht').1
      · rcases List.mem_cons.mp (hperm.mem_iff.mp hx') with rfl | hx'
        · obtain rfl : c = t := by simpa using hx0.symm.trans ht'
          exact absurd rfl (hold x hx c ht).1
        · rw [hkept x hx] at ht
          rw [hkept x' hx'] at ht'
          exact h.once x hx x' hx' t ht ht'

/-- The invariant between two steps. -/
structure Watched.Good (w : Watched) : Prop where
  right : Right w.asleep w.born [] w.machine.core w.machine.timer
  pending : w.machine.syscallSoftirq = true → Pending w.machine.core

theorem Watched.Start.good (h : w.Start) : w.Good where
  right :=
    { toStored := h.stored
      right := fun e he t ht => absurd ht (h.noTimeout e he t)
      once := fun e he _ _ t ht _ => absurd ht (h.noTimeout e he t)
      grounded := fun x hx => absurd hx (h.unblocked x) }
  pending := fun hirq => absurd hirq (by rw [h.syscallSoftirq]; simp)

/-- The caller becomes runnable at the end of a call: it has no timeout. -/
theorem Right.runnable (h : Right asleep born es s k)
    (hc : (s.tcb c).state ≠ .inactive ∨ ¬ ∃ e ∈ es ++ k.eventQueue, k.handlerOf e = .ipcTimeout c) :
    Right asleep born es (s.setTcb c fun tcb => { tcb with state := .runnable }) k := by
  refine h.frame (fun t hlive hst ht => ⟨hlive, ?_⟩) (setTcb_grounded h.grounded (by simp))
  rw [Core.tcb_setTcb, if_neg, hst]
  rintro rfl
  rcases hc with hc | hc
  · exact hc hst
  · exact hc ht

theorem sysThreadControl_right (hrun : sysThreadControl mm s c = .ok s')
    (h : Right asleep born [] s k) (hc : (s.tcb c).state ≠ .inactive)
    (hremove : (s.tcb c).frame.r1 = L4_NILTHREAD →
      ∀ t, threadByGlobalid s (s.tcb c).frame.r0 = .ok (some t) → ¬ Wakes k t) :
    Right asleep born [] (s'.setTcb c fun tcb => { tcb with state := .runnable }) k := by
  obtain ⟨_, _, _, ⟨_, rfl | ⟨thr, hfresh, hlive, hthr, _, hact⟩⟩ |
    ⟨hnil, thr, hlook, hlive, hact⟩⟩ :=
    sysThreadControl_activity hrun
  · exact h.runnable (.inl hc)
  · have hne : ∀ t, s.live t = true → t ≠ thr := by
      rintro t ht rfl
      exact ne_true_of_eq_false hfresh ht
    have h1 : Right asleep born [] s' k := by
      refine h.frame (fun t hl hst _ => ⟨by rw [hlive, hl]; rfl, ?_⟩) fun x hx => ?_
      · exact (congrArg Prod.fst (hact t (hne t hl))).trans hst
      · unfold Core.blocked at hx
        by_cases hxt : x = thr
        · rw [hxt, hthr] at hx
          exact absurd hx (by decide)
        · have hst : (s'.tcb x).state = (s.tcb x).state := congrArg Prod.fst (hact x hxt)
          have hctx : (s'.tcb x).ctx = (s.tcb x).ctx := congrArg (·.2.1) (hact x hxt)
          rw [hst] at hx
          rw [hctx]
          exact h.grounded x hx
    -- the caller has no timeout, whatever its entry holds now
    refine h1.runnable (.inr ?_)
    rintro ⟨e, he, ht⟩
    exact hc (h.right e he c ht).2.1
  · have h1 : Right asleep born [] s' k := by
      refine h.frame (fun t hl hst ht => ⟨?_, ?_⟩) fun x hx => ?_
      · have hne : t ≠ thr := by
          rintro rfl
          exact hremove hnil t hlook ht
        rw [hlive, hl]
        simp [hne]
      · exact (congrArg Prod.fst (hact t)).trans hst
      · have hst : (s'.tcb x).state = (s.tcb x).state := congrArg Prod.fst (hact x)
        have hctx : (s'.tcb x).ctx = (s.tcb x).ctx := congrArg (·.2.1) (hact x)
        unfold Core.blocked at hx
        rw [hst] at hx
        rw [hctx]
        exact h.grounded x hx
    exact h1.runnable (.inl fun hst => hc ((congrArg Prod.fst (hact c)).symm.trans hst))

theorem syscall_right (hrun : syscallHandler mm kip w.machine = .ok m')
    (h : Right w.asleep w.born [] w.machine.core w.machine.timer) (hp : Pending w.machine.core)
    (hu : Undisturbed w .syscall) :
    Right (w.next .syscall { m' with syscallSoftirq := false }).asleep
      (w.next .syscall { m' with syscallSoftirq := false }).born [] m'.core m'.timer := by
  obtain ⟨c, hcaller, hst, hsp⟩ := hp
  obtain ⟨hlive, hrouse, hremove⟩ := hu c hcaller
  have hc : (w.machine.core.tcb c).state ≠ .inactive := by
    rcases hst with hst | hst <;> simp [hst]
  obtain ⟨c', hc', hway⟩ := syscallHandler_cases hrun
  obtain rfl : c = c' := by simpa [hcaller] using hc'
  have hput := putsToSleep_syscall hcaller
  rcases hway with ⟨htc, s1, h1, rfl⟩ | ⟨hipc, hrun⟩ | ⟨_, hipc, rfl⟩
  · rw [htc, if_neg (fun hs => absurd hs.1 (by decide))] at hput
    exact Right.next (sysThreadControl_right h1 h hc (hremove htc)) hput
  · obtain ⟨calls, _, ⟨hr0, hr2, hcore, htm⟩ | ⟨htm, hway⟩⟩ := sysIpc_outcome hrun
    · rw [if_pos ⟨hipc, hr0, hr2⟩] at hput
      have hsleep : Right (w.next .syscall m').asleep (w.next .syscall m').born [] m'.core
          m'.timer := by
        refine Right.sleep h hput hc (fun t => ?_) (fun t => ?_) (hlive hput) ?_ htm
        · rw [hcore]
          rfl
        · rw [hcore, Core.tcb_setTcb]
          split <;> rfl
        · rw [hcore]
          have hg : Grounded { w.machine.core with calls := calls } := h.grounded
          exact setTcb_grounded hg (by simp)
      exact hsleep
    · have hnot : ¬ (svcNum w.machine.core c = SYS_IPC ∧
          (w.machine.core.tcb c).frame.r0 = L4_NILTHREAD ∧
          (w.machine.core.tcb c).frame.r2 ≠ 0#32) := by
        rintro ⟨_, hr0, hr2⟩
        rcases hway with ⟨hne, _⟩ | ⟨_, hzero, _⟩
        · exact hne hr0
        · exact hr2 hzero
      rw [if_neg hnot] at hput
      suffices hnext : Right w.asleep w.born [] m'.core m'.timer from Right.next hnext hput
      rw [htm]
      rcases hway with ⟨_, hsend⟩ | ⟨_, _, state, source, hblock, hcore⟩
      · obtain ⟨hsame, hg, hkeep⟩ := sysIpcSend_inactive hsend hcaller hc hsp h.grounded
        refine h.frame (fun t hl hs ht => ⟨by rw [hsame.live]; exact hl, hkeep t hs ?_⟩) hg
        exact fun hr => hrouse hipc t (rouses_calls hr) ht
      · rw [hcore]
        have hg : Grounded { w.machine.core with calls := calls } := h.grounded
        refine h.frame (fun t hl hs _ => ⟨hl, ?_⟩) (setTcb_grounded hg fun _ => hsp)
        rw [Core.tcb_setTcb, if_neg]
        · exact hs
        · rintro rfl
          exact hc hs
  · rw [if_neg (fun hs => hipc hs.1)] at hput
    exact Right.next (h.runnable (.inl hc)) hput

theorem Machine.Step.good {e : Event} (hstep : Machine.Step mm kip w.machine e m') (h : w.Good)
    (hu : Undisturbed w e) : (w.next e m').Good := by
  cases hstep with
  | @svc thr user hirq _ hst =>
    obtain ⟨hsame, hcaller, _, htcb⟩ := svcHandler_effect w.machine thr user
    have hne : ∀ t, (w.machine.core.tcb t).state = .inactive → t ≠ thr := by
      rintro t ht rfl
      rw [hst] at ht
      simp at ht
    refine ⟨Right.next (h.right.frame (fun t hl hs _ => ⟨?_, ?_⟩) fun x hx => ?_) rfl, fun _ => ?_⟩
    · rw [hsame.live]
      exact hl
    · rw [htcb, if_neg (hne t hs)]
      exact hs
    · unfold Core.blocked at hx
      rw [htcb] at hx ⊢
      by_cases hxt : x = thr
      · rw [if_pos hxt] at hx
        simp at hx
      · rw [if_neg hxt] at hx ⊢
        exact h.right.grounded x hx
    · refine ⟨thr, hcaller, .inl ?_, ?_⟩
      · show ((svcHandler w.machine thr user).core.tcb thr).state = _
        rw [htcb, if_pos rfl]
      · show ((svcHandler w.machine thr user).core.tcb thr).ctx.sp ≠ _
        rw [htcb, if_pos rfl]
        exact hu
  | @syscall m1 hirq hrun =>
    exact ⟨syscall_right hrun h.right (h.pending hirq) hu, fun hf => absurd hf (by simp [Watched.next])⟩
  | tick =>
    obtain ⟨hq, ht⟩ := tick_queue w.machine.timer
    exact ⟨Right.next (Right.congr _ _ _ hq ht h.right) rfl, h.pending⟩
  | @timer core timer _ hrun =>
    have h0 : Right w.asleep w.born [] w.machine.core
        { w.machine.timer with kteSoftirq := false } :=
      Right.congr _ w.machine.timer _ rfl rfl h.right
    have h1 : Right w.asleep w.born [] core timer :=
      eventHandler_rule (I := Right w.asleep w.born) Right.due
        (fun e es s k r s' hrun hk => Right.call e es s k r s' hrun hk) Right.congr hrun h0
    exact ⟨Right.next h1 rfl,
      fun hirq => handler_pending hrun h0 (h.pending hirq)⟩
  | @deliver n core hrun =>
    obtain ⟨_, hp⟩ := ipcDeliver_paired h.right.grounded hrun
    refine ⟨Right.next (h.right.paired hp) rfl,
      fun hirq => ?_⟩
    obtain ⟨c, hc, hst, hsp⟩ := h.pending hirq
    refine ⟨c, hp.caller.trans hc, ?_, ?_⟩
    · show (core.tcb c).state = _ ∨ (core.tcb c).state = _
      rw [hp.state]
      · exact hst
      · unfold Core.blocked
        rcases hst with hst | hst <;> simp [hst]
    · show (core.tcb c).ctx.sp ≠ _
      rw [hp.sp]
      exact hsp

/-! ## Runs -/

/-- In every state of a run that does not disturb sleeping threads or write over the tables,
`ipc_timeout` would only be called for threads in the sleep the event was created for. -/
theorem timeouts_right {w : Watched}
    (h : ((Watched.system mm kip Watched.Start).wild (Watched.Strays mm)).Reachable
      (fun w e => ¬ w.Strays mm e ∧ Undisturbed w e) w) : TimeoutsRight mm w := by
  have hgood : w.Good := by
    refine TSys.Reachable.invariant (I := Watched.Good) ?_ ?_ (h.tame fun _ _ hp => hp.1)
    · exact fun w hw => hw.good
    · rintro w e w' hw hu ⟨m', hm', rfl⟩
      exact hm'.good hw hu.2
  exact hgood.right.timeouts

/-! ## A sleep, and one that is disturbed -/

theorem Watched.awake_start {m : Machine} (hm : m.Start) (hq : m.timer.eventQueue = []) :
    (Watched.awake m).Start where
  toFresh := Watched.awake_fresh hq
  unblocked t := by
    unfold Core.blocked
    show ¬ ((m.core.tcb t).state = _ ∨ (m.core.tcb t).state = _)
    rcases hm.unblocked t with h | h <;> simp [h]
  noTimeout e he := by
    have he : e ∈ m.timer.eventQueue := he
    rw [hq] at he
    simp at he
  syscallSoftirq := hm.syscallSoftirq

/-- A test for `Undisturbed`: the caller is allocated, its message is not a start, and the thread that
the first argument of the call leads to has no timeout. -/
def undisturbed? (w : Watched) : Event → Bool
  | .svc _ user => decide (user.sp ≠ 0#32)
  | .syscall => w.machine.core.caller.all fun c => w.machine.core.live c &&
    (w.machine.core.tcb c).ctx.regs 0 != 0x00000003#32 &&
    match threadByGlobalid w.machine.core (w.machine.core.tcb c).frame.r0 with
    | .ok (some t) => !decide (Wakes w.machine.timer t)
    | _ => true
  | _ => true

theorem undisturbed_of_test (w : Watched) (e : Event) (h : undisturbed? w e = true) :
    ¬ w.Strays mm e ∧ Undisturbed w e := by
  cases e with
  | svc thr user =>
    exact ⟨fun hs => absurd hs.1 (by simp), (decide_eq_true_eq.mp h : user.sp ≠ 0#32)⟩
  | syscall =>
    have hcall : ∀ c, w.machine.core.caller = some c → (w.machine.core.live c = true ∧
        (w.machine.core.tcb c).ctx.regs 0 ≠ 0x00000003#32) ∧
        ∀ t, threadByGlobalid w.machine.core (w.machine.core.tcb c).frame.r0 = .ok (some t) →
          ¬ Wakes w.machine.timer t := by
      intro c hc
      simp only [undisturbed?, hc, Option.all_some, Bool.and_eq_true, bne_iff_ne] at h
      refine ⟨h.1, fun t ht => ?_⟩
      have h := h.2
      rw [ht] at h
      simpa using h
    refine ⟨fun ⟨_, _, hw, _⟩ => not_frameWord (fun c hc => (hcall c hc).1.2) hw, fun c hc => ?_⟩
    obtain ⟨⟨hlive, _⟩, hfound⟩ := hcall c hc
    exact ⟨fun _ => hlive, fun _ t hr => hfound t hr.2.1, fun _ _ t ht => hfound t ht⟩
  | tick => exact ⟨fun hs => absurd hs.1 (by simp), trivial⟩
  | timer => exact ⟨fun hs => absurd hs.1 (by simp), trivial⟩
  | deliver => exact ⟨fun hs => absurd hs.1 (by simp), trivial⟩

/-- Thread 3 sleeps for 51 ms. Its timeout is the one that the handler would run. -/
theorem timeouts_right_sleep : ∃ w : Watched,
    (handlerCalls (TimerHandler.run []) w.machine.core
      { w.machine.timer with kteSoftirq := false }).map (fun call => call.2) =
        [(0, .ipcTimeout 3)] ∧ TimeoutsRight [] w := by
  have hrun : ∃ w, TSys.runAll (Watched.exec [] 0#32) undisturbed? (Watched.awake sixThreads)
      [sleepTrap 3 0x1B20#32, .syscall] = some w ∧
      (handlerCalls (TimerHandler.run []) w.machine.core
        { w.machine.timer with kteSoftirq := false }).map (fun call => call.2) =
          [(0, .ipcTimeout 3)] := by
    refine ⟨_, rfl, ?_⟩
    decide +kernel
  obtain ⟨w, hrun, hcalls⟩ := hrun
  have hw := TSys.Reachable.runAll Watched.exec_step (@undisturbed_of_test []) _
    (.init (Watched.awake_start sixThreads_start rfl)) hrun
  exact ⟨w, hcalls, timeouts_right hw.wild⟩

/-- Six threads whose pager is thread 4. -/
def pagedThreads : Machine :=
  { sixThreads with
    core := { sixThreads.core with
      utcbs := fun _ => { (default : Utcb) with tPager := tidToGlobalid 257 } } }

theorem pagedThreads_start : pagedThreads.Start where
  unblocked := sixThreads_start.unblocked
  own := sixThreads_start.own
  transfers := rfl
  calls := rfl
  syscallSoftirq := rfl

/-- Thread 3 sleeps, its pager starts it again, and it waits for a message. The timeout of the
sleep is over 131 ticks later: thread 3 becomes runnable and is dispatched without a message. -/
theorem timeout_breaks_wait : ∃ w w' : Watched,
    (Watched.system [] 0#32 Watched.Start).Reachable (fun _ _ => True) w ∧
    (Watched.system [] 0#32 Watched.Start).step w .timer w' ∧
    (w.machine.core.tcb 3).state = .recvBlocked ∧ ¬ TimeoutsRight [] w ∧
    (w'.machine.core.tcb 3).state = .runnable ∧
    w'.machine.core.slots .normalThread = some 3 ∧ w'.machine.core.transfers = [] := by
  have hrun : ((TSys.runAll (Watched.exec [] 0#32) (fun _ _ => true) (Watched.awake pagedThreads)
      ([sleepTrap 3 0x1B20#32, .syscall,
        .svc 4 (ipcUser (tidToGlobalid 256) L4_NILTHREAD 3#32), .syscall,
        ipcTrap 3 L4_NILTHREAD L4_ANYTHREAD, .syscall] ++ List.replicate 131 .tick)).any fun w =>
      (w.exec [] 0#32 .timer).any fun w' =>
        decide ((w.machine.core.tcb 3).state = .recvBlocked ∧
          (handlerCalls (TimerHandler.run []) w.machine.core
            { w.machine.timer with kteSoftirq := false }).any (fun call =>
              decide (call.2.2 = .ipcTimeout 3 ∧ (call.1.tcb 3).state = .recvBlocked)) = true ∧
          (w'.machine.core.tcb 3).state = .runnable ∧
          w'.machine.core.slots .normalThread = some 3 ∧ w'.machine.core.transfers = [])) =
      true := by
    decide +kernel
  obtain ⟨w, hrun, h⟩ := (Option.any_eq_true _ _).mp hrun
  obtain ⟨w', hlast, h⟩ := (Option.any_eq_true _ _).mp h
  obtain ⟨hst, hany, hafter⟩ := of_decide_eq_true h
  refine ⟨w, w', ?_, Watched.exec_step _ _ _ hlast, hst, fun hright => ?_, hafter⟩
  · exact TSys.Reachable.runAll Watched.exec_step (fun _ _ _ => trivial) _
      (.init (Watched.awake_start pagedThreads_start rfl)) hrun
  · obtain ⟨call, hmem, hcall⟩ := List.any_eq_true.mp hany
    obtain ⟨hthr, hrecv⟩ := of_decide_eq_true hcall
    have hinactive := (hright call hmem 3 hthr).2.1
    rw [hrecv] at hinactive
    exact absurd hinactive (by decide)

end F9
