import F9.Logic.Sleep

/-!
# Sleepers

`sys_ipc` makes its caller inactive and then asks for the event that is to wake it, without
looking at the answer. A timeout below one tick, or one whose shift overflows, is 0 ticks, and
the event table may be full: then the thread is never woken. `sleepers_wake` says that these are
the only ways to lose a sleeper.
-/

namespace F9

open Result Ktimer

variable {mm : Memmap} {w : Watched} {e : Event} {m' m : Machine} {kip : Word}

/-- Every thread that sleeps has a queued event that is to wake it. -/
def AllWake (w : Watched) : Prop := ∀ t, w.asleep t ≠ none → Wakes w.machine.timer t

/-- A thread that goes to sleep does so for a tick at least and finds a free event, or an event
of an earlier sleep is still to wake it. -/
def SleepKept (w : Watched) (e : Event) : Prop :=
  ∀ c, putsToSleep w.machine e = some c →
    (sleepTicks (w.machine.core.tcb c).frame.r2 ≠ 0#32 ∧
      w.machine.timer.eventTable.alloc ≠ none) ∨ Wakes w.machine.timer c

/-- Nobody sleeps yet, and the queued events are allocated ones. -/
structure Watched.Fresh (w : Watched) : Prop where
  stored : Stored [] w.machine.timer
  awake : ∀ t, w.asleep t = none

/-! ## Steps -/

/-- While the handler works on `es`: a sleeper has an event, or has been woken. -/
structure Waking (asleep : TcbRef → Option Nat) (es : List KteRef) (s : Core)
    (k : Ktimer TimerHandler) : Prop extends Stored es k where
  wakes : ∀ t, asleep t ≠ none →
    (∃ e ∈ es ++ k.eventQueue, k.handlerOf e = .ipcTimeout t) ∨ (s.tcb t).state = .runnable

theorem Waking.call {asleep : TcbRef → Option Nat} (e : KteRef) (es : List KteRef) (s : Core)
    (k : Ktimer TimerHandler) (r : Word) (s' : Core)
    (hrun : (k.handlerOf e).run mm s = .ok (r, s')) (h : Waking asleep (e :: es) s k) :
    (r ≠ 0#32 → Waking asleep es s' (k.eventSchedule r e).2) ∧
      (r = 0#32 → Waking asleep es s' { k with eventTable := k.eventTable.free e }) := by
  have hmoves := timerHandler_moves hrun
  have hawake : ∀ t, (s.tcb t).state = .runnable → (s'.tcb t).state = .runnable := by
    intro t ht
    rcases hmoves.woken t (by rw [ht]; simp) with heq | heq
    · rw [heq, ht]
    · exact heq
  refine ⟨fun hr => ⟨h.toStored.schedule hr, fun t ht => ?_⟩,
    fun hr => ⟨h.toStored.free, fun t ht => ?_⟩⟩
  · rcases h.wakes t ht with ⟨x, hx, heq⟩ | hst
    · have hperm := (h.toStored.scheduled hr).1
      exact .inl ⟨x, hperm.mem_iff.mpr hx, (handlerOf_eventSchedule k r e x).trans heq⟩
    · exact .inr (hawake t hst)
  · rcases h.wakes t ht with ⟨x, hx, heq⟩ | hst
    · rcases List.mem_cons.mp hx with rfl | hx
      · -- its own event: the callback is the one that wakes it
        rw [heq] at hrun
        have hs' := ok_ok.mp hrun
        simp only [Prod.mk.injEq] at hs'
        rw [← hs'.2]
        right
        rw [(ipcTimeout_effect s t).2.2, if_pos rfl]
      · exact .inl ⟨x, hx, heq⟩
    · exact .inr (hawake t hst)

theorem eventHandler_waking {asleep : TcbRef → Option Nat} {s s' : Core}
    {k k' : Ktimer TimerHandler}
    (hrun : Ktimer.eventHandler (TimerHandler.run mm) s k = .ok (s', k'))
    (h : Waking asleep [] s k) : Waking asleep [] s' k' := by
  refine eventHandler_rule (I := fun es s k => Waking asleep es s k) ?_ Waking.call ?_ hrun h
  · intro es q s k happ hk
    refine ⟨hk.toStored.due happ, fun t ht => ?_⟩
    rcases hk.wakes t ht with ⟨e, he, heq⟩ | hst
    · exact .inl ⟨e, happ.symm ▸ he, heq⟩
    · exact .inr hst
  · intro s k k' hq ht hk
    refine ⟨hk.toStored.congr hq fun e => by rw [ht], fun t hasleep => ?_⟩
    rcases hk.wakes t hasleep with ⟨e, he, heq⟩ | hst
    · rw [List.nil_append, ← hq] at he
      refine .inl ⟨e, he, ?_⟩
      unfold handlerOf
      rw [ht]
      exact heq
    · exact .inr hst

/-- A thread sleeps after a step because the step puts it to sleep or it slept before. -/
theorem Watched.next_asleep {t : TcbRef} (h : (w.next e m').asleep t ≠ none) :
    putsToSleep w.machine e = some t ∨
      (w.asleep t ≠ none ∧ (m'.core.tcb t).state = .inactive) := by
  simp only [Watched.next] at h
  split at h
  · rename_i hput
    exact .inl hput
  · split at h
    · rename_i hst
      exact .inr ⟨h, hst.2⟩
    · exact absurd rfl h

/-- Steps that leave the queue alone and put nobody to sleep. -/
theorem AllWake.quiet (h : AllWake w) (hput : putsToSleep w.machine e = none)
    (hq : m'.timer.eventQueue = w.machine.timer.eventQueue)
    (ht : m'.timer.eventTable = w.machine.timer.eventTable) : AllWake (w.next e m') := by
  intro t hasleep
  rcases Watched.next_asleep hasleep with hput' | ⟨hasleep, _⟩
  · rw [hput] at hput'
    simp at hput'
  · obtain ⟨x, hx, heq⟩ := h t hasleep
    refine ⟨x, ?_, ?_⟩
    · show x ∈ m'.timer.eventQueue
      rw [hq]
      exact hx
    · show (m'.timer.eventTable.data x).handler = _
      rw [ht]
      exact heq

/-- A step keeps the events stored, and the sleepers their events if it is `SleepKept`. -/
theorem Machine.Step.waking (hstep : Machine.Step mm kip w.machine e m')
    (hstored : Stored [] w.machine.timer) (hwake : AllWake w) :
    Stored [] m'.timer ∧ (SleepKept w e → AllWake (w.next e m')) := by
  cases hstep with
  | svc _ _ _ => exact ⟨hstored, fun _ => hwake.quiet rfl rfl rfl⟩
  | deliver _ => exact ⟨hstored, fun _ => hwake.quiet rfl rfl rfl⟩
  | tick =>
    obtain ⟨hq, ht⟩ := tick_queue w.machine.timer
    exact ⟨hstored.congr hq fun e => by rw [ht], fun _ => hwake.quiet rfl hq ht⟩
  | @timer core timer _ hrun =>
    have h0 : Waking w.asleep [] w.machine.core { w.machine.timer with kteSoftirq := false } :=
      ⟨hstored.congr rfl fun _ => rfl, fun t ht => .inl (hwake t ht)⟩
    have h1 := eventHandler_waking hrun h0
    refine ⟨h1.toStored, fun _ t ht => ?_⟩
    rcases Watched.next_asleep ht with hput | ⟨hasleep, hst⟩
    · simp [putsToSleep] at hput
    · refine (h1.wakes t hasleep).resolve_right fun hrun => ?_
      rw [hrun] at hst
      exact absurd hst (by decide)
  | @syscall m1 _ h =>
    rcases syscallHandler_timer h with ⟨c, hput, htimer⟩ | ⟨hput, htimer⟩
    · obtain ⟨hst, _, _, hnew⟩ :=
        hstored.create (sleepTicks (w.machine.core.tcb c).frame.r2) (.ipcTimeout c)
      rw [← htimer] at hst
      refine ⟨hst, fun hkept t ht => ?_⟩
      show Wakes m1.timer t
      rw [htimer]
      rcases Watched.next_asleep ht with hput' | ⟨hasleep, _⟩
      · obtain rfl : c = t := by simpa using hput.symm.trans hput'
        rcases hkept c hput with ⟨hticks, hroom⟩ | hold
        · obtain ⟨⟨x, table⟩, halloc⟩ := Option.ne_none_iff_exists'.mp hroom
          obtain ⟨_, hx, hperm⟩ := hnew hticks x table halloc
          exact ⟨x, hperm.mem_iff.mpr List.mem_cons_self, hx⟩
        · exact hold.create hstored _ _
      · exact (hwake t hasleep).create hstored _ _
    · exact ⟨hstored.congr (by rw [htimer]) fun e => by rw [htimer],
        fun _ => hwake.quiet hput (by rw [htimer]) (by rw [htimer])⟩

/-- A thread that goes to sleep for 0 ticks, or finds no event, has none. -/
theorem SleepKept.of_allWake (hstep : Machine.Step mm kip w.machine e m')
    (hstored : Stored [] w.machine.timer) (hwake : AllWake (w.next e m')) : SleepKept w e := by
  intro c hput
  have hw : Wakes m'.timer c := by
    refine hwake c ?_
    simp only [Watched.next]
    rw [if_pos hput]
    simp
  by_contra hkept
  rw [not_or, not_and_or, not_not, not_not] at hkept
  cases hstep with
  | @syscall m1 _ h =>
    rcases syscallHandler_timer h with ⟨c', hput', htimer⟩ | ⟨hput', _⟩
    · obtain rfl : c = c' := by simpa using hput.symm.trans hput'
      obtain ⟨_, hhandlers, hsame, _⟩ :=
        hstored.create (sleepTicks (w.machine.core.tcb c).frame.r2) (.ipcTimeout c)
      obtain ⟨x, hx, heq⟩ := hw
      replace hx : x ∈ m1.timer.eventQueue := hx
      replace heq : m1.timer.handlerOf x = .ipcTimeout c := heq
      rw [htimer, hsame hkept.1] at hx
      rw [htimer, hhandlers x hx] at heq
      exact hkept.2 ⟨x, hx, heq⟩
    · exact absurd (hput.symm.trans hput') (by simp)
  | svc _ _ _ => simp [putsToSleep] at hput
  | tick => simp [putsToSleep] at hput
  | timer _ _ => simp [putsToSleep] at hput
  | deliver _ => simp [putsToSleep] at hput

/-! ## Runs -/

/-- In every state of a run in which threads go to sleep for a tick at least and with a free
event, every sleeper has its event; and a next step keeps this if and only if it goes on so. -/
theorem sleepers_wake {mm : Memmap} {kip : Word} {w w' : Watched} {e : Event}
    (h : (Watched.system mm kip Watched.Fresh).Reachable SleepKept w)
    (hstep : (Watched.system mm kip Watched.Fresh).step w e w') :
    AllWake w ∧ (AllWake w' ↔ SleepKept w e) := by
  have hinv : Stored [] w.machine.timer ∧ AllWake w := by
    refine TSys.Reachable.invariant (I := fun w => Stored [] w.machine.timer ∧ AllWake w) ?_ ?_ h
    · exact fun w hw => ⟨hw.stored, fun t ht => absurd (hw.awake t) ht⟩
    · rintro w e w' ⟨hst, hwake⟩ hkept ⟨m', hm', rfl⟩
      obtain ⟨hst', hwake'⟩ := hm'.waking hst hwake
      exact ⟨hst', hwake' hkept⟩
  obtain ⟨m', hm', rfl⟩ := hstep
  exact ⟨hinv.2, fun hwake => SleepKept.of_allWake hm' hinv.1 hwake,
    (hm'.waking hinv.1 hinv.2).2⟩

/-! ## Two sleeps -/

/-- A machine in which no thread has slept yet. -/
def Watched.awake (m : Machine) : Watched where
  machine := m
  asleep := fun _ => none
  born := fun _ => 0
  sleeps := 0

theorem Watched.awake_fresh {m : Machine} (hq : m.timer.eventQueue = []) :
    (Watched.awake m).Fresh where
  stored := by
    have hq' : (Watched.awake m).machine.timer.eventQueue = [] := hq
    exact ⟨by rw [hq']; exact List.nodup_nil, fun e he => absurd he (by simp [hq'])⟩
  awake := fun _ => rfl

/-- The trap of a thread that sleeps. -/
def sleepTrap (thr : TcbRef) (timeout : Word) : Event :=
  .svc thr { ipcUser L4_NILTHREAD L4_NILTHREAD 0#32 with
    frame := { (default : Frame) with r2 := timeout } }

def sleepKept? (w : Watched) (e : Event) : Bool :=
  match putsToSleep w.machine e with
  | none => true
  | some c => decide (sleepTicks (w.machine.core.tcb c).frame.r2 ≠ 0#32) &&
      w.machine.timer.eventTable.alloc.isSome

theorem sleepKept_of_test (w : Watched) (e : Event) (h : sleepKept? w e = true) :
    SleepKept w e := by
  intro c hc
  unfold sleepKept? at h
  rw [hc] at h
  rw [Bool.and_eq_true, decide_eq_true_eq, Option.isSome_iff_ne_none] at h
  exact .inl h

/-- Thread 3 sleeps for 51 ms, and then thread 4 for 300 µs, which is less than a tick. -/
theorem sleepers_wake_short : ∃ w w' : Watched, w.asleep 3 = some 0 ∧
    w'.asleep 4 = some 1 ∧ AllWake w ∧ (AllWake w' ↔ SleepKept w .syscall) := by
  have hrun : ∃ w w', TSys.runAll (Watched.exec [] 0#32) sleepKept? (Watched.awake sixThreads)
      [sleepTrap 3 0x1B20#32, .syscall, sleepTrap 4 300#32] = some w ∧
      w.exec [] 0#32 .syscall = some w' ∧ w.asleep 3 = some 0 ∧ w'.asleep 4 = some 1 := by
    refine ⟨_, _, rfl, rfl, ?_⟩
    decide +kernel
  obtain ⟨w, w', hrun, hlast, h3, h4⟩ := hrun
  have hw := TSys.Reachable.runAll Watched.exec_step sleepKept_of_test _
    (.init (Watched.awake_fresh rfl)) hrun
  exact ⟨w, w', h3, h4, sleepers_wake hw (Watched.exec_step _ _ _ hlast)⟩

/-- Thread 3 asks for a sleep of 300 µs: it sleeps, and no event will ever wake it. -/
theorem sleeper_lost : ∃ w : Watched,
    (Watched.system [] 0#32 Watched.Fresh).Reachable
      (fun w e => NotThreadControl w.machine e) w ∧
    w.asleep 3 = some 0 ∧ (w.machine.core.tcb 3).state = .inactive ∧
    ¬ Wakes w.machine.timer 3 := by
  have hrun : ∃ w, TSys.runAll (Watched.exec [] 0#32) (fun w e => notThreadControl? w.machine e)
      (Watched.awake sixThreads) [sleepTrap 3 300#32, .syscall] = some w ∧
      w.asleep 3 = some 0 ∧ (w.machine.core.tcb 3).state = .inactive ∧
      ¬ Wakes w.machine.timer 3 := by
    refine ⟨_, rfl, ?_⟩
    decide +kernel
  obtain ⟨w, hrun, h⟩ := hrun
  have hw := TSys.Reachable.runAll Watched.exec_step
    (fun w e hok => notThreadControl_of_test hok) _ (.init (Watched.awake_fresh rfl)) hrun
  exact ⟨w, hw, h⟩

end F9
