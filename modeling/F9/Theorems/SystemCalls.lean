import F9.Logic.Effects

/-!
# The end of a system call

`__svc_handler` leaves the caller in `T_SVC_BLOCKED`, and the exits of the system calls
have to take it out. One does not: the exit of `do_ipc` for a message that is too long.
-/

namespace F9

open Result

variable {s s' : Core} {t c f : TcbRef} {mm : Memmap} {kip : Word}

/-- The end of `do_ipc`: the sender runs, or waits for its answer. -/
theorem completeIpc_sender (h : completeIpc s f t = .ok s') :
    (s'.tcb f).state = .runnable ∨ (s'.tcb f).state = .recvBlocked := by
  obtain ⟨_, _, _, hstate, _⟩ := completeIpc_effect h
  rw [hstate, if_pos rfl]
  unfold Core.sentState
  split
  · exact .inl rfl
  · exact .inr rfl

theorem doIpc_caller (h : doIpc mm s c t = .ok s') (hc : s.caller = some c) :
    (Overflows s c ∧ (s'.tcb c).state = (s.tcb c).state) ∨
      (¬ Overflows s c ∧ (s'.tcb c).state ≠ .svcBlocked) := by
  rcases doIpc_cases h with ⟨hover, hcop⟩ | ⟨hover, s1, hcop, ⟨_, c', hc', rfl⟩ | ⟨_, h⟩⟩
  · exact .inl ⟨hover, hcop.state c⟩
  · rw [hc] at hc'
    injection hc' with hc'
    right
    refine ⟨hover, ?_⟩
    rw [Core.tcb_setTcb, if_pos hc']
    simp
  · right
    refine ⟨hover, ?_⟩
    rcases completeIpc_sender h with hst | hst
    · rw [hst]
      simp
    · rw [hst]
      simp

/-- An inactive thread whose pager is the caller. -/
def Inactive (s : Core) (c : TcbRef) (id : Word) : Prop :=
  ∃ t, threadByGlobalid s id = .ok (some t) ∧ inactiveOfPager s c (some t) = .ok true

/-- A message of more than 16 words to a thread that takes it at once: one that waits, the
caller itself or an inactive thread of the caller. -/
def TooLong (s : Core) (c : TcbRef) : Prop :=
  (s.tcb c).frame.r0 ≠ L4_NILTHREAD ∧ (s.tcb c).frame.r0 ≠ tidToGlobalid THREAD_LOG ∧
    Overflows s c ∧ (Waits s (s.tcb c).frame.r0 ∨ (s.tcb c).frame.r0 = (s.tcb c).tGlobalid ∨
      Inactive s c (s.tcb c).frame.r0)

/-- Tag 3 of the thread start protocol is that of a short message. -/
theorem not_overflows_start (h : (s.tcb c).ctx.regs 0 = 0x00000003#32) : ¬ Overflows s c := by
  unfold Overflows
  rw [h]
  decide

theorem startThread_caller (h : startThread kip s c t = .ok s') : (s'.tcb c).state = .runnable := by
  obtain ⟨sp, size, pc, rfl⟩ := startThread_ok h
  generalize threadInitCtx kip _ sp pc t = s1
  rw [Core.tcb_setTcb]
  split
  · rfl
  · rw [Core.tcb_setTcb, if_pos rfl]

/-- The send phase leaves the caller as it was if the message is too long, and not in
`T_SVC_BLOCKED` otherwise. -/
theorem sysIpcSend_caller (h : sysIpcSend mm kip s c (s.tcb c).frame.r0 = .ok s')
    (hc : s.caller = some c) (hnil : (s.tcb c).frame.r0 ≠ L4_NILTHREAD) :
    (s'.tcb c).state = .svcBlocked ↔ (s.tcb c).state = .svcBlocked ∧ TooLong s c := by
  -- the outcomes of `do_ipc` for a thread that takes the message
  have hdo : ∀ t s1, doIpc mm s c t = .ok s1 → (s.tcb c).frame.r0 ≠ tidToGlobalid THREAD_LOG →
      (Waits s (s.tcb c).frame.r0 ∨ (s.tcb c).frame.r0 = (s.tcb c).tGlobalid ∨
        Inactive s c (s.tcb c).frame.r0) →
      ((s1.tcb c).state = .svcBlocked ↔ (s.tcb c).state = .svcBlocked ∧ TooLong s c) := by
    intro t s1 h1 hlog htakes
    rcases doIpc_caller h1 hc with ⟨hover, hst⟩ | ⟨hover, hst⟩
    · rw [hst]
      exact ⟨fun h => ⟨h, hnil, hlog, hover, htakes⟩, fun h => h.1⟩
    · exact ⟨fun h => absurd h hst, fun h => absurd h.2.2.2.1 hover⟩
  obtain ⟨p, hlook, hcase⟩ := sysIpcSend_cases h
  rcases hcase with ⟨hlog, rfl⟩ | ⟨hlog, ⟨t, rfl, htakes, h1⟩ | ⟨hwait, hself, hcase⟩⟩
  · rw [Core.tcb_setTcb, if_pos rfl]
    exact ⟨fun h => absurd h (by simp), fun h => absurd hlog h.2.2.1⟩
  · refine hdo t s' h1 hlog ?_
    rcases htakes with hrecv | hself
    · exact .inl ⟨t, hlook, hrecv⟩
    · exact .inr (.inl hself)
  · rcases hcase with ⟨t, rfl, hin, hstart | ⟨_, s1, h1, rfl⟩⟩ | ⟨hin, u, _, rfl⟩
    · rw [startThread_caller hstart.2]
      exact ⟨fun h => absurd h (by simp), fun h => absurd h.2.2.2.1 (not_overflows_start hstart.1)⟩
    · by_cases htc : c = t
      · -- an inactive caller
        rw [Core.tcb_setTcb, if_pos htc]
        have hst := inactiveOfPager_true hin
        rw [← htc] at hst
        rw [hst]
        exact ⟨fun h => absurd h (by simp), fun h => absurd h.1 (by simp)⟩
      · rw [Core.tcb_setTcb, if_neg htc]
        exact hdo t s1 h1 hlog (.inr (.inr ⟨t, hlook, hin⟩))
    · have hst : (((s.setTcb c fun tcb => { tcb with state := .sendBlocked }).setUtcb u fun utcb =>
          { utcb with intendedReceiver := (s.tcb c).frame.r0 }).tcb c).state = .sendBlocked := by
        rw [Core.tcb_setUtcb, Core.tcb_setTcb, if_pos rfl]
      rw [hst]
      refine ⟨fun h => absurd h (by simp), fun h => ?_⟩
      rcases h.2.2.2.2 with ⟨t, ht, hrecv⟩ | h | ⟨t, ht, hin'⟩
      · rw [hlook] at ht
        injection ht with ht
        rw [waitsInRecv_iff.mpr ⟨t, ht, hrecv⟩] at hwait
        simp at hwait
      · exact absurd h hself
      · rw [hlook] at ht
        injection ht with ht
        rw [ht, hin'] at hin
        simp at hin

theorem tooLong_calls (s : Core) (calls : List (TcbRef × Word)) (c : TcbRef) :
    TooLong { s with calls := calls } c ↔ TooLong s c := by
  have hlook : ∀ id, threadByGlobalid { s with calls := calls } id = threadByGlobalid s id :=
    threadByGlobalid_congr rfl (fun _ => rfl) rfl
  unfold TooLong Waits Inactive
  simp only [hlook]
  exact Iff.rfl

theorem sysIpc_caller {m m' : Machine} (h : sysIpc mm kip m c = .ok m')
    (hc : m.core.caller = some c) :
    (m'.core.tcb c).state = .svcBlocked ↔
      (m.core.tcb c).state = .svcBlocked ∧ TooLong m.core c := by
  -- the calls that do not send set the state of the caller
  have hset : ∀ (s : Core) (st : ThreadState) (f : Tcb → Tcb), (f (s.tcb c)).state = st →
      st ≠ .svcBlocked → (m.core.tcb c).frame.r0 = L4_NILTHREAD →
      (((s.setTcb c f).tcb c).state = .svcBlocked ↔
        (m.core.tcb c).state = .svcBlocked ∧ TooLong m.core c) := by
    intro s st f hf hst hnil
    rw [Core.tcb_setTcb, if_pos rfl, hf]
    exact ⟨fun h => absurd h hst, fun h => absurd hnil h.2.1⟩
  obtain ⟨s, rfl, ⟨hr0, _, rfl⟩ | ⟨hnil, s1, h1, rfl⟩ | ⟨hnil, _, ⟨_, rfl⟩ | ⟨_, rfl⟩⟩⟩ :=
    sysIpc_ways h
  · exact hset _ _ _ rfl (by simp) hr0
  · have hsend := sysIpcSend_caller h1 hc hnil
    rw [tooLong_calls] at hsend
    exact hsend
  · exact hset _ _ _ rfl (by simp) hnil
  · exact hset _ _ _ rfl (by simp) hnil

/-- When a system call returns, the caller is not left in `T_SVC_BLOCKED`, unless it was there
and has called `sys_ipc` with a message that is too long for a thread that takes it. -/
theorem system_call_ends {mm : Memmap} {kip : Word} {m m' : Machine} {c : TcbRef}
    (hc : m.core.caller = some c) (h : syscallHandler mm kip m = .ok m') :
    (m'.core.tcb c).state ≠ .svcBlocked ↔ ¬ ((m.core.tcb c).state = .svcBlocked ∧
      svcNum m.core c = SYS_IPC ∧ TooLong m.core c) := by
  obtain ⟨c', hc', h⟩ := syscallHandler_cases h
  obtain rfl := Option.some.inj (hc.symm.trans hc')
  rw [not_iff_not]
  rcases h with ⟨hnum, s1, _, rfl⟩ | ⟨hnum, h⟩ | ⟨_, hnum, rfl⟩
  · show ((s1.setTcb c _).tcb c).state = _ ↔ _
    rw [Core.tcb_setTcb, if_pos rfl]
    refine ⟨fun h => absurd h (by simp), fun h => ?_⟩
    rw [h.2.1] at hnum
    exact absurd hnum (by decide)
  · rw [sysIpc_caller h hc]
    exact ⟨fun h => ⟨h.1, hnum, h.2⟩, fun h => ⟨h.1, h.2.2⟩⟩
  · show ((m.core.setTcb c _).tcb c).state = _ ↔ _
    rw [Core.tcb_setTcb, if_pos rfl]
    exact ⟨fun h => absurd h (by simp), fun h => absurd h.2.1 hnum⟩

/-- Thread 257 sends a message of 17 words to 256, which does not wait. -/
theorem system_call_ends_blocked :
    let m := svcHandler sixThreads 4 (ipcUser (tidToGlobalid 256) L4_NILTHREAD 16#32)
    ∃ m' : Machine, syscallHandler [] 0#32 m = .ok m' ∧
      ((m'.core.tcb 4).state ≠ .svcBlocked ↔ ¬ ((m.core.tcb 4).state = .svcBlocked ∧
        svcNum m.core 4 = SYS_IPC ∧ TooLong m.core 4)) := by
  intro m
  have hok : okWith (fun _ => true) (syscallHandler [] 0#32 m) = true := by decide +kernel
  obtain ⟨m', h, _⟩ := okWith_iff.mp hok
  exact ⟨m', h, system_call_ends rfl h⟩

/-- Thread 256 waits, and 257 sends a message of 17 words to it. -/
theorem system_call_stuck : ∃ m m' : Machine,
    (Machine.system [] 0#32 Machine.Start).Reachable (fun _ _ => True) m ∧
      m.core.caller = some 4 ∧ syscallHandler [] 0#32 m = .ok m' ∧
      (m'.core.tcb 4).state = .svcBlocked := by
  obtain ⟨m, hm, h⟩ := exists_sixRun sixThreads_start
    [ipcTrap 3 L4_NILTHREAD L4_ANYTHREAD, .syscall,
      .svc 4 (ipcUser (tidToGlobalid 256) L4_NILTHREAD 16#32)] (fun m =>
      decide (m.core.caller = some 4) && okWith (fun m' : Machine =>
        decide ((m'.core.tcb 4).state = .svcBlocked)) (syscallHandler [] 0#32 m)) (by decide +kernel)
  rw [Bool.and_eq_true] at h
  obtain ⟨m', hm', hst⟩ := okWith_iff.mp h.2
  exact ⟨m, m', hm, of_decide_eq_true h.1, hm', of_decide_eq_true hst⟩

end F9
