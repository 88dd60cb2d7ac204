import F9.Logic.IpcRuns

/-!
# What IPC does to threads

IPC, the timer and traps change what threads do, not which threads there are
(`SameThreads`). The states and the scheduler slots after `do_ipc` follow from which of its
three ends it took (`IpcOutcome`); the calls of `sys_ipc` that are not a send are in
`sysIpc_outcome`.
-/

namespace F9

open Result

variable {t f : TcbRef} {mm : Memmap} {kip : Word}

/-! ## What stays -/

/-- What a thread is, without what it does: its ids, its space, its UTCB and its links. -/
def Tcb.static (t : Tcb) : Tcb :=
  { (default : Tcb) with
    tGlobalid := t.tGlobalid
    tLocalid := t.tLocalid
    as := t.as
    utcb := t.utcb
    tSibling := t.tSibling
    tParent := t.tParent
    tChild := t.tChild }

/-- The threads are the same, and so is the thread map. -/
structure SameThreads (s s' : Core) : Prop where
  static : ∀ t, (s'.tcb t).static = (s.tcb t).static
  num : s'.threadTable.num = s.threadTable.num
  bitmap : s'.threadTable.bitmap = s.threadTable.bitmap
  threadMap : s'.threadMap = s.threadMap
  threadCount : s'.threadCount = s.threadCount
  code : s'.code = s.code

namespace SameThreads

variable {s s' s'' : Core}

theorem refl (s : Core) : SameThreads s s := ⟨fun _ => rfl, rfl, rfl, rfl, rfl, rfl⟩

theorem trans (h1 : SameThreads s s') (h2 : SameThreads s' s'') : SameThreads s s'' :=
  ⟨fun t => (h2.static t).trans (h1.static t), h2.num.trans h1.num, h2.bitmap.trans h1.bitmap,
    h2.threadMap.trans h1.threadMap, h2.threadCount.trans h1.threadCount, h2.code.trans h1.code⟩

section

variable (h : SameThreads s s')
include h

theorem live (t : TcbRef) : s'.live t = s.live t := by
  unfold Core.live KTable.live
  rw [h.num, h.bitmap]

theorem tGlobalid (t : TcbRef) : (s'.tcb t).tGlobalid = (s.tcb t).tGlobalid :=
  (congrArg Tcb.tGlobalid (h.static t) :)

theorem number (t : TcbRef) : s'.number t = s.number t := by
  unfold Core.number
  rw [h.tGlobalid]

theorem as (t : TcbRef) : (s'.tcb t).as = (s.tcb t).as :=
  (congrArg Tcb.as (h.static t) :)

theorem utcb (t : TcbRef) : (s'.tcb t).utcb = (s.tcb t).utcb :=
  (congrArg Tcb.utcb (h.static t) :)

theorem tSibling (t : TcbRef) : (s'.tcb t).tSibling = (s.tcb t).tSibling :=
  (congrArg Tcb.tSibling (h.static t) :)

theorem tParent (t : TcbRef) : (s'.tcb t).tParent = (s.tcb t).tParent :=
  (congrArg Tcb.tParent (h.static t) :)

theorem tChild (t : TcbRef) : (s'.tcb t).tChild = (s.tcb t).tChild :=
  (congrArg Tcb.tChild (h.static t) :)

theorem ownUtcbs (hown : OwnUtcbs s) : OwnUtcbs s' :=
  hown.congr (fun t ht => (h.live t).symm.trans ht) h.utcb

theorem lookup (id : Word) : threadByGlobalid s' id = threadByGlobalid s id :=
  threadByGlobalid_congr h.threadMap h.number h.threadCount id

end

end SameThreads

variable {s : Core}

theorem setTcb_same {f : Tcb → Tcb} (h : (f (s.tcb t)).static = (s.tcb t).static) :
    SameThreads s (s.setTcb t f) :=
  ⟨Core.setTcb_field Tcb.static h, rfl, rfl, rfl, rfl, rfl⟩

theorem setUtcb_same (s : Core) (u : Word) (f : Utcb → Utcb) : SameThreads s (s.setUtcb u f) :=
  ⟨fun _ => rfl, rfl, rfl, rfl, rfl, rfl⟩

variable {s' : Core}

theorem Copied.same (h : Copied s s') : SameThreads s s' := by
  refine ⟨fun t => ?_, h.num, h.bitmap, h.threadMap, h.threadCount, h.code⟩
  have hs : ∀ t : Tcb, t.static = t.control.static := fun _ => rfl
  rw [hs, h.tcb, ← hs]

/-! ## `do_ipc` -/

/-- The state of a sender after its message has been transferred. -/
def Core.sentState (s : Core) (f : TcbRef) : ThreadState :=
  if (s.tcb f).frame.r1 = L4_NILTHREAD then .runnable else .recvBlocked

/-- The three ends of `do_ipc`. -/
inductive IpcOutcome (s s' : Core) (f t : TcbRef) : Prop
  /-- the message is too long -/
  | overflow : (∀ x, (s'.tcb x).state = (s.tcb x).state) → s'.slots = s.slots →
      IpcOutcome s s' f t
  /-- one of the threads has no stack -/
  | noStack (c : TcbRef) : (s.tcb t).ctx.sp = 0#32 ∨ (s.tcb f).ctx.sp = 0#32 →
      s.caller = some c →
      (∀ x, (s'.tcb x).state = if x = c then .runnable else (s.tcb x).state) →
      s'.slots = s.slots → IpcOutcome s s' f t
  | complete : (s.tcb t).ctx.sp ≠ 0#32 → (s.tcb f).ctx.sp ≠ 0#32 →
      (∀ x, (s'.tcb x).state =
        if x = f then s.sentState f else if x = t then .runnable else (s.tcb x).state) →
      s'.slots = ((s.schedSlotDispatch .normalThread f).schedSlotDispatch .ipcThread t).slots →
      IpcOutcome s s' f t

theorem completeIpc_effect (h : completeIpc s f t = .ok s') :
    SameThreads s s' ∧ s'.caller = s.caller ∧
    (∀ x, (s'.tcb x).ctx = (s.tcb x).ctx) ∧
    (∀ x, (s'.tcb x).state =
      if x = f then s.sentState f else if x = t then .runnable else (s.tcb x).state) ∧
    s'.slots = ((s.schedSlotDispatch .normalThread f).schedSlotDispatch .ipcThread t).slots := by
  obtain ⟨u, _, h⟩ := bind_ok.mp h
  have h := (pure_ok.mp h).symm
  generalize hs2 : (s.setUtcb u _).setTcb t _ = s2 at h
  have h2 : ∀ x, s2.tcb x = if x = t then { s.tcb t with
      state := .runnable
      ipcFrom := L4_NILTHREAD
      frame := { (s.tcb t).frame with r0 := (s.tcb f).tGlobalid } } else s.tcb x := by
    intro x
    rw [← hs2, Core.tcb_setTcb]
    rfl
  have hsame2 : SameThreads s s2 := by
    rw [← hs2]
    exact (setUtcb_same s u _).trans (setTcb_same rfl)
  have hr1 : (s2.tcb f).frame.r1 = (s.tcb f).frame.r1 := by
    rw [h2]
    split
    · rename_i hft
      rw [hft]
    · rfl
  rw [hr1] at h
  generalize hs3 : s2.setTcb f _ = s3 at h
  have h3 : ∀ x, s3.tcb x = if x = f then
      (if (s.tcb f).frame.r1 = L4_NILTHREAD then { s2.tcb f with state := .runnable }
        else { s2.tcb f with state := .recvBlocked, ipcFrom := (s.tcb f).frame.r1 })
      else s2.tcb x := by
    intro x
    rw [← hs3, Core.tcb_setTcb]
  have hsame3 : SameThreads s2 s3 := by
    rw [← hs3]
    refine setTcb_same ?_
    split <;> rfl
  have htcb : ∀ x, s'.tcb x = s3.tcb x := fun x => by
    rw [h]
    rfl
  have hslots : s3.slots = s.slots ∧ s3.caller = s.caller := by
    rw [← hs3, ← hs2]
    exact ⟨rfl, rfl⟩
  refine ⟨?_, by rw [h]; exact hslots.2, fun x => ?_, fun x => ?_, ?_⟩
  · refine (hsame2.trans hsame3).trans ?_
    rw [h]
    exact ⟨fun _ => rfl, rfl, rfl, rfl, rfl, rfl⟩
  · have hctx2 : ∀ x, (s2.tcb x).ctx = (s.tcb x).ctx := by
      intro x
      rw [h2]
      split
      · rename_i hx
        rw [hx]
      · rfl
    rw [htcb, h3]
    split
    · rename_i hx
      rw [hx, ← hctx2]
      split <;> rfl
    · exact hctx2 x
  · rw [htcb, h3]
    split
    · unfold Core.sentState
      split <;> rfl
    · rw [h2]
      split <;> rfl
  · rw [h]
    show (fun i => if i = SchedSlot.ipcThread then some t
      else if i = .normalThread then some f else s3.slots i) = _
    rw [hslots.1]
    rfl

/-- What `do_ipc` changes, and what it does not. -/
theorem doIpc_effect {s s' : Core} (h : doIpc mm s f t = .ok s') :
    SameThreads s s' ∧ s'.caller = s.caller ∧ (∀ x, (s'.tcb x).ctx.sp = (s.tcb x).ctx.sp) ∧
      IpcOutcome s s' f t := by
  rcases doIpc_cases h with ⟨_, hc⟩ | ⟨_, s1, hc, ⟨hsp, c, hcaller, rfl⟩ | ⟨hsp, h⟩⟩
  · exact ⟨hc.same, hc.caller, hc.sp, .overflow hc.state hc.slots⟩
  · refine ⟨hc.same.trans (setTcb_same rfl), hc.caller, fun x => ?_, .noStack c hsp hcaller ?_ hc.slots⟩
    · rw [Core.tcb_setTcb]
      split
      · rename_i hx
        rw [hx]
        exact hc.sp c
      · exact hc.sp x
    · intro x
      rw [Core.tcb_setTcb, ← hc.state x]
      split <;> rfl
  · rw [not_or] at hsp
    obtain ⟨hsame, hcaller, hctx, hstate, hslots⟩ := completeIpc_effect h
    refine ⟨hc.same.trans hsame, hcaller.trans hc.caller, fun x => ?_,
      .complete hsp.1 hsp.2 (fun x => ?_) ?_⟩
    · rw [hctx]
      exact hc.sp x
    · have hsent : s1.sentState f = s.sentState f := by
        unfold Core.sentState
        rw [hc.frame]
      rw [hstate, hsent, hc.state]
    · rw [hslots]
      show (fun i => if i = SchedSlot.ipcThread then some t
        else if i = .normalThread then some f else s1.slots i) = _
      rw [hc.slots]
      rfl

/-- A thread is inactive after `do_ipc` if and only if it was so before, unless it takes part or
called. -/
theorem IpcOutcome.state_eq {x : TcbRef} (h : IpcOutcome s s' f t) (hf : x ≠ f) (ht : x ≠ t)
    (hc : s.caller ≠ some x) : (s'.tcb x).state = (s.tcb x).state := by
  cases h with
  | overflow hst _ => exact hst x
  | noStack c _ hcaller hst _ =>
    rw [hst, if_neg]
    rintro rfl
    exact hc hcaller
  | complete _ _ hst _ => rw [hst, if_neg hf, if_neg ht]

/-! ## Threads and their states -/

theorem ipcTimeout_effect (s : Core) (t : TcbRef) :
    SameThreads s (ipcTimeout s t) ∧
    (∀ x, ((ipcTimeout s t).tcb x).ctx = (s.tcb x).ctx) ∧
    ∀ x, ((ipcTimeout s t).tcb x).state = if x = t then .runnable else (s.tcb x).state := by
  have htcb : ∀ x, (ipcTimeout s t).tcb x =
      if x = t then { s.tcb t with state := .runnable } else s.tcb x := by
    intro x
    show (s.setTcb t fun tcb => { tcb with state := .runnable }).tcb x = _
    rw [Core.tcb_setTcb]
  refine ⟨?_, fun x => ?_, fun x => ?_⟩
  · exact (setTcb_same rfl : SameThreads s (s.setTcb t fun tcb =>
      { tcb with state := .runnable })).trans ⟨fun _ => rfl, rfl, rfl, rfl, rfl, rfl⟩
  · rw [htcb]
    split
    · rename_i hx
      rw [hx]
    · rfl
  · rw [htcb]
    split <;> rfl

variable {c : TcbRef}

theorem startThread_effect (h : startThread kip s c t = .ok s') :
    SameThreads s s' ∧ s'.caller = s.caller ∧ s'.slots = s.slots ∧
    (∀ x, x ≠ t → (s'.tcb x).ctx = (s.tcb x).ctx) ∧
    ∀ x, (s'.tcb x).state = if x = t ∨ x = c then .runnable else (s.tcb x).state := by
  obtain ⟨sp, size, pc, rfl⟩ := startThread_ok h
  unfold threadInitCtx
  generalize hs1 : s.setTcb t _ = s1
  have h1 : SameThreads s s1 := by
    rw [← hs1]
    exact setTcb_same rfl
  have hc1 : s1.caller = s.caller ∧ s1.slots = s.slots := by
    rw [← hs1]
    exact ⟨rfl, rfl⟩
  have hne : ∀ x, x ≠ t → s1.tcb x = s.tcb x := fun x hx => by
    rw [← hs1, Core.tcb_setTcb, if_neg hx]
  refine ⟨((h1.trans (setTcb_same rfl)).trans (setTcb_same rfl)).trans (setTcb_same rfl),
    hc1.1, hc1.2, fun x hx => ?_, fun x => ?_⟩
  · rw [Core.tcb_setTcb, if_neg hx, Core.tcb_setTcb]
    split
    · rename_i hxc
      rw [Core.tcb_setTcb, if_neg (hxc ▸ hx), hxc, hne c (hxc ▸ hx)]
    · rw [Core.tcb_setTcb, if_neg hx, hne x hx]
  · rw [Core.tcb_setTcb]
    by_cases hx : x = t
    · rw [if_pos hx, if_pos (.inl hx)]
    · rw [if_neg hx, Core.tcb_setTcb]
      by_cases hxc : x = c
      · rw [if_pos hxc, if_pos (.inr hxc)]
      · rw [if_neg hxc, if_neg (not_or.mpr ⟨hx, hxc⟩), Core.tcb_setTcb, if_neg hx, hne x hx]

theorem svcHandler_effect (m : Machine) (thr : TcbRef) (user : UserState) :
    SameThreads m.core (svcHandler m thr user).core ∧
    (svcHandler m thr user).core.caller = some thr ∧
    (svcHandler m thr user).core.slots = m.core.slots ∧
    ∀ x, (svcHandler m thr user).core.tcb x = if x = thr then
      { m.core.tcb thr with
        ctx := { (m.core.tcb thr).ctx with sp := user.sp, regs := user.regs }
        frame := user.frame
        state := .svcBlocked } else m.core.tcb x := by
  unfold svcHandler
  dsimp only
  generalize hs1 : m.core.setTcb thr _ = s1
  have h1 : SameThreads m.core s1 := by
    rw [← hs1]
    exact setTcb_same rfl
  have htcb : ∀ x, s1.tcb x = if x = thr then
      { m.core.tcb thr with
        ctx := { (m.core.tcb thr).ctx with sp := user.sp, regs := user.regs }
        frame := user.frame
        state := .svcBlocked } else m.core.tcb x := by
    intro x
    rw [← hs1, Core.tcb_setTcb]
  have hslots : s1.slots = m.core.slots := by rw [← hs1]; rfl
  have hsame : ∀ s2 : Core, SameThreads s2 { s2 with caller := some thr } :=
    fun _ => ⟨fun _ => rfl, rfl, rfl, rfl, rfl, rfl⟩
  split
  · exact ⟨h1.trans (hsame s1), rfl, hslots, htcb⟩
  · exact ⟨(h1.trans (setUtcb_same s1 _ _)).trans (hsame _), rfl, hslots, htcb⟩

/-- The ways of a call of `sys_ipc`: sleep, send, receive, or none of these. -/
theorem sysIpc_outcome {m m' : Machine} (h : sysIpc mm kip m c = .ok m') :
    ∃ calls, m'.syscallSoftirq = m.syscallSoftirq ∧
    (((m.core.tcb c).frame.r0 = L4_NILTHREAD ∧ (m.core.tcb c).frame.r2 ≠ 0#32 ∧
        m'.core = Core.setTcb { m.core with calls := calls } c (fun tcb =>
          { tcb with state := .inactive }) ∧
        m'.timer = (m.timer.eventCreate (sleepTicks (m.core.tcb c).frame.r2) (.ipcTimeout c)).2) ∨
      (m'.timer = m.timer ∧
        (((m.core.tcb c).frame.r0 ≠ L4_NILTHREAD ∧
            sysIpcSend mm kip { m.core with calls := calls } c (m.core.tcb c).frame.r0 =
              .ok m'.core) ∨
          ((m.core.tcb c).frame.r0 = L4_NILTHREAD ∧ (m.core.tcb c).frame.r2 = 0#32 ∧
            ∃ (state : ThreadState) (source : Word),
              (state = .recvBlocked ∨ state = .sendBlocked) ∧
              m'.core = Core.setTcb { m.core with calls := calls } c (fun tcb =>
                { tcb with state := state, ipcFrom := source }))))) := by
  obtain ⟨_, rfl, ⟨hr0, hr2, rfl⟩ | ⟨hnil, s1, h1, rfl⟩ | ⟨hnil, hzero, hway⟩⟩ := sysIpc_ways h
  · exact ⟨_, rfl, .inl ⟨hr0, hr2, rfl, rfl⟩⟩
  · exact ⟨_, rfl, .inr ⟨rfl, .inl ⟨hnil, h1⟩⟩⟩
  · rcases hway with ⟨_, rfl⟩ | ⟨_, rfl⟩
    · exact ⟨_, rfl, .inr ⟨rfl, .inr ⟨hnil, hzero, .recvBlocked, _, .inl rfl, rfl⟩⟩⟩
    · exact ⟨_, rfl, .inr ⟨rfl, .inr ⟨hnil, hzero, .sendBlocked, (m.core.tcb c).ipcFrom, .inr rfl,
        rfl⟩⟩⟩

end F9
