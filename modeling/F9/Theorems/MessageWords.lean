import F9.Logic.ThreadEffects
import F9.Logic.Words
import F9.Theorems.SystemCalls

/-!
# The transfer of a message is exact

A message passes three mappings of its words to registers: that of `L4_MsgLoad`, that of
`do_ipc` and that of `L4_MsgStore`. The theorem follows a message from the trap of its sender
through any steps of other threads, in which the sender waits, to the step that transfers
it, be it the call itself or a pass of the loop of `ipc_deliver`.
-/

namespace F9

open Result

variable {x t f : TcbRef} {mm : Memmap} {kip toTid : Word} {r : Transfer}

/-! ## Steps -/

/-- A single step of the kernel on the threads: a trap, a system call, one pass of the loop of
`ipc_deliver`, a timeout. A thread that calls `sys_ipc` has a stack. -/
inductive IpcStep (mm : Memmap) (kip : Word) : Core → Core → Prop
  | trap {m : Machine} {thr user} : (m.core.tcb thr).state = .runnable →
      IpcStep mm kip m.core (svcHandler m thr user).core
  | call {m m' : Machine} {c} : m.core.caller = some c → (m.core.tcb c).ctx.sp ≠ 0#32 →
      sysIpc mm kip m c = .ok m' → IpcStep mm kip m.core m'.core
  | control {s s' c} : s.caller = some c → sysThreadControl mm s c = .ok s' →
      IpcStep mm kip s (s'.setTcb c fun tcb => { tcb with state := .runnable })
  | unknown {s} (c : TcbRef) : IpcStep mm kip s (s.setTcb c fun tcb => { tcb with state := .runnable })
  | deliver {s s' i} : deliverAt mm s i = .ok s' → IpcStep mm kip s s'
  | timeout {s} (thr : TcbRef) : IpcStep mm kip s (ipcTimeout s thr)

/-- The thread has trapped, or is blocked in its send. -/
def Sends (s : Core) (t : TcbRef) : Prop :=
  (s.tcb t).state = .svcBlocked ∨ (s.tcb t).state = .sendBlocked

/-- A step that leaves the thread waiting for its send and does not write the message in its
UTCB. -/
structure WaitStep (mm : Memmap) (kip : Word) (f : TcbRef) (s s' : Core) : Prop where
  step : IpcStep mm kip s s'
  sends : Sends s' f
  utcb : ∀ u, (s.tcb f).utcb = some u → (s'.utcbs u).mr = (s.utcbs u).mr

/-! ## A sender that waits -/

/-- The registers, the stack pointer and the UTCB of the thread are as before. -/
structure Keeps (x : TcbRef) (s s' : Core) : Prop where
  regs : (s'.tcb x).ctx.regs = (s.tcb x).ctx.regs
  sp : (s'.tcb x).ctx.sp = (s.tcb x).ctx.sp
  utcb : (s'.tcb x).utcb = (s.tcb x).utcb

variable {s s' : Core}

theorem keeps_of_tcb (h : s'.tcb x = s.tcb x) : Keeps x s s' := by
  constructor
  · rw [h]
  · rw [h]
  · rw [h]

theorem setTcb_keeps {f : Tcb → Tcb} (hctx : (f (s.tcb t)).ctx = (s.tcb t).ctx)
    (hutcb : (f (s.tcb t)).utcb = (s.tcb t).utcb) : Keeps x s (s.setTcb t f) := by
  by_cases hx : x = t
  · subst hx
    have htcb : (s.setTcb x f).tcb x = f (s.tcb x) := by rw [Core.tcb_setTcb, if_pos rfl]
    constructor
    · rw [htcb, hctx]
    · rw [htcb, hctx]
    · rw [htcb, hutcb]
  · exact keeps_of_tcb (by rw [Core.tcb_setTcb, if_neg hx])

theorem Sends.not_runnable (h : Sends s x) : (s.tcb x).state ≠ .runnable := by
  rcases h with h | h
  · rw [h]
    simp
  · rw [h]
    simp

theorem Sends.not_recvBlocked (h : Sends s x) : (s.tcb x).state ≠ .recvBlocked := by
  rcases h with h | h
  · rw [h]
    simp
  · rw [h]
    simp

theorem Sends.not_inactive (h : Sends s x) : (s.tcb x).state ≠ .inactive := by
  rcases h with h | h
  · rw [h]
    simp
  · rw [h]
    simp

/-- A thread that still sends after a `do_ipc` was not part of it, or the message was too
long. -/
theorem doIpc_keeps (h : doIpc mm s f t = .ok s') (hx' : Sends s' x)
    (hsp : x = t → (s.tcb x).ctx.sp ≠ 0#32 ∧ (s.tcb f).ctx.sp ≠ 0#32) : Keeps x s s' := by
  rcases doIpc_cases h with ⟨hover, hcop⟩ | ⟨hover, s1, hcop, hcase⟩
  · rcases doIpc_words h with ⟨_, hsame⟩ | ⟨hnot, _⟩
    · exact ⟨hsame.regs x, hcop.sp x, hcop.utcbOf x⟩
    · exact absurd hover hnot
  · rcases doIpc_words h with ⟨hover', _⟩ | ⟨_, hmoved⟩
    · exact absurd hover' hover
    · -- the thread is neither the sender nor the receiver
      have hrest : x ≠ t ∧ s'.tcb x = s1.tcb x := by
        rcases hcase with ⟨hzero, c, _, rfl⟩ | ⟨_, h⟩
        · constructor
          · rintro rfl
            rcases hzero with hz | hz
            · exact (hsp rfl).1 hz
            · exact (hsp rfl).2 hz
          · rw [Core.tcb_setTcb, if_neg]
            rintro rfl
            refine hx'.not_runnable ?_
            rw [Core.tcb_setTcb, if_pos rfl]
        · have hxf : x ≠ f := by
            rintro rfl
            rcases completeIpc_sender h with hst | hst
            · exact hx'.not_runnable hst
            · exact hx'.not_recvBlocked hst
          have htcb := completeIpc_tcb h hxf
          have hxt : x ≠ t := by
            rintro rfl
            refine hx'.not_runnable ?_
            rw [htcb, if_pos rfl]
          rw [if_neg hxt] at htcb
          exact ⟨hxt, htcb⟩
      refine ⟨hmoved.regs x hrest.1, ?_, ?_⟩
      · rw [hrest.2, hcop.sp]
      · rw [hrest.2, hcop.utcbOf]

variable {c : TcbRef}

theorem startThread_tcb (h : startThread kip s c t = .ok s') (hc : x ≠ c) (ht : x ≠ t) :
    s'.tcb x = s.tcb x := by
  obtain ⟨sp, size, pc, rfl⟩ := startThread_ok h
  rw [Core.tcb_setTcb, if_neg ht, Core.tcb_setTcb, if_neg hc]
  unfold threadInitCtx
  rw [Core.tcb_setTcb, if_neg ht, Core.tcb_setTcb, if_neg ht]

theorem sysIpcSend_keeps (h : sysIpcSend mm kip s c toTid = .ok s') (hx : Sends s x)
    (hx' : Sends s' x) (hspc : (s.tcb c).ctx.sp ≠ 0#32) (hspx : (s.tcb x).ctx.sp ≠ 0#32) :
    Keeps x s s' := by
  obtain ⟨p, _, hcase⟩ := sysIpcSend_cases h
  rcases hcase with ⟨_, rfl⟩ | ⟨_, ⟨t, _, _, h1⟩ | ⟨_, _, hcase⟩⟩
  · exact setTcb_keeps rfl rfl
  · exact doIpc_keeps h1 hx' fun _ => ⟨hspx, hspc⟩
  · rcases hcase with ⟨t, rfl, hin, ⟨_, h1⟩ | ⟨_, s1, h1, rfl⟩⟩ | ⟨_, u, _, rfl⟩
    · refine keeps_of_tcb (startThread_tcb h1 ?_ ?_)
      · rintro rfl
        exact hx'.not_runnable (startThread_caller h1)
      · rintro rfl
        exact hx.not_inactive (inactiveOfPager_true hin)
    · have hxt : x ≠ t := by
        rintro rfl
        exact hx.not_inactive (inactiveOfPager_true hin)
      have htcb : (s1.setTcb t fun tcb => { tcb with state := .inactive }).tcb x = s1.tcb x := by
        rw [Core.tcb_setTcb, if_neg hxt]
      unfold Sends at hx'
      rw [htcb] at hx'
      have hk := doIpc_keeps h1 hx' fun h => absurd h hxt
      constructor
      · rw [htcb, hk.regs]
      · rw [htcb, hk.sp]
      · rw [htcb, hk.utcb]
    · have hk : Keeps x s (s.setTcb c fun tcb => { tcb with state := .sendBlocked }) :=
        setTcb_keeps rfl rfl
      exact ⟨hk.regs, hk.sp, hk.utcb⟩

/-- What a call of `sys_ipc` does: it has a send phase, or changes the state of the caller. -/
theorem sysIpc_cases {m m' : Machine} (h : sysIpc mm kip m c = .ok m') :
    ∃ calls, sysIpcSend mm kip { m.core with calls := calls } c (m.core.tcb c).frame.r0 =
        .ok m'.core ∨
      ∃ (state : ThreadState) (source : Word), m'.core =
        Core.setTcb { m.core with calls := calls } c
          fun tcb => { tcb with state := state, ipcFrom := source } := by
  obtain ⟨_, rfl, ⟨_, _, rfl⟩ | ⟨_, s1, h1, rfl⟩ | ⟨_, _, ⟨_, rfl⟩ | ⟨_, rfl⟩⟩⟩ := sysIpc_ways h
  · exact ⟨_, .inr ⟨.inactive, (m.core.tcb c).ipcFrom, rfl⟩⟩
  · exact ⟨_, .inl h1⟩
  · exact ⟨_, .inr ⟨.recvBlocked, _, rfl⟩⟩
  · exact ⟨_, .inr ⟨.sendBlocked, (m.core.tcb c).ipcFrom, rfl⟩⟩

theorem IpcStep.keeps (h : IpcStep mm kip s s') (hx : Sends s x) (hx' : Sends s' x)
    (hsp : (s.tcb x).ctx.sp ≠ 0#32) : Keeps x s s' := by
  cases h with
  | @trap m thr user hrun =>
    have hne : x ≠ thr := by
      rintro rfl
      exact hx.not_runnable hrun
    refine keeps_of_tcb ?_
    unfold svcHandler
    dsimp only
    split <;> exact if_neg hne
  | @call m m' c _ hspc h =>
    obtain ⟨calls, h | ⟨state, source, h⟩⟩ := sysIpc_cases h
    · have hk := sysIpcSend_keeps h hx hx' hspc hsp
      exact ⟨hk.regs, hk.sp, hk.utcb⟩
    · rw [h]
      have hk : Keeps x { m.core with calls := calls } (Core.setTcb { m.core with calls := calls }
        c fun tcb => { tcb with state := state, ipcFrom := source }) := setTcb_keeps rfl rfl
      exact ⟨hk.regs, hk.sp, hk.utcb⟩
  | @control s s1 c _ h =>
    have hc : x ≠ c := by
      rintro rfl
      refine hx'.not_runnable ?_
      rw [Core.tcb_setTcb, if_pos rfl]
    have htcb : (s1.setTcb c fun tcb => { tcb with state := .runnable }).tcb x = s1.tcb x := by
      rw [Core.tcb_setTcb, if_neg hc]
    have hact : s1.activity x = s.activity x := by
      obtain ⟨_, _, _, ⟨_, rfl | ⟨thr, _, _, hthr, _, hact⟩⟩ | ⟨_, _, _, _, hact⟩⟩ :=
        sysThreadControl_activity h
      · rfl
      · refine hact x ?_
        -- a thread that sends is not the new one
        rintro rfl
        refine hx'.not_inactive ?_
        rw [htcb, hthr]
      · exact hact x
    have hctx : (s1.tcb x).ctx = (s.tcb x).ctx := congrArg (·.2.1) hact
    refine ⟨?_, ?_, ?_⟩
    · rw [htcb, hctx]
    · rw [htcb, hctx]
    · rw [htcb]
      exact congrArg (·.2.2) hact
  | unknown c => exact setTcb_keeps rfl rfl
  | deliver h =>
    rcases deliverAt_cases h with rfl | ⟨f, t, h, _, ht, _⟩
    · exact keeps_of_tcb rfl
    · refine doIpc_keeps h hx' fun hxt => ?_
      rw [hxt] at hx
      exact absurd ht hx.not_recvBlocked
  | timeout thr =>
    have hk : Keeps x s (s.setTcb thr fun tcb => { tcb with state := .runnable }) :=
      setTcb_keeps rfl rfl
    exact ⟨hk.regs, hk.sp, hk.utcb⟩

/-- A thread that waits for its send keeps its message. -/
theorem waits_vregs (h : Relation.ReflTransGen (WaitStep mm kip f) s s') (hs : Sends s f)
    (hsp : (s.tcb f).ctx.sp ≠ 0#32) : s'.vregs f = s.vregs f := by
  have hall : s'.vregs f = s.vregs f ∧ Sends s' f ∧ (s'.tcb f).ctx.sp ≠ 0#32 := by
    induction h with
    | refl => exact ⟨rfl, hs, hsp⟩
    | @tail s1 s2 _ hstep ih =>
      obtain ⟨hv, hs1, hsp1⟩ := ih
      have hk := hstep.step.keeps hs1 hstep.sends hsp1
      refine ⟨?_, hstep.sends, by rw [hk.sp]; exact hsp1⟩
      rw [← hv]
      unfold Core.vregs
      rw [hk.regs, hk.utcb]
      congr 1
      cases hu : (s1.tcb f).utcb with
      | none => rfl
      | some u => exact hstep.utcb u hu
  exact hall.1

/-! ## The transfer -/

theorem completeIpc_transfers (h : completeIpc s f t = .ok s') :
    ∃ r : Transfer, r.sender = f ∧ r.receiver = t ∧ s'.transfers = r :: s.transfers := by
  obtain ⟨u, _, h⟩ := bind_ok.mp h
  rw [← pure_ok.mp h]
  exact ⟨_, rfl, rfl, rfl⟩

/-- A message that is recorded is one whose words were copied. -/
theorem doIpc_recorded (h : doIpc mm s f t = .ok s') (hr : s'.transfers = r :: s.transfers) :
    r.sender = f ∧ r.receiver = t ∧ Moved f t 0 (msgWords (s.mr f 0) + 1) s s' := by
  have hcons : ∀ l : List Transfer, l ≠ r :: l := by
    intro l hl
    have := congrArg List.length hl
    simp at this
  rcases doIpc_cases h with ⟨_, hcop⟩ | ⟨hover, s1, hcop, ⟨_, c, _, rfl⟩ | ⟨_, hcomplete⟩⟩
  · rw [hcop.transfers] at hr
    exact absurd hr (hcons _)
  · have hr' : s1.transfers = r :: s.transfers := hr
    rw [hcop.transfers] at hr'
    exact absurd hr' (hcons _)
  · obtain ⟨r', hs, ht, hr'⟩ := completeIpc_transfers hcomplete
    rw [hr', hcop.transfers] at hr
    injection hr with hr
    rcases doIpc_words h with ⟨hover', _⟩ | ⟨_, hm⟩
    · exact absurd hover' hover
    · exact ⟨hr ▸ hs, hr ▸ ht, hm⟩

theorem startThread_transfers (h : startThread kip s c t = .ok s') :
    s'.transfers = s.transfers := by
  obtain ⟨sp, size, pc, rfl⟩ := startThread_ok h
  rfl

theorem sysIpcSend_recorded (h : sysIpcSend mm kip s c toTid = .ok s')
    (hr : s'.transfers = r :: s.transfers) :
    Moved r.sender r.receiver 0 (msgWords (s.mr r.sender 0) + 1) s s' := by
  have hcons : s.transfers ≠ r :: s.transfers := by
    intro hl
    have := congrArg List.length hl
    simp at this
  obtain ⟨p, _, hcase⟩ := sysIpcSend_cases h
  rcases hcase with ⟨_, rfl⟩ | ⟨_, ⟨t, _, _, h1⟩ | ⟨_, _, hcase⟩⟩
  · exact absurd hr hcons
  · obtain ⟨hs, ht, hm⟩ := doIpc_recorded h1 hr
    rw [hs, ht]
    exact hm
  · rcases hcase with ⟨t, _, _, ⟨_, h1⟩ | ⟨_, s1, h1, rfl⟩⟩ | ⟨_, u, _, rfl⟩
    · rw [startThread_transfers h1] at hr
      exact absurd hr hcons
    · obtain ⟨hs, ht, hm⟩ := doIpc_recorded h1 hr
      rw [hs, ht]
      have hsame : SameWords s1 (s1.setTcb t fun tcb => { tcb with state := .inactive }) :=
        setTcb_sameWords rfl rfl
      exact hm.trans (by omega) (by omega) (hsame.moved c t _)
    · exact absurd hr hcons

theorem IpcStep.recorded (h : IpcStep mm kip s s') (hr : s'.transfers = r :: s.transfers) :
    Moved r.sender r.receiver 0 (msgWords (s.mr r.sender 0) + 1) s s' := by
  have hcons : s.transfers ≠ r :: s.transfers := by
    intro hl
    have := congrArg List.length hl
    simp at this
  cases h with
  | @trap m thr user _ =>
    refine absurd ?_ hcons
    rw [← hr]
    unfold svcHandler
    dsimp only
    split <;> rfl
  | @call m m' c _ _ h =>
    obtain ⟨calls, h | ⟨state, source, h⟩⟩ := sysIpc_cases h
    · have hm := sysIpcSend_recorded h hr
      exact ⟨hm.sender, hm.receiver, hm.regs⟩
    · rw [h] at hr
      exact absurd hr hcons
  | control _ h => exact absurd ((sysThreadControl_activity h).2.2.1.symm.trans hr) hcons
  | unknown c => exact absurd hr hcons
  | deliver h =>
    rcases deliverAt_cases h with rfl | ⟨f, t, h, _⟩
    · exact absurd hr hcons
    · obtain ⟨hs, ht, hm⟩ := doIpc_recorded h hr
      rw [hs, ht]
      exact hm
  | timeout thr => exact absurd hr hcons

theorem svcHandler_vregs (m : Machine) (thr : TcbRef) (user : UserState) {u : Word}
    (hu : (m.core.tcb thr).utcb = some u) :
    (svcHandler m thr user).core.vregs thr = ⟨user.regs, user.mr⟩ ∧
      Sends (svcHandler m thr user).core thr ∧
      ((svcHandler m thr user).core.tcb thr).ctx.sp = user.sp := by
  have htcb : (svcHandler m thr user).core.tcb thr = { m.core.tcb thr with
      ctx := { (m.core.tcb thr).ctx with sp := user.sp, regs := user.regs }
      frame := user.frame
      state := .svcBlocked } := by
    unfold svcHandler
    dsimp only
    split <;> exact if_pos rfl
  have hmr : ((svcHandler m thr user).core.utcbs u).mr = user.mr := by
    unfold svcHandler
    dsimp only
    rw [Core.tcb_setTcb, if_pos rfl]
    rw [hu]
    rw [Core.utcbs_setUtcb, if_pos rfl]
  refine ⟨?_, ?_, by rw [htcb]⟩
  · unfold Core.vregs
    rw [htcb]
    rw [hu]
    dsimp only
    rw [hmr]
  · unfold Sends
    rw [htcb]
    exact .inl rfl

/-- A thread loads a message with `L4_MsgLoad` and traps. It waits until a step transfers the
message. The receiver's `L4_MsgStore` then reads the tag and the words of the message, and the
other registers of the receiver and all of the sender are as before the step. -/
theorem message_exact {mm : Memmap} {kip : Word} {m : Machine} {f : TcbRef} {u : Word}
    {user : UserState} {v : Vregs} {msg : L4Msg} {s s' : Core} {r : Transfer}
    (hwords : msgWords (msg 0) ≤ 15) (hload : ⟨user.regs, user.mr⟩ = l4MsgLoad msg v)
    (hsp : user.sp ≠ 0#32) (hu : (m.core.tcb f).utcb = some u)
    (hwait : Relation.ReflTransGen (WaitStep mm kip f) (svcHandler m f user).core s)
    (hstep : IpcStep mm kip s s') (hr : s'.transfers = r :: s.transfers) (hf : r.sender = f) :
    s'.mr r.receiver 0 = msg 0 ∧
    (∀ old i, i ≤ msgWords (msg 0) →
      l4MsgStore (s'.mr r.receiver 0) (s'.vregs r.receiver) old i = msg i) ∧
    (∀ i, msgWords (msg 0) < i → s'.mr r.receiver i = s.mr r.receiver i) ∧
    (∀ i, s'.mr f i = s.mr f i) := by
  obtain ⟨hv, hs, hsp'⟩ := svcHandler_vregs m f user hu
  have hkept := waits_vregs hwait hs (by rw [hsp']; exact hsp)
  rw [hv, hload] at hkept
  -- the message is still in the registers of the sender
  have hmsg : ∀ i, i ≤ msgWords (msg 0) → s.mr f i = msg i := by
    intro i hi
    unfold Core.mr
    rw [hkept, l4MsgLoad_get hwords, if_pos hi]
  have hm := hstep.recorded hr
  rw [hf, hmsg 0 (Nat.zero_le _)] at hm
  have hrecv : ∀ i, i ≤ msgWords (msg 0) → s'.mr r.receiver i = msg i := by
    intro i hi
    rw [hm.receiver, if_pos (by omega), hmsg i hi]
  have htag := hrecv 0 (Nat.zero_le _)
  refine ⟨htag, ?_, ?_, hm.sender⟩
  · intro old i hi
    rw [htag, l4MsgStore_apply hwords]
    by_cases h0 : i = 0
    · rw [if_pos h0, h0]
    · rw [if_neg h0, if_pos hi]
      exact hrecv i hi
  · intro i hi
    rw [hm.receiver, if_neg (by omega)]

/-- A message of nine untyped and two typed words. -/
def elevenWords : L4Msg := fun i => if i = 0 then 0xF00F0089#32 else BitVec.ofNat 32 (16 * i)

/-- A thread that has loaded it and sends it to thread 256. -/
def elevenUser : UserState where
  sp := 0x2000C000#32
  frame := { (default : Frame) with r0 := tidToGlobalid 256 }
  regs := (l4MsgLoad elevenWords ⟨fun _ => 0#32, fun _ => 0#32⟩).regs
  mr := (l4MsgLoad elevenWords ⟨fun _ => 0#32, fun _ => 0#32⟩).mr

/-- Thread 256 waits, and 257 sends the message. -/
theorem message_exact_eleven : ∃ (s' : Core) (r : Transfer), s'.transfers = [r] ∧
    r.sender = 4 ∧ ∀ old, l4MsgStore (s'.mr r.receiver 0) (s'.vregs r.receiver) old 11 = 176#32 := by
  obtain ⟨m, _, h⟩ := exists_sixRun sixThreads_start
    [ipcTrap 3 L4_NILTHREAD L4_ANYTHREAD, .syscall] (fun m =>
      decide ((m.core.tcb 4).utcb = some 0x20008400#32) &&
        decide ((svcHandler m 4 elevenUser).core.transfers = []) &&
        okWith (fun m' : Machine => decide (m'.core.transfers.map Transfer.sender = [4]))
          (sysIpc [] 0#32 (svcHandler m 4 elevenUser) 4)) (by decide +kernel)
  simp only [Bool.and_eq_true, decide_eq_true_eq] at h
  obtain ⟨⟨hu, hnone⟩, hok⟩ := h
  obtain ⟨m', hm', hsent⟩ := okWith_iff.mp hok
  rw [decide_eq_true_eq, List.map_eq_singleton_iff] at hsent
  obtain ⟨r, hr, hsender⟩ := hsent
  have hsp := (svcHandler_vregs m 4 elevenUser hu).2.2
  have hstep : IpcStep [] 0#32 (svcHandler m 4 elevenUser).core m'.core :=
    .call rfl (by rw [hsp]; decide) hm'
  have hwords : msgWords (elevenWords 0) ≤ 15 := by decide
  have hexact := message_exact hwords rfl (by decide) hu .refl hstep (by rw [hr, hnone]) hsender
  exact ⟨m'.core, r, hr, hsender, fun old => hexact.2.1 old 11 (by decide)⟩

end F9
